import EasyReactor.Client.Input
import EasyReactor.Wire.Reference

set_option autoImplicit false

/-!
# Client: whole streams

A stream of frames arrives in chunks on a new connection.  The client keeps up with it
exactly when the chunks are `Paced`: a chunk that completes a frame ends with it, and no
other chunk goes further than the header of the next one.
-/

namespace EasyReactor.Client

open EasyReactor.Foundation EasyReactor.Buffer EasyReactor.Loop EasyReactor.Wire

/-- With `held` left of the stream so far, each chunk leaves less than a header, or makes
the next frame complete and ends with it. -/
inductive Paced : List Msg → List UInt8 → List (List UInt8) → Prop where
  | done {ms : List Msg} {held : List UInt8} : Paced ms held []
  | gather {ms : List Msg} {held bs : List UInt8} {chunks : List (List UInt8)}
      (early : (held ++ bs).length < commuHeadLength) (rest : Paced ms (held ++ bs) chunks) :
      Paced ms held (bs :: chunks)
  | whole {m : Msg} {ms : List Msg} {held bs : List UInt8} {chunks : List (List UInt8)}
      (frame : held ++ bs = m.frame) (rest : Paced ms [] chunks) :
      Paced (m :: ms) held (bs :: chunks)

/-- The messages dispatched are those of `ms` whose frames are all in `stream`, and `ibuf`
holds the bytes of the one that is not. -/
def Delivered (ms : List Msg) (stream : List UInt8) (s : ClientState) : Prop :=
  ∃ todo held, ms = s.session.dispatched ++ todo ∧
    stream = frames s.session.dispatched ++ held ∧ Window s.ibuf 0 held ∧
    ∀ m ∈ todo.head?, held.length < m.frame.length

/-- The event in which `handle_read` finds `bs` to read. -/
def arrival (sys : SysCalls) (bs : List UInt8) : ClientEvent :=
  .io .input { sys with recv := .chunk bs }

/-- A client connects to its first socket, and `chunks` arrive, one for each `handle_read`. -/
def ClientState.receive (cli : TcpClient) (rawIn rawOut : Nat → UInt8) (fd : Nat) (sys : SysCalls)
    (chunks : List (List UInt8)) : Except Fault ClientState :=
  run cli rawIn rawOut ⟨some fd, .inProgress⟩
    (.io .output { sys with soError := 0 } :: chunks.map (arrival sys))

/-- A connected client that dispatched `done` and holds `held`. -/
structure Awaits (s : ClientState) (done : List Msg) (held : List UInt8) : Prop where
  up : Up s
  reading : Reads s
  pending : ∃ pending, Pending s pending
  held : Window s.ibuf 0 held
  capacity : s.ibuf.capacity = 4194304
  dispatched : s.session.dispatched = done

section

variable {cli : TcpClient} {s : ClientState} {sys : SysCalls} {done : List Msg}
  {held bs : List UInt8}

theorem Kept.awaits {s' : ClientState} {msgs : List Msg} {held' : List UInt8}
    (h : Awaits s done held) (hk : Kept s s' bs msgs held') : Awaits s' (done ++ msgs) held' := by
  obtain ⟨pending, w⟩ := h.pending
  refine ⟨hk.up, hk.reading h.reading, hk.output.window w, hk.held, ?_, ?_⟩
  · rw [hk.capacity, h.capacity]
  · rw [hk.session, ← h.dispatched]

/-- A new connection has dispatched nothing, and holds nothing. -/
theorem connect_ends (cli : TcpClient) (rawIn rawOut : Nat → UInt8) (fd : Nat) (sys : SysCalls) :
    Ends (ClientState.receive cli rawIn rawOut fd sys []) (Awaits · [] []) (Overflow cli) := by
  obtain ⟨s, hs, hconn, hev, hibuf, hobuf, -⟩ := construct_new rawIn rawOut fd
  unfold ClientState.receive ClientState.run
  rw [hs, ok_bind, List.map_nil]
  simp only [List.foldlM_cons, List.foldlM_nil, bind_pure]
  have w : Pending s [] := by
    unfold Pending
    rw [hobuf]
    exact .of_new (by decide) (by decide) rawOut
  have hstep : s.step cli (.io .output { sys with soError := 0 }) =
      s.connectionCb cli s.sockfd 0 := by
    unfold ClientState.step
    simp only
    rw [hev]
    rfl
  rw [hstep]
  apply (connectionCb_ends hconn w 0).imp
  · rintro s' (⟨-, h⟩ | ⟨hno, -⟩)
    · refine ⟨h.up, h.reading, h.output.window w, ?_, ?_, ?_⟩
      · rw [h.ibuf, hibuf]
        exact .of_new (by decide) (by decide) rawIn
      · rw [h.ibuf, hibuf]
        rfl
      · rw [h.session, hconn.idle]
        rfl
    · exact absurd rfl hno
  · exact fun e he => he

/-- One chunk on a connected client. -/
theorem Awaits.step (h : Awaits s done held) (cli : TcpClient) (sys : SysCalls) (hne : bs ≠ []) :
    Ends (s.step cli (arrival sys bs))
      (fun s' => (held.length : Int) + bs.length ≤ 4194304 ∧ AfterRead cli s bs (held ++ bs) s')
      (fun e => (held.length : Int) + bs.length ≤ 4194304 → ReadFault cli (held ++ bs) e) := by
  obtain ⟨pending, w⟩ := h.pending
  have hread : s.step cli (arrival sys bs) = s.handleRead cli (.chunk bs) sys.connect := by
    unfold ClientState.step arrival
    simp only
    rw [h.reading]
    rfl
  rw [hread, ← h.capacity]
  apply (handleRead_ends h.up w h.held (.chunk bs) sys.connect).imp
  · intro s' hs
    cases hs with
    | ignored fionread => cases fionread
    | ended _ read _ _ =>
      cases read with
      | inl hnil => exact absurd (ReadResult.bytes.inj hnil) hne
      | inr herr => cases herr
    | read bs' _ read _ fits after =>
      obtain rfl := ReadResult.bytes.inj read
      exact ⟨fits, after⟩
  · exact fun e he => he bs rfl hne

/-- A chunk after which nothing is dropped and no body is missing. -/
theorem Awaits.step_ok (h : Awaits s done held) (sys : SysCalls) (hne : bs ≠ [])
    (hmodest : cli.Modest)
    (hfit : (held.length : Int) + bs.length ≤ 4194304)
    (hknown : turn cli.dispatcher.exist (held ++ bs) ≠ .unknown)
    (hthere : turn cli.dispatcher.exist (held ++ bs) ≠ .short) :
    ∃ s', s.step cli (arrival sys bs) = .ok s' ∧ AfterRead cli s bs (held ++ bs) s' := by
  have hstep := h.step cli sys hne
  cases hs : s.step cli (arrival sys bs) with
  | ok s' => exact ⟨s', rfl, (hstep.of_ok hs).2⟩
  | error e =>
    cases hstep.of_error hs hfit with
    | exit ht => exact absurd ht hknown
    | overflow he => exact absurd hmodest he.2
    | short ht => exact absurd ht hthere

/-! ## Frames at the front -/

/-- The header of a stream of frames is that of its first one. -/
theorem head_of_frames {m : Msg} {ms : List Msg} {all rest : List UInt8}
    (h : all ++ rest = frames (m :: ms)) (hlen : commuHeadLength ≤ all.length) :
    CommuHead.ofBytes all = m.head := by
  rw [← CommuHead.ofBytes_append hlen rest, h, frames_cons]
  unfold Msg.frame
  rw [List.append_assoc, CommuHead.ofBytes_bytes]

/-- One whole frame is dispatched. -/
theorem turn_frame {registered : Int32 → Bool} {m : Msg} (h : m.Sendable registered) :
    turn registered m.frame = .whole m := by
  have hlimit : m.body.length ≤ 65528 := h.length
  have hone : m.frame ++ [] = frames [m] := by simp
  have hhead : CommuHead.ofBytes m.frame = m.head := head_of_frames hone (by simp)
  have hbody := Msg.head_length (m := m) (by omega)
  have hlen := Msg.length_frame m
  have heq := commuHeadLength_eq
  have hreg : registered m.head.cmdid = true := h.registered
  unfold turn
  rw [if_neg (by omega), hhead]
  simp only
  rw [hbody, wrap_of_range (by omega) (by omega), if_neg (by omega), if_neg (by simp [hreg]),
    if_pos (by omega)]
  unfold Msg.frame
  rw [List.drop_left' (CommuHead.length_bytes _)]
  rfl

/-! ## Both directions -/

theorem Awaits.delivered (h : Awaits s done held) (hshort : held.length < commuHeadLength)
    (todo : List Msg) : Delivered (done ++ todo) (frames done ++ held) s := by
  refine ⟨todo, held, ?_, ?_, h.held, ?_⟩
  · rw [h.dispatched]
  · rw [h.dispatched]
  · intro m _
    have := Msg.length_frame m
    omega

/-- A chunk that leaves less than a header is kept. -/
theorem Awaits.gathers (h : Awaits s done held) (sys : SysCalls) (hmodest : cli.Modest)
    (hne : bs ≠ []) (early : (held ++ bs).length < commuHeadLength) :
    ∃ s', s.step cli (arrival sys bs) = .ok s' ∧ Awaits s' done (held ++ bs) := by
  have hhead := commuHeadLength_eq
  have hlen : (held ++ bs).length = held.length + bs.length := List.length_append
  have hturn : turn cli.dispatcher.exist (held ++ bs) = .wait := if_pos early
  obtain ⟨s', hs', ha⟩ :=
    h.step_ok sys hne hmodest (by omega) (by simp [hturn]) (by simp [hturn])
  refine ⟨s', hs', ?_⟩
  cases ha with
  | waits _ hk =>
    have h' := hk.awaits h
    rw [List.append_nil] at h'
    exact h'
  | whole ht => cases hturn.symm.trans ht
  | dropped ht => cases hturn.symm.trans ht

/-- A chunk that completes a frame dispatches its message. -/
theorem Awaits.dispatches (h : Awaits s done held) (sys : SysCalls) (hmodest : cli.Modest)
    (hne : bs ≠ []) {m : Msg} (hm : m.Sendable cli.dispatcher.exist)
    (frame : held ++ bs = m.frame) :
    ∃ s', s.step cli (arrival sys bs) = .ok s' ∧ Awaits s' (done ++ [m]) [] := by
  have hhead := commuHeadLength_eq
  have hlimit : m.body.length ≤ 65528 := hm.length
  have hlen := congrArg List.length frame
  rw [List.length_append, Msg.length_frame] at hlen
  have hturn : turn cli.dispatcher.exist (held ++ bs) = .whole m := by
    rw [frame]
    exact turn_frame hm
  obtain ⟨s', hs', ha⟩ :=
    h.step_ok sys hne hmodest (by omega) (by simp [hturn]) (by simp [hturn])
  refine ⟨s', hs', ?_⟩
  cases ha with
  | waits ht => cases hturn.symm.trans ht
  | whole ht hk =>
    obtain rfl := Turn.whole.inj (hturn.symm.trans ht)
    exact hk.awaits h
  | dropped ht => cases hturn.symm.trans ht

/-- Paced chunks are delivered. -/
theorem Awaits.delivers {todo : List Msg} {chunks : List (List UInt8)}
    (hpaced : Paced todo held chunks) (sys : SysCalls) (hmodest : cli.Modest)
    (h : Awaits s done held) (hshort : held.length < commuHeadLength)
    (hms : ∀ m ∈ todo, m.Sendable cli.dispatcher.exist) (hne : ∀ bs ∈ chunks, bs ≠ [])
    (k : Nat) (hk : k ≤ chunks.length) :
    ∃ s', ((chunks.take k).map (arrival sys)).foldlM (ClientState.step cli) s = .ok s' ∧
      Delivered (done ++ todo) (frames done ++ (held ++ (chunks.take k).flatten)) s' := by
  have hhead := commuHeadLength_eq
  induction hpaced generalizing s done k with
  | @done ms held =>
    obtain rfl : k = 0 := by simpa using hk
    exact ⟨s, rfl, by simpa using h.delivered hshort ms⟩
  | @gather ms held bs chunks early rest ih =>
    cases k with
    | zero => exact ⟨s, rfl, by simpa using h.delivered hshort ms⟩
    | succ k =>
      obtain ⟨s₁, hs₁, h₁⟩ := h.gathers sys hmodest (hne bs (List.mem_cons_self ..)) early
      obtain ⟨s', hs', hd⟩ := ih h₁ early hms (fun b hb => hne b (List.mem_cons_of_mem _ hb)) k
        (by simpa using hk)
      refine ⟨s', ?_, ?_⟩
      · rw [List.take_succ_cons, List.map_cons, List.foldlM_cons, hs₁, ok_bind, hs']
      · rw [List.take_succ_cons, List.flatten_cons]
        simpa using hd
  | @whole m ms held bs chunks frame rest ih =>
    cases k with
    | zero => exact ⟨s, rfl, by simpa using h.delivered hshort (m :: ms)⟩
    | succ k =>
      obtain ⟨s₁, hs₁, h₁⟩ := h.dispatches sys hmodest (hne bs (List.mem_cons_self ..))
        (hms m (List.mem_cons_self ..)) frame
      obtain ⟨s', hs', hd⟩ := ih h₁ (by simp) (fun b hb => hms b (List.mem_cons_of_mem _ hb))
        (fun b hb => hne b (List.mem_cons_of_mem _ hb)) k (by simpa using hk)
      refine ⟨s', ?_, ?_⟩
      · rw [List.take_succ_cons, List.map_cons, List.foldlM_cons, hs₁, ok_bind, hs']
      · rw [List.take_succ_cons, List.flatten_cons, ← List.append_assoc held, frame]
        simpa using hd

/-- A message that was delivered too late: its frame is all there, and not dispatched. -/
theorem not_delivered {m : Msg} {ms : List Msg} {stream all : List UInt8}
    (hd : s.session.dispatched = done) (w : Window s.ibuf 0 all)
    (hlen : m.frame.length ≤ all.length) : ¬ Delivered (done ++ m :: ms) stream s := by
  rintro ⟨todo, held, hsplit, -, w', hhead⟩
  rw [hd] at hsplit
  obtain rfl := List.append_cancel_left hsplit
  obtain rfl := w.unique w'
  have := hhead m rfl
  omega

/-- A header is there, and all that has arrived is delivered: it was the first frame. -/
theorem Awaits.frame_of_delivered {s' : ClientState} {m : Msg} {ms : List Msg}
    {stream rest : List UInt8} (h : Awaits s done held)
    (hlen : commuHeadLength ≤ (held ++ bs).length) (hm : m.Sendable cli.dispatcher.exist)
    (hcat : held ++ bs ++ rest = frames (m :: ms)) (hafter : AfterRead cli s bs (held ++ bs) s')
    (hd : Delivered (done ++ m :: ms) stream s') :
    held ++ bs = m.frame ∧ rest = frames ms ∧ Awaits s' (done ++ [m]) [] := by
  have hhead := commuHeadLength_eq
  have hlimit : m.body.length ≤ 65528 := hm.length
  have hofBytes := head_of_frames hcat hlen
  have hbody := Msg.head_length (m := m) (by omega)
  have hframe := Msg.length_frame m
  cases hafter with
  | waits ht hk =>
    cases turn_eq ht with
    | wait hwait =>
      have hlong := hwait.resolve_left (by omega)
      rw [hofBytes, hbody, wrap_of_range (by omega) (by omega)] at hlong
      refine absurd hd (not_delivered ?_ hk.held (by omega))
      have h₁ := hk.awaits h
      rw [h₁.dispatched, List.append_nil]
  | dropped ht =>
    cases turn_eq ht with
    | unknown _ hunknown =>
      rw [hofBytes] at hunknown
      cases hunknown.symm.trans hm.registered
  | whole ht hk =>
    have hannounced : (CommuHead.ofBytes (held ++ bs)).length.toInt + commuHeadLength =
        (held ++ bs).length := by
      cases turn_eq ht with
      | whole _ _ hannounced => exact hannounced
    rw [hofBytes, hbody] at hannounced
    -- a prefix as long as the first frame is the first frame
    obtain ⟨hfirst, hrest⟩ := List.append_inj hcat (by omega)
    rw [hfirst, turn_frame hm] at ht
    obtain rfl := Turn.whole.inj ht
    exact ⟨hfirst, hrest, hk.awaits h⟩

/-- What is delivered was paced. -/
theorem Awaits.paced {chunks : List (List UInt8)} (hne : ∀ bs ∈ chunks, bs ≠ []) {todo : List Msg}
    (sys : SysCalls) (h : Awaits s done held) (hms : ∀ m ∈ todo, m.Sendable cli.dispatcher.exist)
    (hcat : held ++ chunks.flatten = frames todo)
    (hall : ∀ k ≤ chunks.length, ∃ s',
      ((chunks.take k).map (arrival sys)).foldlM (ClientState.step cli) s = .ok s' ∧
        Delivered (done ++ todo) (frames done ++ (held ++ (chunks.take k).flatten)) s') :
    Paced todo held chunks := by
  have hhead := commuHeadLength_eq
  induction chunks generalizing s done held todo with
  | nil => exact .done
  | cons bs chunks ih =>
    obtain ⟨s₁, hs₁, hd₁⟩ := hall 1 (by simp)
    simp only [List.take_succ_cons, List.take_zero, List.map_cons, List.map_nil, List.foldlM_cons,
      List.foldlM_nil, bind_pure, List.flatten_cons, List.flatten_nil, List.append_nil] at hs₁ hd₁
    rw [List.flatten_cons, ← List.append_assoc] at hcat
    have hne' : ∀ b ∈ chunks, b ≠ [] := fun b hb => hne b (List.mem_cons_of_mem _ hb)
    have hafter := ((h.step cli sys (hne bs (List.mem_cons_self ..))).of_ok hs₁).2
    -- what the runs from here on look like after the first chunk
    have hrest : ∀ k ≤ chunks.length, ∃ s',
        ((chunks.take k).map (arrival sys)).foldlM (ClientState.step cli) s₁ = .ok s' ∧
          Delivered (done ++ todo) (frames done ++ (held ++ bs ++ (chunks.take k).flatten)) s' := by
      intro k hk
      obtain ⟨s', hs', hd'⟩ := hall (k + 1) (by simpa using hk)
      rw [List.take_succ_cons, List.map_cons, List.foldlM_cons, hs₁, ok_bind] at hs'
      rw [List.take_succ_cons, List.flatten_cons, ← List.append_assoc held] at hd'
      exact ⟨s', hs', hd'⟩
    by_cases hearly : (held ++ bs).length < commuHeadLength
    · refine .gather hearly ?_
      cases hafter with
      | waits _ hk =>
        have h₁ := hk.awaits h
        rw [List.append_nil] at h₁
        exact ih hne' h₁ hms hcat hrest
      | whole ht => cases (if_pos hearly).symm.trans ht
      | dropped ht => cases (if_pos hearly).symm.trans ht
    · cases todo with
      | nil =>
        have := congrArg List.length hcat
        rw [List.length_append, frames_nil, List.length_nil] at this
        omega
      | cons m ms =>
        obtain ⟨hfirst, hcat', h₁⟩ := h.frame_of_delivered (by omega)
          (hms m (List.mem_cons_self ..)) hcat hafter hd₁
        refine .whole hfirst
          (ih hne' h₁ (fun m' hm' => hms m' (List.mem_cons_of_mem _ hm')) hcat' ?_)
        intro k hk
        obtain ⟨s', hs', hd'⟩ := hrest k hk
        refine ⟨s', hs', ?_⟩
        rw [hfirst] at hd'
        simpa using hd'

end

/-- A run starts by connecting. -/
theorem receive_eq (cli : TcpClient) (rawIn rawOut : Nat → UInt8) (fd : Nat) (sys : SysCalls)
    (chunks : List (List UInt8)) :
    ClientState.receive cli rawIn rawOut fd sys chunks =
      ClientState.receive cli rawIn rawOut fd sys [] >>=
        (chunks.map (arrival sys)).foldlM (ClientState.step cli) := by
  unfold ClientState.receive ClientState.run
  simp only [List.map_nil, List.foldlM_cons, List.foldlM_nil, bind_pure, bind_assoc]

/-- **The client's decoding.**  For a stream of well-formed frames on a new connection, cut
into chunks in any way: after every chunk the client has dispatched exactly the messages
whose frames have arrived, and holds exactly the incomplete rest, if and only if the chunks
are paced. -/
theorem decoding_exact_iff_paced (cli : TcpClient) (hmodest : cli.Modest)
    (rawIn rawOut : Nat → UInt8) (fd : Nat) (sys : SysCalls) (ms : List Msg)
    (chunks : List (List UInt8)) (hms : ∀ m ∈ ms, m.Sendable cli.dispatcher.exist)
    (hcat : chunks.flatten = frames ms) (hne : ∀ bs ∈ chunks, bs ≠ []) :
    (∀ k ≤ chunks.length, ∃ s,
      ClientState.receive cli rawIn rawOut fd sys (chunks.take k) = .ok s ∧
        Delivered ms (chunks.take k).flatten s) ↔ Paced ms [] chunks := by
  have hstart := connect_ends cli rawIn rawOut fd sys
  cases hs₀ : ClientState.receive cli rawIn rawOut fd sys [] with
  | error e => exact absurd hmodest (hstart.of_error hs₀).2
  | ok s₀ =>
    have h₀ := hstart.of_ok hs₀
    have hrun : ∀ k, ClientState.receive cli rawIn rawOut fd sys (chunks.take k) =
        ((chunks.take k).map (arrival sys)).foldlM (ClientState.step cli) s₀ := by
      intro k
      rw [receive_eq, hs₀, ok_bind]
    refine ⟨?_, ?_⟩
    · intro h
      refine h₀.paced hne sys hms hcat ?_
      intro k hk
      rw [← hrun]
      simpa using h k hk
    · intro h k hk
      have hd := h₀.delivers h sys hmodest (by simp) hms hne k hk
      rw [hrun]
      simpa using hd

/-- A frame that arrives in two chunks, cut in its header, is paced and delivered. -/
theorem decoding_exact_cut_header :
    Paced [⟨1, [7]⟩] [] [[1, 0, 0], [0, 1, 0, 0, 0, 7]] ∧
      ∀ k ≤ 2, ∃ s, ClientState.receive (quietClient [1]) (fun _ => 0) (fun _ => 0) 5 noCalls
          (([[1, 0, 0], [0, 1, 0, 0, 0, 7]] : List (List UInt8)).take k) = .ok s ∧
        Delivered [⟨1, [7]⟩]
          (([[1, 0, 0], [0, 1, 0, 0, 0, 7]] : List (List UInt8)).take k).flatten s := by
  have hpaced : Paced [⟨1, [7]⟩] [] [[1, 0, 0], [0, 1, 0, 0, 0, 7]] :=
    .gather (by decide) (.whole (by decide) .done)
  refine ⟨hpaced, ?_⟩
  refine (decoding_exact_iff_paced (quietClient [1]) (modest_quiet [1]) (fun _ => 0) (fun _ => 0) 5
    noCalls [⟨1, [7]⟩] [[1, 0, 0], [0, 1, 0, 0, 0, 7]] ?_ (by decide) (by decide)).mpr hpaced
  intro m hm
  obtain rfl := List.mem_singleton.mp hm
  exact ⟨by decide, by decide⟩

/-- Two frames that arrive together are not delivered. -/
theorem coalesced_frames_stuck :
    ¬ ∀ k ≤ 1, ∃ s, ClientState.receive (quietClient [1]) (fun _ => 0) (fun _ => 0) 5 noCalls
        ([frames [⟨1, [7]⟩, ⟨1, [8]⟩]].take k) = .ok s ∧
      Delivered [⟨1, [7]⟩, ⟨1, [8]⟩] ([frames [⟨1, [7]⟩, ⟨1, [8]⟩]].take k).flatten s := by
  intro h
  obtain ⟨s, hs, todo, held, hsplit, hstream, -, hhead⟩ := h 1 (Nat.le_refl _)
  have hobs : (ClientState.receive (quietClient [1]) (fun _ => 0) (fun _ => 0) 5 noCalls
      ([frames [⟨1, [7]⟩, ⟨1, [8]⟩]].take 1)).toOption.map (·.session.dispatched) =
        some [] := by decide +kernel
  have hnone := observed_of_ok hs hobs
  rw [hnone, List.nil_append] at hsplit
  rw [hnone, frames_nil, List.nil_append] at hstream
  subst hsplit
  have hlt := hhead ⟨1, [7]⟩ rfl
  rw [← hstream] at hlt
  exact absurd hlt (by decide)

end EasyReactor.Client
