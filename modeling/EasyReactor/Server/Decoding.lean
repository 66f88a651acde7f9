import EasyReactor.Server.Input

set_option autoImplicit false

/-!
# Server: whole streams

Runs in which a byte stream arrives in chunks, one for each call of `handle_read`, while
the callbacks and the rest of the process do what they like.  `Tracks` ties the state to
what the reference parser makes of the stream so far.
-/

namespace EasyReactor.Server

open EasyReactor.Foundation EasyReactor.Buffer EasyReactor.Loop EasyReactor.Wire

/-- What happens while a stream arrives. -/
inductive Arrival where
  /-- the descriptor is readable, and `bs` is there to read -/
  | chunk (bs : List UInt8)
  | others (c : PoolCommand)

namespace Arrival

def event : Arrival → ConnEvent
  | chunk bs => .readable (.chunk bs)
  | others c => .others c

/-- The chunk of an arrival, if it is one. -/
def bytes? : Arrival → Option (List UInt8)
  | chunk bs => some bs
  | others _ => none

/-- The chunks of a run, in order. -/
def chunks (arrivals : List Arrival) : List (List UInt8) := arrivals.filterMap bytes?

/-- The stream that arrives. -/
def received (arrivals : List Arrival) : List UInt8 := (chunks arrivals).flatten

@[simp] theorem chunks_append (as bs : List Arrival) :
    chunks (as ++ bs) = chunks as ++ chunks bs :=
  List.filterMap_append

@[simp] theorem received_append (as bs : List Arrival) :
    received (as ++ bs) = received as ++ received bs := by
  simp [received]

@[simp] theorem chunks_chunk (bs : List UInt8) : chunks [chunk bs] = [bs] := rfl

@[simp] theorem chunks_others (c : PoolCommand) : chunks [others c] = [] := rfl

@[simp] theorem received_chunk (bs : List UInt8) : received [chunk bs] = bs := by
  simp [received]

@[simp] theorem received_others (c : PoolCommand) : received [others c] = [] := rfl

end Arrival

/-! ## The start of a connection -/

/-- Everything of `run` before the first event. -/
def ConnState.start (srv : TcpServer) (raw : BufId → Nat → UInt8) (before : List PoolCommand)
    (connfd loop : Nat) : Except Fault ConnState := do
  let s ← before.foldlM poolCommand (boot raw)
  s.init srv connfd loop

theorem run_eq (srv : TcpServer) (raw : BufId → Nat → UInt8) (before : List PoolCommand)
    (connfd loop : Nat) (events : List ConnEvent) :
    ConnState.run srv raw before connfd loop events =
      ConnState.start srv raw before connfd loop >>= events.foldlM (ConnState.step srv) := by
  unfold ConnState.run ConnState.start
  rw [bind_assoc]

/-- A process in which no connection was made yet. -/
structure Unconnected (s : ConnState) : Prop where
  inv : PoolInv s.pool s.others
  conn : s.conn = .new
  evs : s.evs = .empty ConnIo
  dispatched : s.dispatched = []
  accepted : s.accepted = []
  sent : s.sent = []

theorem before_ends (raw : BufId → Nat → UInt8) (before : List PoolCommand) :
    Ends (before.foldlM ConnState.poolCommand (.boot raw))
      (fun s => Unconnected s ∧ (before = [] → s.others = []))
      (fun e => e = .exit ∧ before ≠ []) := by
  apply Ends.foldlM (P := fun done s => Unconnected s ∧ (done = [] → s.others = []))
  · rintro done c post s hts ⟨h, -⟩
    have hinv : PoolInv s.pool ([] ++ s.others) := h.inv
    apply (poolCommand_ends hinv c).imp
    · rintro _ ⟨q, os, rfl, hq, -⟩
      exact ⟨⟨hq, h.conn, h.evs, h.dispatched, h.accepted, h.sent⟩, fun hnil => by simp at hnil⟩
    · intro e he
      exact ⟨he, by simp [hts]⟩
  · exact ⟨⟨init_inv raw, rfl, rfl, rfl, rfl, rfl⟩, fun _ => rfl⟩

/-- `init` registers the descriptor for reading. -/
theorem init_ends {srv : TcpServer} {s : ConnState} (h : Unconnected s) (connfd loop : Nat) :
    Ends (s.init srv connfd loop)
      (fun s' => Live s' 0 [] ∧ s'.dispatched = [] ∧
        (srv.connBuildCb = none → s'.conn.obuf = none ∧ s'.others = s.others ∧ s'.sent = []))
      (fun e => (∃ g, e = .callback g) ∧ srv.connBuildCb ≠ none) := by
  unfold ConnState.init
  have hinv := h.inv
  have hattached :
      Attached { s with conn := { s.conn with connfd := connfd, loop := some loop } } := by
    refine ⟨?_, by simp, Int.natCast_nonneg _, ?_⟩
    · rw [h.conn]
      exact hinv
    · change s.evs.mask (-1) = 0
      rw [h.evs]
      rfl
  apply ((callIf_ends hattached srv.connBuildCb).imp (fun _ hs => hs) (fun _ he => he)).bind
  rintro s' ⟨h', hu, hnone⟩
  have hibuf : s'.conn.ibuf = none := by
    rw [hu.ibuf]
    change s.conn.ibuf = none
    rw [h.conn]
    rfl
  have hfd := h'.fd
  refine ⟨⟨⟨h'.inv, h'.loop, hfd, ?_⟩, ?_, ?_⟩, hu.dispatched.trans h.dispatched, ?_⟩
  · change (s'.evs.addIoev s'.conn.connfd .tcpRcb epollIn none).mask (-1) = 0
    rw [EventLoop.mask_addIoev, if_neg]
    · exact h'.unwatched
    · intro he
      rw [← he] at hfd
      exact absurd hfd (by decide)
  · change Holds s'.pool s'.conn.ibuf 0 []
    rw [hibuf]
    rfl
  · exact EventLoop.watches_addIoev_self (by decide)
  · intro hcb
    have heq := hnone hcb
    subst heq
    refine ⟨?_, rfl, h.sent⟩
    change s.conn.obuf = none
    rw [h.conn]
    rfl

/-- A connection starts with nothing read, after whatever the process did before. -/
theorem start_ends (srv : TcpServer) (raw : BufId → Nat → UInt8) (before : List PoolCommand)
    (connfd loop : Nat) :
    Ends (ConnState.start srv raw before connfd loop)
      (fun s => Live s 0 [] ∧ s.dispatched = [] ∧
        (srv.connBuildCb = none → s.conn.obuf = none ∧ s.sent = [] ∧
          (before = [] → s.others = [])))
      (fun e => e = .exit ∧ before ≠ [] ∨ (∃ g, e = .callback g) ∧ srv.connBuildCb ≠ none) := by
  unfold ConnState.start
  apply ((before_ends raw before).imp (fun _ hs => hs) (fun _ he => .inl he)).bind
  rintro s ⟨h, hos⟩
  apply (init_ends h connfd loop).imp
  · rintro s' ⟨hlive, hd, hnone⟩
    refine ⟨hlive, hd, fun hcb => ?_⟩
    obtain ⟨hobuf, hothers, hsent⟩ := hnone hcb
    exact ⟨hobuf, hsent, fun hb => hothers.trans (hos hb)⟩
  · exact fun e he => .inr he

/-! ## One arrival -/

/-- The state after `S` arrived: the parser's messages were dispatched, and the rest is in
`ibuf` or the connection is cleaned. -/
structure Tracks (srv : TcpServer) (S : List UInt8) (s : ConnState) : Prop where
  dispatched : s.dispatched = (refDecode srv.dispatcher.exist S).msgs
  state : match (refDecode srv.dispatcher.exist S).rest with
    | some r => Live s 0 r
    | none => Cleaned s

section Steps

variable {srv : TcpServer} {s : ConnState} {S r : List UInt8}

theorem Tracks.live (h : Tracks srv S s) (hr : (refDecode srv.dispatcher.exist S).rest = some r) :
    Live s 0 r := by
  have := h.state
  rwa [hr] at this

theorem Tracks.cleaned (h : Tracks srv S s)
    (hr : (refDecode srv.dispatcher.exist S).rest = none) : Cleaned s := by
  have := h.state
  rwa [hr] at this

/-- A cleaned connection is not called any more. -/
theorem step_cleaned (h : Cleaned s) (recv : Recv) : s.step srv (.readable recv) = .ok s := by
  unfold ConnState.step
  simp only
  rw [if_neg]
  · rfl
  · rw [h.connfd]
    unfold EventLoop.Watches
    rw [h.unwatched]
    simp

/-- The rest of the process cannot tell one connection from another. -/
theorem step_others_live (h : Live s 0 r) (c : PoolCommand) :
    Ends (s.step srv (.others c)) (fun s' => Live s' 0 r ∧ s'.dispatched = s.dispatched)
      (fun e => e = .exit) := by
  apply (poolCommand_undisturbed h.attached c).imp
  · rintro s' ⟨ha, hu⟩
    exact ⟨h.undisturbed ha hu, hu.dispatched⟩
  · exact fun e he => he

theorem step_others_cleaned (h : Cleaned s) (c : PoolCommand) :
    Ends (s.step srv (.others c)) (fun s' => Cleaned s' ∧ s'.dispatched = s.dispatched)
      (fun e => e = .exit) := by
  have hinv : PoolInv s.pool ([] ++ s.others) := h.inv
  apply (poolCommand_ends hinv c).imp
  · rintro _ ⟨p, os, rfl, hp, -⟩
    exact ⟨⟨hp, h.connfd, h.loop, h.ibuf, h.obuf, h.unwatched⟩, rfl⟩
  · exact fun e he => he

/-- An open connection is called when a chunk arrives. -/
theorem step_chunk_live (h : Live s 0 r) (bs : List UInt8) :
    s.step srv (.readable (.chunk bs)) = s.handleRead srv (.chunk bs) := by
  unfold ConnState.step
  simp only
  rw [if_pos h.reading]

/-- A chunk that went through the parser extends the stream. -/
theorem Tracks.parsed {s' : ConnState} {bs : List UInt8} (h : Tracks srv S s)
    (hr : (refDecode srv.dispatcher.exist S).rest = some r)
    (hf : Follows srv s (refDecode srv.dispatcher.exist (r ++ bs)) s')
    (hlive : ∀ r', (refDecode srv.dispatcher.exist (r ++ bs)).rest = some r' → Live s' 0 r') :
    Tracks srv (S ++ bs) s' := by
  have happ := refDecode_append hr bs
  refine ⟨?_, ?_⟩
  · rw [hf.dispatched, h.dispatched, happ]
    rfl
  · rw [happ]
    have hstate := hf.state
    change match (refDecode srv.dispatcher.exist (r ++ bs)).rest with
      | some r => Live s' 0 r
      | none => Cleaned s'
    cases hrest : (refDecode srv.dispatcher.exist (r ++ bs)).rest with
    | none =>
      rw [hrest] at hstate
      exact hstate
    | some r' => exact hlive r' hrest

/-- A frame without a body at the end of what is held ends the stream too. -/
theorem endsEmpty_stream {bs : List UInt8} (registered : Int32 → Bool)
    (hr : (refDecode registered S).rest = some r) (hbs : bs ≠ []) :
    EndsEmpty (refDecode registered (S ++ bs)) ↔ EndsEmpty (refDecode registered (r ++ bs)) := by
  rw [refDecode_append hr bs]
  refine ⟨?_, fun h => h.after _⟩
  intro h
  apply endsEmpty_after _ h
  intro hnil
  -- without a message of its own the chunk would still be there
  have hidle : refDecode registered (r ++ bs) = ⟨[], some []⟩ := by
    have hrest : (refDecode registered (r ++ bs)).rest = some [] := h.1
    cases hd : refDecode registered (r ++ bs) with
    | mk msgs rest =>
      rw [hd] at hnil hrest
      simp only at hnil hrest
      rw [hnil, hrest]
  have := Decoder.decode_idle hidle
  exact hbs (List.append_eq_nil_iff.mp this.symm).2

/-- One chunk on an open connection. -/
theorem Tracks.step_chunk (h : Tracks srv S s)
    (hr : (refDecode srv.dispatcher.exist S).rest = some r) (bs : List UInt8) :
    Ends (s.step srv (.readable (.chunk bs)))
      (fun s' =>
        bs ≠ [] ∧ r.length + bs.length ≤ 8388608 ∧ Tracks srv (S ++ bs) s' ∧
            ¬ EndsEmpty (refDecode srv.dispatcher.exist (S ++ bs)) ∧
            (Silent srv s → Silent srv s') ∨
          (bs = [] ∨ 8388608 < r.length + bs.length) ∧ Cleaned s' ∧
            s'.dispatched = s.dispatched)
      (ReadFault srv s r bs) := by
  have hlive := h.live hr
  rw [step_chunk_live hlive]
  apply (handleRead_ends hlive bs).imp _ (fun _ he => he)
  intro s' hread
  cases hread with
  | parsed hne hfits follows live =>
    refine .inl ⟨hne, hfits, h.parsed hr follows live, ?_, follows.silent⟩
    rw [endsEmpty_stream _ hr hne]
    exact follows.not_empty
  | dropped hdrop cleaned dispatched => exact .inr ⟨hdrop, cleaned, dispatched⟩

/-- The rest of the process changes nothing about the stream. -/
theorem Tracks.step_others (h : Tracks srv S s) (c : PoolCommand) :
    Ends (s.step srv (.others c)) (Tracks srv S) (fun e => e = .exit) := by
  cases hr : (refDecode srv.dispatcher.exist S).rest with
  | some r =>
    apply (step_others_live (h.live hr) c).imp
    · rintro s' ⟨hlive, hd⟩
      exact ⟨hd.trans h.dispatched, by rwa [hr]⟩
    · exact fun e he => he
  | none =>
    apply (step_others_cleaned (h.cleaned hr) c).imp
    · rintro s' ⟨hc, hd⟩
      exact ⟨hd.trans h.dispatched, by rwa [hr]⟩
    · exact fun e he => he

/-- A chunk of a stream that was given up is not read. -/
theorem Tracks.step_stuck (h : Tracks srv S s)
    (hr : (refDecode srv.dispatcher.exist S).rest = none) (bs : List UInt8) :
    Ends (s.step srv (.readable (.chunk bs))) (Tracks srv (S ++ bs)) (fun _ => False) := by
  rw [step_cleaned (h.cleaned hr)]
  refine ⟨?_, ?_⟩
  · rw [refDecode_stuck hr]
    exact h.dispatched
  · rw [refDecode_stuck hr]
    exact h.state

end Steps

/-! ## Decoding does not depend on the chunks -/

section

variable {srv : TcpServer} {s : ConnState}

/-- A connection starts with the empty stream. -/
theorem Live.tracks (h : Live s 0 []) (hd : s.dispatched = []) : Tracks srv [] s := by
  refine ⟨?_, ?_⟩
  · rw [refDecode_nil]
    exact hd
  · rw [refDecode_nil]
    exact h

/-- What is left of a stream and a chunk fit the largest buffer. -/
theorem Tracks.step_arrival {done : List Arrival} (h : Tracks srv (Arrival.received done) s)
    (a : Arrival)
    (hchunk : ∀ bs ∈ Arrival.chunks [a], bs ≠ [] ∧ bs.length ≤ 8388608 - 65536)
    (hbodies : ∀ m ∈ (refDecode srv.dispatcher.exist (Arrival.received (done ++ [a]))).msgs,
      m.body ≠ []) :
    Ends (s.step srv a.event) (Tracks srv (Arrival.received (done ++ [a])))
      (fun e => e = .exit ∨ ∃ g, e = .callback g) := by
  cases a with
  | others c =>
    rw [Arrival.received_append, Arrival.received_others, List.append_nil]
    exact (h.step_others c).imp (fun _ hs => hs) (fun _ he => .inl he)
  | chunk bs =>
    rw [Arrival.received_append, Arrival.received_chunk] at hbodies ⊢
    obtain ⟨hne, hsmall⟩ := hchunk bs (by simp)
    cases hr : (refDecode srv.dispatcher.exist (Arrival.received done)).rest with
    | none => exact (h.step_stuck hr bs).imp (fun _ hs => hs) (fun _ he => he.elim)
    | some r =>
      have hrlen : r.length < 65536 := parse_wait_length (Decoder.decode_rest hr).1
      apply (h.step_chunk hr bs).imp
      · rintro s' (⟨-, -, htracks, -⟩ | ⟨hdrop, -⟩)
        · exact htracks
        · cases hdrop with
          | inl hnil => exact absurd hnil hne
          | inr hbig => omega
      · intro e he
        cases he with
        | early he => exact he.1
        | overflow he hover => omega
        | empty he hne hfits hend =>
          rw [← endsEmpty_stream _ hr hne] at hend
          obtain ⟨m, hm, hnil⟩ := hend.mem
          exact absurd hnil (hbodies m hm)

end

/-- Every way to cut a stream gives the same result: what is dispatched, whether the
connection is closed, and what is left in `ibuf` are what the reference parser makes of
the whole stream. -/
theorem decoding_chunk_independent (srv : TcpServer) (raw : BufId → Nat → UInt8)
    (before : List PoolCommand) (connfd loop : Nat) (arrivals : List Arrival)
    (hchunks : ∀ bs ∈ Arrival.chunks arrivals, bs ≠ [] ∧ bs.length ≤ 8388608 - 65536)
    (hbodies : ∀ m ∈ (refDecode srv.dispatcher.exist (Arrival.received arrivals)).msgs,
      m.body ≠ []) :
    Ends (ConnState.run srv raw before connfd loop (arrivals.map Arrival.event))
      (fun s =>
        s.dispatched = (refDecode srv.dispatcher.exist (Arrival.received arrivals)).msgs ∧
        (s.conn.connfd = -1 ↔
          (refDecode srv.dispatcher.exist (Arrival.received arrivals)).rest = none) ∧
        ∀ r, (refDecode srv.dispatcher.exist (Arrival.received arrivals)).rest = some r →
          Holds s.pool s.conn.ibuf 0 r)
      (fun e => e = .exit ∨ ∃ g, e = .callback g) := by
  have hrun : ∀ s₀, Tracks srv [] s₀ →
      Ends (arrivals.foldlM (fun s a => s.step srv (Arrival.event a)) s₀)
        (Tracks srv (Arrival.received arrivals)) (fun e => e = .exit ∨ ∃ g, e = .callback g) := by
    intro s₀ h₀
    apply Ends.foldlM (P := fun done s => Tracks srv (Arrival.received done) s) _ h₀
    intro done a post s hsplit h
    have hall : arrivals = done ++ [a] ++ post := by
      rw [hsplit, List.append_assoc]
      rfl
    apply h.step_arrival a
    · intro bs hbs
      apply hchunks
      rw [hall, Arrival.chunks_append, Arrival.chunks_append]
      exact List.mem_append_left _ (List.mem_append_right _ hbs)
    · intro m hm
      apply hbodies
      rw [hall, Arrival.received_append]
      exact (Decoder.decode_msgs_prefix _ _).subset hm
  rw [run_eq]
  apply ((start_ends srv raw before connfd loop).imp (fun _ hs => hs) _).bind
  · rintro s₀ ⟨h₀, hd₀, -⟩
    rw [List.foldlM_map]
    apply (hrun s₀ (h₀.tracks hd₀)).imp _ (fun _ he => he)
    intro s h
    refine ⟨h.dispatched, ?_, fun r hr => (h.live hr).held⟩
    cases hr : (refDecode srv.dispatcher.exist (Arrival.received arrivals)).rest with
    | none => simp [(h.cleaned hr).connfd]
    | some r =>
      have hfd := (h.live hr).attached.fd
      simp only [reduceCtorEq, iff_false]
      omega
  · rintro e (⟨he, -⟩ | ⟨he, -⟩)
    · exact .inl he
    · exact .inr he

/-- A frame cut in the middle of its header. -/
theorem decoding_chunk_independent_cut :
    Ends (ConnState.run (quietServer [1]) (fun _ _ => 0) [] 7 1
        ([Arrival.chunk [1, 0, 0, 0, 1], .chunk [0, 0, 0, 9]].map Arrival.event))
      (fun s =>
        s.dispatched = (refDecode (quietServer [1]).dispatcher.exist
          (Arrival.received [.chunk [1, 0, 0, 0, 1], .chunk [0, 0, 0, 9]])).msgs ∧
        (s.conn.connfd = -1 ↔ (refDecode (quietServer [1]).dispatcher.exist
          (Arrival.received [.chunk [1, 0, 0, 0, 1], .chunk [0, 0, 0, 9]])).rest = none) ∧
        ∀ r, (refDecode (quietServer [1]).dispatcher.exist
          (Arrival.received [.chunk [1, 0, 0, 0, 1], .chunk [0, 0, 0, 9]])).rest = some r →
            Holds s.pool s.conn.ibuf 0 r)
      (fun e => e = .exit ∨ ∃ g, e = .callback g) := by
  refine decoding_chunk_independent (quietServer [1]) (fun _ _ => 0) [] 7 1
    [.chunk [1, 0, 0, 0, 1], .chunk [0, 0, 0, 9]] ?_ ?_
  · intro bs hbs
    change bs ∈ [[1, 0, 0, 0, 1], [0, 0, 0, 9]] at hbs
    rcases List.mem_pair.mp hbs with rfl | rfl
    · simp
    · simp
  · have hframe : refDecode (quietServer [1]).dispatcher.exist ((Msg.mk 1 [9]).frame ++ []) = _ :=
      refDecode_frame ⟨by decide, by decide⟩ []
    rw [refDecode_nil] at hframe
    change ∀ m ∈ (refDecode (quietServer [1]).dispatcher.exist
      ((Msg.mk 1 [9]).frame ++ [])).msgs, m.body ≠ []
    rw [hframe]
    simp

end EasyReactor.Server
