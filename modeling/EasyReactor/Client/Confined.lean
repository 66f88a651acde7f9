import EasyReactor.Client.Input
import EasyReactor.Client.Runs
import EasyReactor.Client.Writing
import EasyReactor.Foundation.Decoder

set_option autoImplicit false

/-!
# Client: the input of each socket

`ibuf` outlives the socket it was filled from.  `replay` is what `handle_read` dispatches
when it only sees what was read from one socket, and `Confined` says that this is what it
did dispatch.  It is kept as long as a socket is only given up when `ibuf` is empty, and
no message is dispatched before its body is there.
-/

namespace EasyReactor.Client

open EasyReactor.Foundation EasyReactor.Buffer EasyReactor.Loop EasyReactor.Wire

/-! ## What was read, alone -/

/-- One `handle_read` on the messages dispatched so far and the bytes left. -/
def takeRead (registered : Int32 → Bool) (seen : List Msg × List UInt8) (bs : List UInt8) :
    List Msg × List UInt8 :=
  match turn registered (seen.2 ++ bs) with
  | .whole m => (seen.1 ++ [m], [])
  | _ => (seen.1, seen.2 ++ bs)

/-- The messages in the reads of one socket, and the bytes left. -/
def replay (registered : Int32 → Bool) (reads : List (List UInt8)) : List Msg × List UInt8 :=
  reads.foldl (takeRead registered) ([], [])

theorem replay_concat (registered : Int32 → Bool) (reads : List (List UInt8)) (bs : List UInt8) :
    replay registered (reads ++ [bs]) = takeRead registered (replay registered reads) bs := by
  simp [replay]

/-- The verdict on the bytes at the front of a stream that no buffer cuts. -/
def streamParse (registered : Int32 → Bool) (bs : List UInt8) : Verdict Msg :=
  if bs.length < commuHeadLength then
    .wait
  else
    let head := CommuHead.ofBytes bs
    if head.length.toInt < 0 ∨ bs.length < commuHeadLength + head.length.toInt then
      .wait
    else if registered head.cmdid then
      .emit ⟨head.cmdid, (bs.drop commuHeadLength).take head.length.toInt.toNat⟩
        (commuHeadLength + head.length.toInt.toNat)
    else
      .reject

section

variable {registered : Int32 → Bool} {bs : List UInt8} {m : Msg} {n : Nat}

theorem streamParse_size (h : streamParse registered bs = .emit m n) : 0 < n ∧ n ≤ bs.length := by
  have hhead := commuHeadLength_eq
  unfold streamParse at h
  split at h
  · cases h
  next hlen =>
    simp only at h
    split at h
    · cases h
    next hbody =>
      split at h
      next =>
        obtain ⟨-, rfl⟩ := Verdict.emit.inj h
        exact ⟨by omega, by omega⟩
      next => cases h

/-- More bytes do not change a verdict other than to wait. -/
theorem streamParse_stable (t : List UInt8) (h : streamParse registered bs ≠ .wait) :
    streamParse registered (bs ++ t) = streamParse registered bs := by
  unfold streamParse at h ⊢
  split at h
  · exact absurd rfl h
  next hlen =>
    simp only at h
    split at h
    · exact absurd rfl h
    next hbody =>
      rw [List.length_append, if_neg (by omega), if_neg hlen, CommuHead.ofBytes_append (by omega)]
      simp only
      rw [if_neg (by omega), if_neg hbody, List.drop_append_of_le_length (by omega),
        List.take_append_of_le_length (by rw [List.length_drop]; omega)]

end

/-- What a client is to make of a byte stream. -/
def streamDecoder (registered : Int32 → Bool) : Decoder UInt8 Msg where
  next := streamParse registered
  emit_size {_ _ _} h := streamParse_size h
  emit_stable t h := by rw [streamParse_stable t (by simp [h]), h]
  reject_stable t h := by rw [streamParse_stable t (by simp [h]), h]

/-- No read left a whole frame behind. -/
def Tidy (registered : Int32 → Bool) (reads : List (List UInt8)) : Prop :=
  ∀ n, streamParse registered (replay registered (reads.take n)).2 = .wait

section

variable {registered : Int32 → Bool}

theorem Tidy.init {reads : List (List UInt8)} {bs : List UInt8}
    (h : Tidy registered (reads ++ [bs])) :
    Tidy registered reads := by
  intro n
  by_cases hn : n ≤ reads.length
  · have := h n
    rwa [List.take_append_of_le_length hn] at this
  · have := h reads.length
    rw [List.take_append_of_le_length (Nat.le_refl _), List.take_length] at this
    rwa [List.take_of_length_le (by omega)]

/-- A frame that is all there is the one message of the bytes. -/
theorem decode_whole {bs : List UInt8} {m : Msg} (h : turn registered bs = .whole m) :
    (streamDecoder registered).decode bs = ⟨[m], some []⟩ := by
  have hhead := commuHeadLength_eq
  cases turn_eq h with
  | whole headed known length =>
    have hlen := headed.header
    have hparse : (streamDecoder registered).next bs =
        .emit ⟨(CommuHead.ofBytes bs).cmdid, bs.drop commuHeadLength⟩ bs.length := by
      change streamParse registered bs = _
      unfold streamParse
      rw [if_neg (by omega)]
      simp only
      rw [if_neg (by omega), if_pos known,
        List.take_of_length_le (by rw [List.length_drop]; omega)]
      congr 1
      omega
    rw [Decoder.decode_emit hparse, List.drop_length, Decoder.decode_wait rfl]
    rfl

/-- Where no read leaves a whole frame behind, only the stream matters. -/
theorem decode_of_tidy {reads : List (List UInt8)} (h : Tidy registered reads) :
    (streamDecoder registered).decode reads.flatten =
      ⟨(replay registered reads).1, some (replay registered reads).2⟩ := by
  induction reads using List.reverseRecOn with
  | nil => exact Decoder.decode_wait rfl
  | append_singleton reads bs ih =>
    have hd := ih h.init
    have hlast : streamParse registered (replay registered (reads ++ [bs])).2 = .wait := by
      have := h (reads ++ [bs]).length
      rwa [List.take_length] at this
    rw [List.flatten_append, List.flatten_singleton, Decoder.decode_append (by rw [hd]), hd]
    rw [replay_concat] at hlast ⊢
    unfold takeRead at hlast ⊢
    cases hturn : turn registered ((replay registered reads).2 ++ bs) with
    | whole m =>
      rw [decode_whole hturn]
      rfl
    | _ =>
      rw [hturn] at hlast
      rw [Decoder.decode_wait hlast]
      simp [Decoded.after]

end

/-! ## What the client dispatched -/

/-- The bytes `ibuf` holds. -/
def heldBytes (s : ClientState) : List UInt8 :=
  slice s.ibuf.data s.ibuf.head.toNat s.ibuf.length.toNat

/-- If `handle_read` gives the connection up, `ibuf` is empty and stays so; and no message is
dispatched before its body is there. -/
def ReadsClean (cli : TcpClient) (s : ClientState) (r : Recv) : Prop :=
  match r.fionread, r.read with
  | none, _ => True
  | some _, .bytes bs =>
    if bs = [] then s.ibuf.length = 0
    else turn cli.dispatcher.exist (heldBytes s ++ bs) ≠ .unknown ∧
      turn cli.dispatcher.exist (heldBytes s ++ bs) ≠ .short
  | some _, .eagain => True
  | some _, .error => s.ibuf.length = 0

instance (cli : TcpClient) (s : ClientState) : ∀ r : Recv, Decidable (ReadsClean cli s r)
  | ⟨none, _⟩ => inferInstanceAs (Decidable True)
  | ⟨some _, .bytes _⟩ => inferInstanceAs (Decidable (ite _ _ _))
  | ⟨some _, .eagain⟩ => inferInstanceAs (Decidable True)
  | ⟨some _, .error⟩ => inferInstanceAs (Decidable (_ = _))

/-- If the event ends the connection, `ibuf` is empty, and no message is dispatched before
its body is there. -/
def Contained (cli : TcpClient) (s : ClientState) : ClientEvent → Prop :=
  IoMeets (ReadsClean cli s)
    (fun ws => (errorLeft s.obuf.length.toNat ws).isSome → s.ibuf.length = 0) s

instance (cli : TcpClient) (s : ClientState) (e : ClientEvent) : Decidable (Contained cli s e) :=
  inferInstanceAs (Decidable (IoMeets _ _ s e))

/-- Every socket dispatched the messages in its own reads, and `ibuf` holds what is left of
those of the socket in use. -/
structure Confined (cli : TcpClient) (s : ClientState) : Prop where
  pending : ∃ pending, Pending s pending
  past : ∀ x ∈ s.past, x.dispatched = (replay cli.dispatcher.exist x.reads).1
  dispatched : s.session.dispatched = (replay cli.dispatcher.exist s.session.reads).1
  held : Window s.ibuf 0 (replay cli.dispatcher.exist s.session.reads).2

section

variable {cli : TcpClient} {s s' : ClientState}

/-- A window is what `heldBytes` sees. -/
theorem heldBytes_eq {held : List UInt8} (w : Window s.ibuf 0 held) : heldBytes s = held := by
  unfold heldBytes
  rw [w.head, w.length, Int.toNat_natCast]
  exact w.bytes

theorem Confined.called (h : Confined cli s) (hc : Called s s') : Confined cli s' := by
  obtain ⟨pending, w⟩ := h.pending
  refine ⟨hc.output.window w, ?_, ?_, ?_⟩
  · rw [hc.past]
    exact h.past
  · rw [hc.session]
    exact h.dispatched
  · rw [hc.session, hc.ibuf]
    exact h.held

/-- A new socket starts with an empty `ibuf`. -/
theorem Confined.renewed (h : Confined cli s) (hr : Renewed s s') (w : Window s.ibuf 0 []) :
    Confined cli s' := by
  obtain ⟨pending, wp⟩ := h.pending
  refine ⟨hr.output.window wp, ?_, ?_, ?_⟩
  · intro x hx
    rw [hr.past, List.mem_append, List.mem_singleton] at hx
    cases hx with
    | inl hx => exact h.past x hx
    | inr hx =>
      subst hx
      exact h.dispatched
  · rw [hr.session]
    rfl
  · rw [hr.session, hr.ibuf]
    exact w

/-- One `handle_read` that meets the condition. -/
theorem handleRead_confined (hup : Up s) (hdrained : Drained s) (h : Confined cli s) (r : Recv)
    (c : Connect) (hg : ReadsClean cli s r) :
    Ends (s.handleRead cli r c) (fun s' => Phase s' ∧ Confined cli s') (fun _ => True) := by
  obtain ⟨pending, w⟩ := h.pending
  apply (handleRead_ends hup w h.held r c).imp _ (fun _ _ => trivial)
  intro s' hs
  unfold ReadsClean at hg
  cases hs with
  | ignored => exact ⟨.connected hup hdrained, h⟩
  | @ended s' ibuf fionread read kept renewed =>
    obtain ⟨fion, read'⟩ := r
    have hempty : s.ibuf.length = 0 := by
      cases fion with
      | none => exact absurd rfl fionread
      | some rn =>
        cases read with
        | inl hnil =>
          simp only at hnil
          subst hnil
          simpa using hg
        | inr herr =>
          simp only at herr
          subst herr
          exact hg
    have hnil := h.held.nil_of_length hempty
    rw [hnil] at kept
    have h₁ : Confined cli { s with ibuf := ibuf } := by
      refine ⟨h.pending, h.past, h.dispatched, ?_⟩
      rw [hnil]
      exact kept
    exact ⟨renewed.phase, h₁.renewed renewed kept⟩
  | read bs fionread read nonempty fits after =>
    obtain ⟨fion, read'⟩ := r
    simp only at read fionread
    subst read
    obtain ⟨rn, rfl⟩ := Option.ne_none_iff_exists'.mp fionread
    simp only at hg
    rw [if_neg nonempty, heldBytes_eq h.held] at hg
    -- what `replay` makes of this read
    have hreplay := replay_concat cli.dispatcher.exist s.session.reads bs
    unfold takeRead at hreplay
    cases after with
    | dropped hturn => exact absurd hturn hg.1
    | waits hturn hk =>
      rw [hturn] at hreplay
      refine ⟨.connected hk.up (hk.drained hdrained), hk.output.window w, ?_, ?_, ?_⟩
      · rw [hk.past]
        exact h.past
      · rw [hk.session, hreplay, h.dispatched]
        simp
      · rw [hk.session, hreplay]
        exact hk.held
    | whole hturn hk =>
      rw [hturn] at hreplay
      refine ⟨.connected hk.up (hk.drained hdrained), hk.output.window w, ?_, ?_, ?_⟩
      · rw [hk.past]
        exact h.past
      · rw [hk.session, hreplay, h.dispatched]
      · rw [hk.session, hreplay]
        exact hk.held

/-- One `handle_write` that meets the condition. -/
theorem handleWrite_confined (hup : Up s) (h : Confined cli s) (ws : List WriteResult) (c : Connect)
    (hg : (errorLeft s.obuf.length.toNat ws).isSome → s.ibuf.length = 0) :
    Ends (s.handleWrite cli ws c) (fun s' => Phase s' ∧ Confined cli s') (fun _ => True) := by
  obtain ⟨pending, w⟩ := h.pending
  apply (handleWrite_ends (P := fun t => Confined cli t ∧ t.ibuf = s.ibuf) (Q := Confined cli)
    (E := fun _ => s.ibuf.length = 0) hup ⟨h, rfl⟩ w _ _ _ ws c _).imp (fun _ ht => ht)
    (fun _ _ => trivial)
  · rintro t taken left x ⟨ht, hibuf⟩ _ wx
    exact ⟨⟨⟨left, wx⟩, ht.past, ht.dispatched, ht.held⟩, hibuf⟩
  · rintro t t' pending' ⟨ht, hibuf⟩ _ hempty hr
    have hheld := ht.held
    rw [ht.held.nil_of_length (by rw [hibuf]; exact hempty)] at hheld
    exact ht.renewed hr hheld
  · rintro t evs ⟨ht, -⟩
    exact ⟨ht.pending, ht.past, ht.dispatched, ht.held⟩
  · intro left hleft
    exact hg (Option.isSome_iff_exists.mpr ⟨left, hleft⟩)

theorem confined_keeps (cli : TcpClient) : Keeps cli (Contained cli) (Confined cli) where
  pending h := h.pending
  called h hc := h.called hc
  established h hs := by
    obtain ⟨pending, w⟩ := h.pending
    refine ⟨hs.output.window w, ?_, ?_, ?_⟩
    · rw [hs.past]
      exact h.past
    · rw [hs.session]
      exact h.dispatched
    · rw [hs.session, hs.ibuf]
      exact h.held
  failed h := ⟨h.pending, h.past, h.dispatched, h.held⟩
  retried h hidle hr := by
    have hheld := h.held
    rw [hidle] at hheld
    exact h.renewed hr hheld
  read hup hdrained h hev hg := handleRead_confined hup hdrained h _ _ (hg.read hev)
  write hup h hev hg := handleWrite_confined hup h _ _ (hg.write hev)

theorem new_confined (cli : TcpClient) (rawIn rawOut : Nat → UInt8) :
    Confined cli (.new rawIn rawOut) := by
  refine ⟨⟨[], .of_new (by decide) (by decide) rawOut⟩, ?_, rfl,
    .of_new (by decide) (by decide) rawIn⟩
  intro x hx
  cases hx

/-- **The client's input.**  In every run in which each connection ends with an empty `ibuf`,
and no message is dispatched before its body is there: what a socket dispatched is a
function of its own reads, and of the bytes in them alone where no read left a whole frame
behind; and a new socket finds `ibuf` empty. -/
theorem input_confined (cli : TcpClient) (rawIn rawOut : Nat → UInt8) (c : Connect)
    (events : List ClientEvent) (hg : RunMeets (Contained cli) cli rawIn rawOut c events) :
    Ends (ClientState.run cli rawIn rawOut c events)
      (fun s =>
        (∀ x ∈ s.past ++ [s.session],
          x.dispatched = (replay cli.dispatcher.exist x.reads).1 ∧
            (Tidy cli.dispatcher.exist x.reads → x.dispatched =
              ((streamDecoder cli.dispatcher.exist).decode x.reads.flatten).msgs)) ∧
          (s.session.reads = [] → s.ibuf.length = 0 ∧ s.ibuf.head = 0))
      (fun _ => True) := by
  apply ((confined_keeps cli).run (new_confined cli rawIn rawOut) hg).imp _ (fun _ _ => trivial)
  rintro s ⟨-, h⟩
  have hall : ∀ x ∈ s.past ++ [s.session],
      x.dispatched = (replay cli.dispatcher.exist x.reads).1 := by
    intro x hx
    rw [List.mem_append, List.mem_singleton] at hx
    cases hx with
    | inl hx => exact h.past x hx
    | inr hx =>
      subst hx
      exact h.dispatched
  refine ⟨?_, ?_⟩
  · intro x hx
    refine ⟨hall x hx, fun htidy => ?_⟩
    rw [decode_of_tidy htidy]
    exact hall x hx
  · intro hnone
    have hheld := h.held
    rw [hnone] at hheld
    exact ⟨hheld.length, hheld.head⟩

end

/-- A connection reads `first`, and the peer closes; the next one reads five bytes. -/
def readAcross (first : List ClientEvent) : List ClientEvent :=
  let next : Connect := ⟨some 5, .inProgress⟩
  .io .output noCalls :: first ++
    [.io .input { noCalls with recv := .chunk [], connect := next }, .io .output noCalls,
      .io .input { noCalls with recv := .chunk [1, 0, 0, 0, 1] }]

/-- The first connection ends after a whole frame. -/
theorem input_confined_whole :
    Ends (ClientState.run (quietClient [1]) (fun _ => 0) (fun _ => 0) ⟨some 4, .inProgress⟩
        (readAcross [.io .input { noCalls with recv := .chunk [1, 0, 0, 0, 1, 0, 0, 0, 7] }]))
      (fun s =>
        (∀ x ∈ s.past ++ [s.session],
          x.dispatched = (replay (quietClient [1]).dispatcher.exist x.reads).1 ∧
            (Tidy (quietClient [1]).dispatcher.exist x.reads → x.dispatched =
              ((streamDecoder (quietClient [1]).dispatcher.exist).decode x.reads.flatten).msgs)) ∧
          (s.session.reads = [] → s.ibuf.length = 0 ∧ s.ibuf.head = 0))
      (fun _ => True) :=
  input_confined (quietClient [1]) (fun _ => 0) (fun _ => 0) ⟨some 4, .inProgress⟩
    (readAcross [.io .input { noCalls with recv := .chunk [1, 0, 0, 0, 1, 0, 0, 0, 7] }])
    (by decide +kernel)

/-- Two runs that read the same five bytes on the second socket.  In the first of them the
first socket left half a header behind, and the client dispatches a message. -/
theorem input_leaks :
    ¬ ∀ s t,
      ClientState.run (quietClient [1]) (fun _ => 0) (fun _ => 0) ⟨some 4, .inProgress⟩
          (readAcross [.io .input { noCalls with recv := .chunk [1, 0, 0, 0] }]) = .ok s →
        ClientState.run (quietClient [1]) (fun _ => 0) (fun _ => 0) ⟨some 4, .inProgress⟩
            (readAcross []) = .ok t →
          s.session.reads = t.session.reads → s.session.dispatched = t.session.dispatched := by
  intro h
  have hleak : (ClientState.run (quietClient [1]) (fun _ => 0) (fun _ => 0) ⟨some 4, .inProgress⟩
      (readAcross [.io .input { noCalls with recv := .chunk [1, 0, 0, 0] }])).toOption.map
        (fun s => (s.session.reads, s.session.dispatched)) =
      some ([[1, 0, 0, 0, 1]], [⟨1, [1]⟩]) := by decide +kernel
  have hclean : (ClientState.run (quietClient [1]) (fun _ => 0) (fun _ => 0) ⟨some 4, .inProgress⟩
      (readAcross [])).toOption.map (fun s => (s.session.reads, s.session.dispatched)) =
      some ([[1, 0, 0, 0, 1]], []) := by decide +kernel
  obtain ⟨s, hs, hleak⟩ := ok_of_observed hleak
  obtain ⟨t, ht, hclean⟩ := ok_of_observed hclean
  obtain ⟨hsr, hsd⟩ := Prod.mk.inj hleak
  obtain ⟨htr, htd⟩ := Prod.mk.inj hclean
  have heq := h s t hs ht (hsr.trans htr.symm)
  rw [hsd, htd] at heq
  cases heq

end EasyReactor.Client
