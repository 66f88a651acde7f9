import EasyReactor.Client.Input
import EasyReactor.Client.Runs
import EasyReactor.Client.Writing

set_option autoImplicit false

/-!
# Client: the output of each socket

`obuf` outlives the socket it was filled for.  `Aligned` says that every socket took a
prefix of whole frames.  It is kept as long as a socket is only given up when what is left
in `obuf` starts with a frame.
-/

namespace EasyReactor.Client

open EasyReactor.Foundation EasyReactor.Buffer EasyReactor.Loop EasyReactor.Wire

/-- The last `left` bytes of what was accepted are whole frames. -/
def AtBoundary (s : ClientState) (left : Int) : Prop :=
  ∃ rest ∈ s.accepted.tails, ((frames rest).length : Int) = left

instance (s : ClientState) (left : Int) : Decidable (AtBoundary s left) :=
  inferInstanceAs (Decidable (∃ _ ∈ _, _))

/-- The loop of `handle_read` pops a header with a command id nobody registered. -/
def UnknownHead (cli : TcpClient) (ibuf : IoBuffer) : Prop :=
  let head := CommuHead.ofBytes (slice ibuf.data ibuf.head.toNat commuHeadLength)
  ibuf.length ≥ commuHeadLength ∧
    ¬ wrap (head.length.toInt + commuHeadLength) < ibuf.length ∧
    ¬ cli.dispatcher.exist head.cmdid

instance (cli : TcpClient) (ibuf : IoBuffer) : Decidable (UnknownHead cli ibuf) :=
  inferInstanceAs (Decidable (_ ∧ _ ∧ _))

/-- `handle_read` gives the connection up. -/
def GivesUp (cli : TcpClient) (s : ClientState) (r : Recv) : Prop :=
  match r.fionread, r.read with
  | none, _ => False
  | some _, .bytes bs => bs = [] ∨ UnknownHead cli { s.ibuf with
      length := wrap (s.ibuf.length + bs.length)
      data := store s.ibuf.data s.ibuf.length.toNat bs }
  | some _, .eagain => False
  | some _, .error => True

instance (cli : TcpClient) (s : ClientState) : ∀ r : Recv, Decidable (GivesUp cli s r)
  | ⟨none, _⟩ => inferInstanceAs (Decidable False)
  | ⟨some _, .bytes _⟩ => inferInstanceAs (Decidable (_ ∨ _))
  | ⟨some _, .eagain⟩ => inferInstanceAs (Decidable False)
  | ⟨some _, .error⟩ => inferInstanceAs (Decidable True)

/-- If the event ends the connection, what is left in `obuf` then starts with a frame. -/
def Graceful (cli : TcpClient) (s : ClientState) : ClientEvent → Prop :=
  IoMeets (fun r => GivesUp cli s r → AtBoundary s s.obuf.length)
    (fun ws => ∀ left ∈ errorLeft s.obuf.length.toNat ws, AtBoundary s left) s

instance (cli : TcpClient) (s : ClientState) (e : ClientEvent) : Decidable (Graceful cli s e) :=
  inferInstanceAs (Decidable (IoMeets _ _ s e))

/-- Every socket took a prefix of whole frames that were accepted. -/
structure Aligned (s : ClientState) : Prop where
  past : ∀ x ∈ s.past, ∃ ms, ms <:+: s.accepted ∧ x.sent <+: frames ms
  session : ∃ before mine pending, s.accepted = before ++ mine ∧ Pending s pending ∧
    s.session.sent ++ pending = frames mine

section

variable {cli : TcpClient} {s s' : ClientState}

/-- More was accepted, and nothing written. -/
theorem Aligned.extends (h : Aligned s) (hsent : s'.session.sent = s.session.sent)
    (hpast : s'.past = s.past) (hout : Extends s s') : Aligned s' := by
  obtain ⟨more, hacc, hpend⟩ := hout
  refine ⟨?_, ?_⟩
  · intro x hx
    rw [hpast] at hx
    obtain ⟨ms, hms, hpre⟩ := h.past x hx
    refine ⟨ms, ?_, hpre⟩
    rw [hacc]
    exact hms.trans (List.prefix_append _ _).isInfix
  · obtain ⟨before, mine, pending, hsplit, w, hsum⟩ := h.session
    refine ⟨before, mine ++ more, pending ++ frames more, ?_, hpend _ w, ?_⟩
    · rw [hacc, hsplit, List.append_assoc]
    · rw [hsent, frames_append, ← hsum, List.append_assoc]

/-- What is pending at a boundary is the frames of the last messages of the socket. -/
theorem AtBoundary.split {before mine : List Msg} {sent pending : List UInt8}
    (hb : AtBoundary s pending.length) (hsplit : s.accepted = before ++ mine)
    (hsum : sent ++ pending = frames mine) :
    ∃ front rest, mine = front ++ rest ∧ sent = frames front ∧ pending = frames rest := by
  obtain ⟨rest, hrest, hlen⟩ := hb
  have hlen' : (frames rest).length = pending.length := by exact_mod_cast hlen
  rw [List.mem_tails, hsplit] at hrest
  have hsuffix : rest <:+ mine := by
    cases List.suffix_or_suffix_of_suffix hrest (List.suffix_append before mine) with
    | inl h => exact h
    | inr h =>
      -- no byte is left for what comes before `mine`
      obtain ⟨front, rfl⟩ := h
      have htotal := congrArg List.length hsum
      rw [List.length_append] at htotal
      rw [frames_append, List.length_append] at hlen'
      have hfront : front = [] := eq_nil_of_frames (by omega)
      subst hfront
      exact List.suffix_refl _
  obtain ⟨front, rfl⟩ := hsuffix
  rw [frames_append] at hsum
  obtain ⟨hsent, hpending⟩ := List.append_inj' hsum hlen'.symm
  exact ⟨front, rest, rfl, hsent, hpending⟩

/-- A socket that is given up at the start of a frame. -/
theorem Aligned.renewed (h : Aligned s) (hb : AtBoundary s s.obuf.length) (hr : Renewed s s') :
    Aligned s' := by
  obtain ⟨more, hacc, hpend⟩ := hr.output
  obtain ⟨before, mine, pending, hsplit, w, hsum⟩ := h.session
  rw [w.length] at hb
  obtain ⟨front, rest, rfl, hsent, rfl⟩ := hb.split hsplit hsum
  have hinfix : front <:+: s'.accepted := by
    refine ⟨before, rest ++ more, ?_⟩
    rw [hacc, hsplit]
    simp
  refine ⟨?_, before ++ front, rest ++ more, frames rest ++ frames more, ?_, hpend _ w, ?_⟩
  · intro x hx
    rw [hr.past, List.mem_append, List.mem_singleton] at hx
    cases hx with
    | inl hx =>
      obtain ⟨ms, hms, hpre⟩ := h.past x hx
      refine ⟨ms, ?_, hpre⟩
      rw [hacc]
      exact hms.trans (List.prefix_append _ _).isInfix
    | inr hx =>
      subst hx
      refine ⟨front, hinfix, ?_⟩
      rw [hsent]
  · rw [hacc, hsplit]
    simp
  · rw [hr.session, frames_append]
    rfl

/-- A socket that took nothing yet is at the start of a frame. -/
theorem Aligned.boundary (h : Aligned s) (hidle : s.session.sent = []) :
    AtBoundary s s.obuf.length := by
  obtain ⟨before, mine, pending, hsplit, w, hsum⟩ := h.session
  refine ⟨mine, ?_, ?_⟩
  · rw [List.mem_tails, hsplit]
    exact List.suffix_append _ _
  · rw [w.length, ← hsum, hidle]
    rfl

/-! ## Reading -/

/-- The output of a connection that goes on. -/
structure SameOutput (s s' : ClientState) : Prop where
  sent : s'.session.sent = s.session.sent
  past : s'.past = s.past
  output : Extends s s'
  up : Up s'
  drained : Drained s → Drained s'

theorem Called.sameOutput {t : ClientState} {x y : IoBuffer} {reads : List (List UInt8)}
    {msgs : List Msg}
    (h : Called { s with
      ibuf := x
      session := { s.session with reads := reads, dispatched := msgs } } t) (hup : Up s)
    (hs : s' = { t with ibuf := y }) : SameOutput s s' := by
  subst hs
  have hup' := h.up (hup.congr rfl rfl rfl rfl)
  refine ⟨?_, h.past, h.output, hup'.congr rfl rfl rfl rfl, h.drained⟩
  have hsession := congrArg Session.sent h.session
  exact hsession

/-- The loop of `handle_read`, whatever `ibuf` holds, does not touch the output, unless it
gives the connection up. -/
theorem readLoop_output {pending : List UInt8} (hup : Up s) (w : Pending s pending) (c : Connect)
    {fuel : Nat} (hfuel : s.ibuf.length.toNat < fuel) (hint : s.ibuf.length < 2147483648) :
    Ends (ClientState.readLoop cli c fuel s)
      (fun r => if r.2 then UnknownHead cli s.ibuf ∧ ∃ ibuf, Renewed { s with ibuf := ibuf } r.1
        else ∃ x y msgs t, r.1 = { t with ibuf := y } ∧
          Called { s with ibuf := x, session := { s.session with dispatched := msgs } } t)
      (fun _ => True) := by
  have hhead := commuHeadLength_eq
  have hup' : ∀ x, Up { s with ibuf := x } := fun _ =>
    hup.congr rfl rfl rfl rfl
  have w' : ∀ x, Pending { s with ibuf := x } pending := fun _ => w
  have hsame : ∃ x y msgs t, s = { t with ibuf := y } ∧
      Called { s with ibuf := x, session := { s.session with dispatched := msgs } } t :=
    ⟨s.ibuf, s.ibuf, s.session.dispatched, s, rfl, .refl s⟩
  obtain ⟨k, rfl⟩ := Nat.exists_eq_succ_of_ne_zero (Nat.ne_zero_of_lt hfuel)
  rw [ClientState.readLoop]
  split
  next hlen =>
    apply (Ends.any _).bind_eq (fun _ _ => trivial)
    intro hd hload _
    obtain rfl := IoBuffer.load_eq hload
    simp only [Int.toNat_natCast]
    split
    next hwait => exact hsame
    next hwait =>
      have hle := announced_le _ hwait
      split
      next hunknown =>
        apply ((cleanConn_ends (hup' _) (w' _) c).imp (fun _ hs => hs) (fun _ _ => trivial)).bind
        intro s' hr
        exact ⟨⟨hlen, hwait, hunknown⟩, _, hr⟩
      next hknown =>
        apply ((dispatch_ends (w' _) (by simpa using hknown)).imp (fun _ hs => hs)
          (fun _ _ => trivial)).bind
        rintro t ⟨body, -, hcall⟩
        have hibuf : t.ibuf = s.ibuf.pop commuHeadLength := hcall.ibuf
        have hhi := (CommuHead.ofBytes
          (slice s.ibuf.data s.ibuf.head.toNat commuHeadLength)).length.toInt_lt
        obtain ⟨k', rfl⟩ : ∃ k', k = k' + 1 := Nat.exists_eq_succ_of_ne_zero (by omega)
        rw [readLoop_idle cli c k']
        · exact ⟨_, _, _, t, rfl, hcall⟩
        · -- a body that reaches the end leaves nothing for a second turn
          rw [hibuf]
          change wrap (wrap (s.ibuf.length - commuHeadLength) - _) < _
          rw [wrap_of_range (x := s.ibuf.length - _) (by omega) (by omega),
            wrap_of_range (by omega) (by omega)]
          omega
  next => exact hsame

/-- `handle_read` once it read something. -/
theorem received_output {pending bs : List UInt8} (hup : Up s) (w : Pending s pending)
    (c : Connect) :
    Ends (s.received cli bs c)
      (fun s' => SameOutput s s' ∨
        UnknownHead cli { s.ibuf with length := wrap (s.ibuf.length + bs.length) } ∧
          ∃ ibuf reads, Renewed { s with
            ibuf := ibuf
            session := { s.session with reads := reads } } s')
      (fun _ => True) := by
  have hint := (wrap_bounds (s.ibuf.length + bs.length)).2
  have w' : Pending (s.filled bs) pending := w
  rw [received_eq]
  apply (readLoop_output (hup.filled bs) w' c (Nat.lt_succ_self _) hint).bind
  rintro ⟨t, cleaned⟩ hr
  cases cleaned with
  | true =>
    obtain ⟨hunknown, ibuf, hr⟩ := hr
    exact .inr ⟨hunknown, ibuf, _, hr⟩
  | false =>
    obtain ⟨x, y, msgs, t', ht, hcall⟩ := hr
    apply (Ends.any _).bind
    intro ibuf _
    refine .inl (Called.sameOutput (y := ibuf) hcall hup ?_)
    subst ht
    rfl

/-- A `handle_read` keeps the output aligned, if it does not give the connection up in the
middle of a frame. -/
theorem handleRead_aligned (hup : Up s) (hdrained : Drained s) (h : Aligned s) (r : Recv)
    (c : Connect) (hg : GivesUp cli s r → AtBoundary s s.obuf.length) :
    Ends (s.handleRead cli r c) (fun s' => Phase s' ∧ Aligned s') (fun _ => True) := by
  obtain ⟨before, mine, pending, hsplit, w, hsum⟩ := h.session
  have hrenewed : ∀ {ibuf reads s'}, GivesUp cli s r →
      Renewed { s with ibuf := ibuf, session := { s.session with reads := reads } } s' →
      Phase s' ∧ Aligned s' := by
    intro ibuf reads s' hgives hr
    have ht : Aligned { s with ibuf := ibuf, session := { s.session with reads := reads } } :=
      ⟨h.past, h.session⟩
    exact ⟨hr.phase, ht.renewed (hg hgives) hr⟩
  obtain ⟨fionread, read⟩ := r
  unfold ClientState.handleRead
  split
  · trivial
  · cases fionread with
    | none => exact ⟨.connected hup hdrained, h⟩
    | some rn =>
      simp only
      split
      · cases read with
        | eagain => trivial
        | error =>
          apply (cleanConn_ends hup w c).imp (fun _ hr => hrenewed trivial hr)
            (fun _ _ => trivial)
        | bytes bs =>
          simp only
          apply (Ends.any _).bind_eq (fun _ _ => trivial)
          intro x hx _
          obtain rfl := IoBuffer.save_eq hx
          have hup₁ : Up { s with
              ibuf := { s.ibuf with data := store s.ibuf.data s.ibuf.length.toNat bs } } :=
            hup.congr rfl rfl rfl rfl
          have w₁ : Pending { s with
              ibuf := { s.ibuf with data := store s.ibuf.data s.ibuf.length.toNat bs } } pending :=
            w
          split
          next hnil =>
            apply (cleanConn_ends hup₁ w₁ c).imp (fun _ hr => hrenewed (.inl hnil) hr)
              (fun _ _ => trivial)
          next =>
            split
            · apply (received_output hup₁ w₁ c).imp _ (fun _ _ => trivial)
              rintro s' (hs | ⟨hunknown, ibuf, reads, hr⟩)
              · exact ⟨.connected hs.up (hs.drained hdrained), h.extends hs.sent hs.past hs.output⟩
              · exact hrenewed (.inr hunknown) hr
            · trivial
      · trivial

/-! ## Writing -/

/-- A `write` moves bytes from `obuf` to the socket. -/
theorem Aligned.written (h : Aligned s) {taken left : List UInt8} {x : IoBuffer}
    (w : Pending s (taken ++ left)) (wx : Window x 0 left) :
    Aligned { s with
      obuf := x
      session := { s.session with sent := s.session.sent ++ taken } } := by
  obtain ⟨before, mine, pending, hsplit, w', hsum⟩ := h.session
  obtain rfl := w.unique w'
  refine ⟨h.past, before, mine, left, hsplit, wx, ?_⟩
  rw [← hsum, List.append_assoc]

/-- A `handle_write` keeps the output aligned, if no `write` fails in the middle of a
frame. -/
theorem handleWrite_aligned (hup : Up s) (h : Aligned s) (ws : List WriteResult) (c : Connect)
    (hg : ∀ left ∈ errorLeft s.obuf.length.toNat ws, AtBoundary s left) :
    Ends (s.handleWrite cli ws c) (fun s' => Phase s' ∧ Aligned s') (fun _ => True) := by
  obtain ⟨before, mine, pending, hsplit, w, hsum⟩ := h.session
  -- `write` accepts nothing, so the boundaries stay where they are
  apply (handleWrite_ends (P := fun t => Aligned t ∧ t.accepted = s.accepted) (Q := Aligned)
    (E := fun left => AtBoundary s left) hup ⟨h, rfl⟩ w _ _ _ ws c hg).imp (fun _ ht => ht)
    (fun _ _ => trivial)
  · rintro t taken left x ⟨ht, hacc⟩ wt wx
    exact ⟨ht.written wt wx, hacc⟩
  · rintro t t' pending' ⟨ht, hacc⟩ wt hb hr
    refine ht.renewed ?_ hr
    unfold AtBoundary
    rw [hacc, wt.length]
    exact hb
  · rintro t evs ⟨ht, -⟩
    exact ⟨ht.past, ht.session⟩

/-! ## Runs -/

theorem aligned_keeps (cli : TcpClient) : Keeps cli (Graceful cli) Aligned where
  pending h := by
    obtain ⟨_, _, pending, _, w, _⟩ := h.session
    exact ⟨pending, w⟩
  called h hc := h.extends (congrArg Session.sent hc.session) hc.past hc.output
  established h hs := h.extends (congrArg Session.sent hs.session) hs.past hs.output
  failed h := ⟨h.past, h.session⟩
  retried h hidle hr := h.renewed (h.boundary (congrArg Session.sent hidle)) hr
  read hup hdrained h hev hg := handleRead_aligned hup hdrained h _ _ (hg.read hev)
  write hup h hev hg := handleWrite_aligned hup h _ _ (hg.write hev)

theorem new_aligned (rawIn rawOut : Nat → UInt8) : Aligned (.new rawIn rawOut) := by
  refine ⟨?_, [], [], [], rfl, .of_new (by decide) (by decide) rawOut, rfl⟩
  intro x hx
  cases hx

/-- **The client's output.**  In every run in which each connection ends at the start of a
frame, every socket took a prefix of whole frames that `send_data` accepted, one after the
other. -/
theorem output_frame_aligned (cli : TcpClient) (rawIn rawOut : Nat → UInt8) (c : Connect)
    (events : List ClientEvent) (hg : RunMeets (Graceful cli) cli rawIn rawOut c events) :
    Ends (ClientState.run cli rawIn rawOut c events)
      (fun s => ∀ x ∈ s.past ++ [s.session], ∃ ms, ms <:+: s.accepted ∧ x.sent <+: frames ms)
      (fun _ => True) := by
  apply ((aligned_keeps cli).run (new_aligned rawIn rawOut) hg).imp _ (fun _ _ => trivial)
  rintro s' ⟨-, h⟩ x hx
  rw [List.mem_append, List.mem_singleton] at hx
  cases hx with
  | inl hx => exact h.past x hx
  | inr hx =>
    subst hx
    obtain ⟨before, mine, pending, hsplit, -, hsum⟩ := h.session
    refine ⟨mine, ⟨before, [], ?_⟩, pending, hsum⟩
    rw [List.append_nil, hsplit]

end

/-- The first connection is established, a message is sent, `ws` is what the `write`s of it
return, and the peer closes; then the next connection is established, and writes. -/
def sendAcross (ws : List WriteResult) : List ClientEvent :=
  let next : Connect := ⟨some 5, .inProgress⟩
  [.io .output noCalls, .sendData ⟨1, [7]⟩, .io .output { noCalls with writes := ws },
    .io .input { noCalls with recv := .chunk [], connect := next }, .io .output noCalls,
    .io .output { noCalls with writes := [.wrote 9] }]

/-- The peer closes after the whole frame was written. -/
theorem output_frame_aligned_whole :
    Ends (ClientState.run (quietClient [1]) (fun _ => 0) (fun _ => 0) ⟨some 4, .inProgress⟩
        (sendAcross [.wrote 5, .wrote 4]))
      (fun s => ∀ x ∈ s.past ++ [s.session], ∃ ms, ms <:+: s.accepted ∧ x.sent <+: frames ms)
      (fun _ => True) :=
  output_frame_aligned (quietClient [1]) (fun _ => 0) (fun _ => 0) ⟨some 4, .inProgress⟩
    (sendAcross [.wrote 5, .wrote 4]) (by decide +kernel)

/-- The peer closes after five bytes of the frame; the last four start the next connection. -/
theorem output_starts_mid_frame :
    ¬ Ends (ClientState.run (quietClient [1]) (fun _ => 0) (fun _ => 0) ⟨some 4, .inProgress⟩
        (sendAcross [.wrote 5]))
      (fun s => ∀ x ∈ s.past ++ [s.session], ∃ ms, ms <:+: s.accepted ∧ x.sent <+: frames ms)
      (fun _ => True) := by
  intro h
  have hobs : (ClientState.run (quietClient [1]) (fun _ => 0) (fun _ => 0) ⟨some 4, .inProgress⟩
      (sendAcross [.wrote 5])).toOption.map (fun s => (s.session.sent, s.accepted)) =
        some ([0, 0, 0, 7], [⟨1, [7]⟩]) := by decide +kernel
  obtain ⟨s, hrun, hobs⟩ := ok_of_observed hobs
  obtain ⟨hsent, hacc⟩ := Prod.mk.inj hobs
  obtain ⟨ms, hms, hpre⟩ := h.of_ok hrun s.session (by simp)
  rw [hacc] at hms
  rw [hsent] at hpre
  cases List.sublist_singleton.mp hms.sublist with
  | inl hnil =>
    subst hnil
    exact absurd hpre (by decide)
  | inr hone =>
    subst hone
    exact absurd hpre (by decide)

end EasyReactor.Client
