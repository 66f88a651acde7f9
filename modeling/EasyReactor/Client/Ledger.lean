import EasyReactor.Client.Output

set_option autoImplicit false

/-!
# Client: the output over all sockets

A connection that ends takes nothing off `obuf`, so what the sockets of a client took, one
after the other, and what is pending are always the frames accepted.  Where every
connection ends at the start of a frame, the frames can be told apart by their sockets.
`Outputs` collects what such a property has to be kept by.
-/

namespace EasyReactor.Client

open EasyReactor.Foundation EasyReactor.Buffer EasyReactor.Loop EasyReactor.Wire

/-- If the event ends the connection, `B` holds of the bytes then left in `obuf`. -/
def EndsAt (B : ClientState → Int → Prop) (cli : TcpClient) (s : ClientState) :
    ClientEvent → Prop :=
  IoMeets (fun r => GivesUp cli s r → B s s.obuf.length)
    (fun ws => ∀ left ∈ errorLeft s.obuf.length.toNat ws, B s left) s

/-- Where `B` always holds, every event meets it. -/
theorem endsAt_of_forall {B : ClientState → Int → Prop} (hB : ∀ s left, B s left)
    (cli : TcpClient) (s : ClientState) (e : ClientEvent) : EndsAt B cli s e := by
  cases e with
  | timer c => trivial
  | sendData m => trivial
  | io ready sys =>
    unfold EndsAt IoMeets
    simp only
    cases s.evs.processEv s.sockfd ready with
    | none => trivial
    | some cb =>
      cases cb with
      | readCb => exact fun _ => hB _ _
      | writeCb => exact fun _ _ => hB _ _
      | connectionCb => trivial

/-- What a property `P` of the output has to be kept by, if connections end where `B` holds. -/
structure Outputs (B : ClientState → Int → Prop) (P : ClientState → Prop) : Prop where
  pending : ∀ {s}, P s → ∃ pending, Pending s pending
  /-- more was accepted, and nothing written -/
  extended : ∀ {s s'}, P s → s'.session.sent = s.session.sent → s'.past = s.past →
    Extends s s' → P s'
  /-- a `write` moved bytes from `obuf` to the socket -/
  written : ∀ {s taken left x}, P s → Pending s (taken ++ left) → Window x 0 left →
    P { s with obuf := x, session := { s.session with sent := s.session.sent ++ taken } }
  renewed : ∀ {s s'}, P s → B s s.obuf.length → Renewed s s' → P s'
  /-- a socket that took nothing may be given up -/
  idle : ∀ {s}, P s → s.session.sent = [] → B s s.obuf.length
  /-- `B` is about what was accepted -/
  accepted : ∀ {s s' left}, B s left → s'.accepted = s.accepted → B s' left

section

variable {cli : TcpClient} {s s' : ClientState} {B : ClientState → Int → Prop}
  {P : ClientState → Prop}

/-- A `handle_read` leaves the output alone, or gives the connection up. -/
theorem handleRead_output {pending : List UInt8} (hup : Up s) (w : Pending s pending) (r : Recv)
    (c : Connect) :
    Ends (s.handleRead cli r c)
      (fun s' => SameOutput s s' ∨ GivesUp cli s r ∧
        ∃ ibuf reads, Renewed { s with
          ibuf := ibuf
          session := { s.session with reads := reads } } s')
      (fun _ => True) := by
  obtain ⟨fionread, read⟩ := r
  unfold ClientState.handleRead
  split
  next => trivial
  next =>
    cases fionread with
    | none => exact .inl ⟨rfl, rfl, .refl s, hup, fun hd => hd⟩
    | some rn =>
      simp only
      split
      next =>
        cases read with
        | eagain => trivial
        | error =>
          apply (cleanConn_ends hup w c).imp (fun _ hr => .inr ⟨trivial, s.ibuf, _, hr⟩)
            (fun _ _ => trivial)
        | bytes bs =>
          simp only
          apply (Ends.any _).bind_eq (fun _ _ => trivial)
          intro x hx _
          obtain rfl := IoBuffer.save_eq hx
          -- the bytes are in `ibuf`, and `obuf` is as it was
          have hup₁ : Up { s with
              ibuf := { s.ibuf with data := store s.ibuf.data s.ibuf.length.toNat bs } } :=
            hup.congr rfl rfl rfl rfl
          have w₁ : Pending { s with
              ibuf := { s.ibuf with data := store s.ibuf.data s.ibuf.length.toNat bs } } pending :=
            w
          split
          next hnil =>
            apply (cleanConn_ends hup₁ w₁ c).imp
              (fun _ hr => .inr ⟨.inl hnil, _, _, hr⟩) (fun _ _ => trivial)
          next =>
            split
            next =>
              apply (received_output hup₁ w₁ c).imp _ (fun _ _ => trivial)
              rintro s' (hs | ⟨hunknown, ibuf, reads, hr⟩)
              · exact .inl ⟨hs.sent, hs.past, hs.output, hs.up, hs.drained⟩
              · exact .inr ⟨.inr hunknown, ibuf, reads, hr⟩
            next => trivial
      next => trivial

theorem Extends.of_same (hacc : s'.accepted = s.accepted) (hobuf : s'.obuf = s.obuf) :
    Extends s s' := by
  refine ⟨[], ?_, fun bs w => ?_⟩
  · rw [hacc, List.append_nil]
  · rw [frames_nil, List.append_nil]
    unfold Pending
    rw [hobuf]
    exact w

/-- The rule for properties of the output. -/
theorem Outputs.keeps (o : Outputs B P) : Keeps cli (EndsAt B cli) P where
  pending := o.pending
  called h hc := o.extended h (congrArg Session.sent hc.session) hc.past hc.output
  established h hs := o.extended h (congrArg Session.sent hs.session) hs.past hs.output
  failed h := o.extended h rfl rfl (.of_same rfl rfl)
  retried h hidle hr := o.renewed h (o.idle h (congrArg Session.sent hidle)) hr
  read {s ready sys} hup hdrained h hev hc := by
    obtain ⟨pending, w⟩ := o.pending h
    apply (handleRead_output hup w sys.recv sys.connect).imp _ (fun _ _ => trivial)
    rintro s' (hs | ⟨hgives, ibuf, reads, hr⟩)
    · exact ⟨.connected hs.up (hs.drained hdrained), o.extended h hs.sent hs.past hs.output⟩
    · have h₁ : P { s with ibuf := ibuf, session := { s.session with reads := reads } } :=
        o.extended h rfl rfl (.of_same rfl rfl)
      exact ⟨hr.phase, o.renewed h₁ (o.accepted (hc.read hev hgives) rfl) hr⟩
  write {s ready sys} hup h hev hc := by
    obtain ⟨pending, w⟩ := o.pending h
    -- a `write` accepts nothing, so `B` says the same of the bytes left
    apply (handleWrite_ends (P := fun t => P t ∧ t.accepted = s.accepted) (Q := P)
      (E := fun left => B s left) hup ⟨h, rfl⟩ w _ _ _ sys.writes sys.connect
      (hc.write hev)).imp (fun _ ht => ht) (fun _ _ => trivial)
    · rintro t taken left x ⟨ht, hacc⟩ wt wx
      exact ⟨o.written ht wt wx, hacc⟩
    · rintro t t' pending' ⟨ht, hacc⟩ wt hb hr
      refine o.renewed ht (o.accepted (s := s) ?_ hacc) hr
      rw [wt.length]
      exact hb
    · rintro t evs ⟨ht, -⟩
      exact o.extended ht rfl rfl (.of_same rfl rfl)

/-! ## Every run -/

/-- What the sockets took, one after the other. -/
def ClientState.output (s : ClientState) : List UInt8 :=
  (s.past ++ [s.session]).flatMap Session.sent

/-- What the sockets took, and what is pending, are the frames accepted. -/
def Balanced (s : ClientState) : Prop :=
  ∃ pending, Pending s pending ∧ s.output ++ pending = frames s.accepted

theorem output_eq (s : ClientState) :
    s.output = s.past.flatMap Session.sent ++ s.session.sent := by
  unfold ClientState.output
  rw [List.flatMap_append, List.flatMap_singleton]

theorem Balanced.extended (h : Balanced s) (hpast : s'.past = s.past ∧
    s'.session.sent = s.session.sent ∨ s'.past = s.past ++ [s.session] ∧ s'.session.sent = [])
    (hout : Extends s s') : Balanced s' := by
  obtain ⟨pending, w, hsum⟩ := h
  obtain ⟨more, hacc, hpend⟩ := hout
  have houtput : s'.output = s.output := by
    rw [output_eq, output_eq]
    rcases hpast with ⟨hpast, hsent⟩ | ⟨hpast, hsent⟩
    · rw [hpast, hsent]
    · rw [hpast, hsent, List.flatMap_append, List.flatMap_singleton, List.append_nil]
  refine ⟨pending ++ frames more, hpend _ w, ?_⟩
  rw [houtput, hacc, frames_append, ← hsum, List.append_assoc]

theorem balanced_outputs : Outputs (fun _ _ => True) Balanced where
  pending h := by
    obtain ⟨pending, w, -⟩ := h
    exact ⟨pending, w⟩
  extended h hsent hpast hout := h.extended (.inl ⟨hpast, hsent⟩) hout
  written {s taken left x} h w wx := by
    obtain ⟨pending, w', hsum⟩ := h
    obtain rfl := w.unique w'
    refine ⟨left, wx, ?_⟩
    rw [output_eq, List.append_assoc] at hsum
    rw [output_eq, ← hsum]
    simp
  renewed h _ hr := h.extended (.inr ⟨hr.past, congrArg Session.sent hr.session⟩) hr.output
  idle _ _ := trivial
  accepted _ _ := trivial

theorem run_balanced (cli : TcpClient) (rawIn rawOut : Nat → UInt8) (c : Connect)
    (events : List ClientEvent) :
    Ends (ClientState.run cli rawIn rawOut c events) Balanced (fun _ => True) := by
  have hnew : Balanced (.new rawIn rawOut) :=
    ⟨[], .of_new (by decide) (by decide) rawOut, rfl⟩
  have hmeets : RunMeets (EndsAt (fun _ _ => True) cli) cli rawIn rawOut c events := by
    unfold RunMeets
    split
    next => exact Meets.of_forall (endsAt_of_forall (fun _ _ => trivial) cli) events _
    next => trivial
  exact ((balanced_outputs.keeps).run hnew hmeets).imp (fun _ h => h.2) (fun _ _ => trivial)

/-- **The client's ledger.**  In every run of events, whatever ends the connections and however
often: what the sockets took, one after the other, and then what `obuf` holds, are the frames of
the messages that `send_data` accepted, in order.  So no byte of an accepted message is lost
in the client, and none is written twice. -/
theorem output_conserved (cli : TcpClient) (rawIn rawOut : Nat → UInt8) (c : Connect)
    (events : List ClientEvent) :
    Ends (ClientState.run cli rawIn rawOut c events)
      (fun s => ∃ pending, Pending s pending ∧
        (s.past ++ [s.session]).flatMap Session.sent ++ pending = frames s.accepted)
      (fun _ => True) := by
  exact (run_balanced cli rawIn rawOut c events).imp (fun _ h => h) (fun _ he => he)

/-! ## Socket by socket -/

/-- Each socket that was given up took the frames of its own messages, and the socket in use
has those behind them. -/
def Portioned (s : ClientState) : Prop :=
  ∃ (parts : List (List Msg)) (mine : List Msg) (pending : List UInt8),
    s.accepted = parts.flatten ++ mine ∧
    s.past.map Session.sent = parts.map frames ∧ Pending s pending ∧
    s.session.sent ++ pending = frames mine

theorem Portioned.renewed (h : Portioned s) (hb : AtBoundary s s.obuf.length)
    (hr : Renewed s s') : Portioned s' := by
  obtain ⟨parts, mine, pending, hsplit, hpast, w, hsum⟩ := h
  obtain ⟨more, hacc, hpend⟩ := hr.output
  rw [w.length] at hb
  obtain ⟨front, rest, rfl, hsent, rfl⟩ := hb.split hsplit hsum
  refine ⟨parts ++ [front], rest ++ more, frames rest ++ frames more, ?_, ?_, hpend _ w, ?_⟩
  · rw [hacc, hsplit]
    simp
  · rw [hr.past, List.map_append, hpast, List.map_append, List.map_singleton, hsent,
      List.map_singleton]
  · rw [hr.session, frames_append]
    rfl

theorem portioned_outputs : Outputs AtBoundary Portioned where
  pending h := by
    obtain ⟨_, _, pending, -, -, w, -⟩ := h
    exact ⟨pending, w⟩
  extended h hsent hpast hout := by
    obtain ⟨parts, mine, pending, hsplit, hparts, w, hsum⟩ := h
    obtain ⟨more, hacc, hpend⟩ := hout
    refine ⟨parts, mine ++ more, pending ++ frames more, ?_, ?_, hpend _ w, ?_⟩
    · rw [hacc, hsplit, List.append_assoc]
    · rw [hpast, hparts]
    · rw [hsent, frames_append, ← hsum, List.append_assoc]
  written {s taken left x} h w wx := by
    obtain ⟨parts, mine, pending, hsplit, hparts, w', hsum⟩ := h
    obtain rfl := w.unique w'
    refine ⟨parts, mine, left, hsplit, hparts, wx, ?_⟩
    rw [← hsum, List.append_assoc]
  renewed h hb hr := h.renewed hb hr
  idle {s} h hidle := by
    obtain ⟨parts, mine, pending, hsplit, -, w, hsum⟩ := h
    refine ⟨mine, ?_, ?_⟩
    · rw [List.mem_tails, hsplit]
      exact List.suffix_append _ _
    · rw [w.length, ← hsum, hidle]
      rfl
  accepted h hacc := by
    unfold AtBoundary
    rw [hacc]
    exact h

/-- The `k`-th socket of a client, counted from 1; what comes before it took nothing. -/
def ClientState.socket (s : ClientState) (k : Nat) : Option Session :=
  (s.past ++ [s.session])[k]?

/-- No socket is forgotten, and none takes back what it took. -/
def Grows (s s' : ClientState) : Prop :=
  ∀ k x, s.socket k = some x → ∃ y, s'.socket k = some y ∧ x.sent <+: y.sent

theorem Grows.refl (s : ClientState) : Grows s s := fun _ x hx => ⟨x, hx, List.prefix_rfl⟩

theorem Grows.trans {s'' : ClientState} (h : Grows s s') (h' : Grows s' s'') : Grows s s'' := by
  intro k x hx
  obtain ⟨y, hy, hxy⟩ := h k x hx
  obtain ⟨z, hz, hyz⟩ := h' k y hy
  exact ⟨z, hz, hxy.trans hyz⟩

/-- The socket in use takes more. -/
theorem Grows.of_session (hpast : s'.past = s.past)
    (hsent : s.session.sent <+: s'.session.sent) : Grows s s' := by
  intro k x hx
  unfold ClientState.socket at hx ⊢
  rw [hpast]
  rcases Nat.lt_trichotomy k s.past.length with hlt | rfl | hgt
  · rw [List.getElem?_append_left hlt] at hx ⊢
    exact ⟨x, hx, List.prefix_rfl⟩
  · rw [List.getElem?_concat_length] at hx ⊢
    obtain rfl := Option.some.inj hx
    exact ⟨_, rfl, hsent⟩
  · have hout : (s.past ++ [s.session]).length ≤ k := by
      rw [List.length_append, List.length_singleton]
      exact hgt
    rw [List.getElem?_eq_none hout] at hx
    cases hx

/-- A new socket comes behind the others. -/
theorem Grows.of_renewed (hr : Renewed s s') : Grows s s' := by
  intro k x hx
  refine ⟨x, ?_, List.prefix_rfl⟩
  unfold ClientState.socket at hx ⊢
  rw [hr.past, List.getElem?_append_left]
  · exact hx
  · exact (List.getElem?_eq_some_iff.mp hx).1

theorem grows_outputs (t : ClientState) :
    Outputs (fun _ _ => True) (fun s => (∃ pending, Pending s pending) ∧ Grows t s) where
  pending h := h.1
  extended h hsent hpast hout := by
    obtain ⟨⟨pending, w⟩, hgrows⟩ := h
    refine ⟨hout.window w, hgrows.trans (.of_session hpast ?_)⟩
    rw [hsent]
  written {s taken left x} h w wx :=
    ⟨⟨left, wx⟩, h.2.trans (.of_session rfl (List.prefix_append _ _))⟩
  renewed h _ hr := by
    obtain ⟨⟨pending, w⟩, hgrows⟩ := h
    exact ⟨hr.output.window w, hgrows.trans (.of_renewed hr)⟩
  idle _ _ := trivial
  accepted _ _ := trivial

/-- What one event of a client does to its sockets. -/
theorem step_grows (hphase : Phase s) {pending : List UInt8} (w : Pending s pending)
    (e : ClientEvent) : Ends (s.step cli e) (Grows s) (fun _ => True) := by
  have hall := endsAt_of_forall (B := fun _ _ => True) (fun _ _ => trivial) cli s e
  exact ((grows_outputs s).keeps.step hphase ⟨⟨pending, w⟩, .refl s⟩ e hall).imp
    (fun _ h => h.2.2) (fun _ _ => trivial)

end

end EasyReactor.Client
