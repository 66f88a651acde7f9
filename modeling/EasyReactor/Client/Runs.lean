import EasyReactor.Client.Calls

set_option autoImplicit false

/-!
# Client: whole runs

A property of every run follows from what `handle_read` and `handle_write` do on a
connected client, and from what user code, an established connection and a new try to
connect leave alone.  `Keeps` collects the obligations, and `Keeps.run` is the rule.
-/

namespace EasyReactor.Client

open EasyReactor.Foundation EasyReactor.Buffer EasyReactor.Loop EasyReactor.Wire

/-- Every event of a run meets `C` in the state it finds. -/
def RunMeets (C : ClientState → ClientEvent → Prop) (cli : TcpClient) (rawIn rawOut : Nat → UInt8)
    (c : Connect) (events : List ClientEvent) : Prop :=
  match ClientState.construct rawIn rawOut c with
  | .ok s => Meets (ClientState.step cli) C s events
  | .error _ => True

instance (C : ClientState → ClientEvent → Prop) [∀ s e, Decidable (C s e)] (cli : TcpClient)
    (rawIn rawOut : Nat → UInt8) (c : Connect) (events : List ClientEvent) :
    Decidable (RunMeets C cli rawIn rawOut c events) := by
  unfold RunMeets
  split <;> infer_instance

/-- `R` of what `handle_read` is to read, or `W` of the `write`s of `handle_write`. -/
def CallMeets (R : Recv → Prop) (W : List WriteResult → Prop) (sys : SysCalls) :
    Option ClientIo → Prop
  | some .readCb => R sys.recv
  | some .writeCb => W sys.writes
  | some .connectionCb => True
  | none => True

instance (R : Recv → Prop) (W : List WriteResult → Prop) [DecidablePred R] [DecidablePred W]
    (sys : SysCalls) : ∀ cb, Decidable (CallMeets R W sys cb)
  | some .readCb => inferInstanceAs (Decidable (R _))
  | some .writeCb => inferInstanceAs (Decidable (W _))
  | some .connectionCb => inferInstanceAs (Decidable True)
  | none => inferInstanceAs (Decidable True)

/-- The callback that the event runs in `s` meets `R` or `W`. -/
def IoMeets (R : Recv → Prop) (W : List WriteResult → Prop) (s : ClientState) : ClientEvent → Prop
  | .io ready sys => CallMeets R W sys (s.evs.processEv s.sockfd ready)
  | .timer _ => True
  | .sendData _ => True

instance (R : Recv → Prop) (W : List WriteResult → Prop) [DecidablePred R] [DecidablePred W]
    (s : ClientState) : ∀ e, Decidable (IoMeets R W s e)
  | .io _ _ => inferInstanceAs (Decidable (CallMeets R W _ _))
  | .timer _ => inferInstanceAs (Decidable True)
  | .sendData _ => inferInstanceAs (Decidable True)

section

variable {R : Recv → Prop} {W : List WriteResult → Prop} {s : ClientState} {ready : Ready}
  {sys : SysCalls}

theorem IoMeets.read (h : IoMeets R W s (.io ready sys))
    (hev : s.evs.processEv s.sockfd ready = some .readCb) : R sys.recv := by
  have hcall : CallMeets R W sys (s.evs.processEv s.sockfd ready) := h
  rw [hev] at hcall
  exact hcall

theorem IoMeets.write (h : IoMeets R W s (.io ready sys))
    (hev : s.evs.processEv s.sockfd ready = some .writeCb) : W sys.writes := by
  have hcall : CallMeets R W sys (s.evs.processEv s.sockfd ready) := h
  rw [hev] at hcall
  exact hcall

end

/-- What a property `P` has to be kept by, for runs whose events meet `C`. -/
structure Keeps (cli : TcpClient) (C : ClientState → ClientEvent → Prop) (P : ClientState → Prop) :
    Prop where
  pending : ∀ {s}, P s → ∃ pending, Pending s pending
  called : ∀ {s s'}, P s → Called s s' → P s'
  established : ∀ {s s'}, P s → Established s s' → P s'
  /-- the connection failed -/
  failed : ∀ {s} {evs : EventLoop ClientIo} {timers : Nat}, P s →
    P { s with evs := evs, timers := timers }
  /-- nothing went through the socket that is given up -/
  retried : ∀ {s s'}, P s → s.session = .new s.sockfd → Renewed s s' → P s'
  read : ∀ {s ready} {sys : SysCalls}, Up s → Drained s → P s →
    s.evs.processEv s.sockfd ready = some .readCb → C s (.io ready sys) →
      Ends (s.handleRead cli sys.recv sys.connect) (fun s' => Phase s' ∧ P s') (fun _ => True)
  write : ∀ {s ready} {sys : SysCalls}, Up s → P s →
    s.evs.processEv s.sockfd ready = some .writeCb → C s (.io ready sys) →
      Ends (s.handleWrite cli sys.writes sys.connect) (fun s' => Phase s' ∧ P s') (fun _ => True)

section

variable {cli : TcpClient} {C : ClientState → ClientEvent → Prop} {P : ClientState → Prop}
  {s s' : ClientState}

/-- User code does not change what the client is doing. -/
theorem Phase.called (h : Phase s) (hc : Called s s') : Phase s' := by
  cases h with
  | connecting h =>
    refine .connecting ⟨hc.netOk.trans h.netOk, hc.timers.trans h.timers, ?_, ?_, ?_⟩
    · rw [hc.sockfd]
      exact h.sockfd
    · rw [hc.sockfd, hc.down h.netOk]
      exact h.listens
    · rw [hc.session, hc.sockfd, h.idle]
  | waiting h =>
    refine .waiting ⟨hc.netOk.trans h.netOk, hc.timers.trans h.timers, ?_, ?_⟩
    · rw [hc.down h.netOk]
      exact h.bare
    · rw [hc.session, hc.sockfd, h.idle]
  | connected hup hdrained => exact .connected (hc.up hup) (hc.drained hdrained)

/-- The event of a descriptor. -/
theorem Keeps.io (k : Keeps cli C P) (hphase : Phase s) (h : P s) {ready : Ready} {sys : SysCalls}
    (hc : C s (.io ready sys)) :
    Ends (s.step cli (.io ready sys)) (fun s' => Phase s' ∧ P s') (fun _ => True) := by
  obtain ⟨pending, w⟩ := k.pending h
  unfold ClientState.step
  simp only
  cases hev : s.evs.processEv s.sockfd ready with
  | none => exact ⟨hphase, h⟩
  | some cb =>
    simp only
    cases hphase with
    | waiting hwait =>
      rw [hwait.bare.processEv] at hev
      cases hev
    | connecting hconn =>
      cases hconn.listens.processEv hev with
      | inl hread => cases hread
      | inr hcb =>
        obtain rfl := Option.some.inj hcb
        apply (connectionCb_ends hconn w sys.soError).imp _ (fun _ _ => trivial)
        rintro s' (⟨-, hs⟩ | ⟨-, hs, heq⟩)
        · exact ⟨.connected hs.up hs.drained, k.established h hs⟩
        · refine ⟨.waiting hs, ?_⟩
          rw [heq]
          exact k.failed h
    | connected hup hdrained =>
      cases hup.listens.processEv hev with
      | inl hcb =>
        obtain rfl := Option.some.inj hcb
        exact k.read hup hdrained h hev hc
      | inr hcb =>
        obtain rfl := Option.some.inj hcb
        exact k.write hup h hev hc

/-- The end of a reconnect timer. -/
theorem Keeps.timer (k : Keeps cli C P) (hphase : Phase s) (h : P s) (c : Connect) :
    Ends (s.step cli (.timer c)) (fun s' => Phase s' ∧ P s') (fun _ => True) := by
  unfold ClientState.step
  simp only
  split
  next => exact ⟨hphase, h⟩
  next htimers =>
    cases hphase with
    | connecting hconn => exact absurd hconn.timers htimers
    | connected hup => exact absurd hup.timers htimers
    | waiting hwait =>
      have h₁ : P { s with timers := s.timers - 1 } := k.failed h
      obtain ⟨pending, w⟩ := k.pending h₁
      have hdown : Down { s with timers := s.timers - 1 } := by
        refine ⟨hwait.netOk, ?_, hwait.bare⟩
        change s.timers - 1 = 0
        rw [hwait.timers]
      apply (doConnect_ends hdown w c).imp _ (fun _ _ => trivial)
      exact fun s' hr => ⟨hr.phase, k.retried h₁ hwait.idle hr⟩

theorem Keeps.step (k : Keeps cli C P) (hphase : Phase s) (h : P s) (e : ClientEvent)
    (hc : C s e) : Ends (s.step cli e) (fun s' => Phase s' ∧ P s') (fun _ => True) := by
  cases e with
  | io ready sys => exact k.io hphase h hc
  | timer c => exact k.timer hphase h c
  | sendData m =>
    obtain ⟨pending, w⟩ := k.pending h
    apply (send_ends w m).imp _ (fun _ _ => trivial)
    exact fun s' hs => ⟨hphase.called (hs.called w), k.called h (hs.called w)⟩

/-- The rule for a run. -/
theorem Keeps.run (k : Keeps cli C P) {rawIn rawOut : Nat → UInt8} {c : Connect}
    {events : List ClientEvent} (hnew : P (.new rawIn rawOut))
    (hmeets : RunMeets C cli rawIn rawOut c events) :
    Ends (ClientState.run cli rawIn rawOut c events) (fun s => Phase s ∧ P s) (fun _ => True) := by
  unfold ClientState.run
  apply (construct_ends rawIn rawOut c).bind_eq (fun _ _ => trivial)
  intro s hs hr
  unfold RunMeets at hmeets
  rw [hs] at hmeets
  exact Ends.foldlM_meets (fun s e hp hc => k.step hp.1 hp.2 e hc) events s
    ⟨hr.phase, k.retried hnew rfl hr⟩ hmeets

end

end EasyReactor.Client
