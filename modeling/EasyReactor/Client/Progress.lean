import EasyReactor.Client.Ledger
import EasyReactor.Client.Serving

set_option autoImplicit false

/-!
# Client: no dead end

Whatever happened to a client in a run in which no `connect` returned 0, the next timer, the
next answer of the kernel to `connect` and the next `write` lead out of it: at most three
events later it is connected, and everything accepted so far has gone out.  For that the
client has to be registered for the end of each `connect` in progress; `Dials` says so.
-/

namespace EasyReactor.Client

open EasyReactor.Foundation EasyReactor.Buffer EasyReactor.Loop EasyReactor.Wire

/-- A client that is not connected, and waits for no timer, waits for `connect`. -/
def Dials (s : ClientState) : Prop :=
  s.netOk = false → s.timers = 0 → s.evs.processEv s.sockfd .output = some .connectionCb

variable {cli : TcpClient} {s s' : ClientState} {pending : List UInt8}

theorem Dials.of_netOk (hnet : s.netOk = true) : Dials s := by
  intro hoff
  rw [hnet] at hoff
  cases hoff

/-- User code changes nothing about it. -/
theorem Dials.called (h : Dials s) (hc : Called s s') : Dials s' := by
  intro hnet htimers
  rw [hc.netOk] at hnet
  rw [hc.timers] at htimers
  rw [hc.down hnet, hc.sockfd]
  exact h hnet htimers

/-! ## New sockets -/

theorem doConnect_dials (w : Pending s pending) (c : Connect) :
    Ends (s.doConnect cli c) Dials (fun _ => True) := by
  have hclose : ∃ evs closed,
      (if s.sockfd ≠ -1 then s.closeSockfd else s) = { s with evs := evs, closed := closed } := by
    split
    · exact ⟨_, _, rfl⟩
    · exact ⟨_, _, rfl⟩
  obtain ⟨evs, closed, heq⟩ := hclose
  unfold ClientState.doConnect
  rw [heq]
  cases c.socket with
  | none => trivial
  | some fd =>
    simp only
    cases c.connect with
    | error => trivial
    | inProgress => exact fun _ _ => EventLoop.processEv_addIoev_write _ _ _ _
    | connected =>
      have w' : Pending { s with
          netOk := true, sockfd := fd, evs := evs, closed := closed,
          past := s.past ++ [s.session], session := .new fd } pending := w
      apply (callOnconnect_ends w').imp _ (fun _ _ => trivial)
      exact fun s' hc => .of_netOk hc.netOk

theorem cleanConn_dials (w : Pending s pending) (c : Connect) :
    Ends (s.cleanConn cli c) Dials (fun _ => True) := by
  have hclose : ∃ evs closed,
      (if s.sockfd ≠ -1 then { s with evs := s.evs.delIoev s.sockfd }.closeSockfd else s) =
        { s with evs := evs, closed := closed } := by
    split
    · exact ⟨_, _, rfl⟩
    · exact ⟨_, _, rfl⟩
  obtain ⟨evs, closed, heq⟩ := hclose
  unfold ClientState.cleanConn
  rw [heq]
  have w' : Pending { s with evs := evs, closed := closed, netOk := false } pending := w
  apply ((callOnclose_ends w').imp (fun _ hs => hs) (fun _ _ => trivial)).bind
  intro s₁ hc
  obtain ⟨pending₁, w₁⟩ := hc.output.window w'
  exact doConnect_dials w₁ c

/-! ## Reading and writing -/

/-- A loop that cleans the connection dials, and one that does not leaves `net_ok` alone. -/
def Cleaned (s : ClientState) (r : ClientState × Bool) : Prop :=
  if r.2 then Dials r.1 else r.1.netOk = s.netOk

theorem readLoop_cleaned (w : Pending s pending) (c : Connect) (fuel : Nat) :
    Ends (ClientState.readLoop cli c fuel s) (Cleaned s) (fun _ => True) := by
  induction fuel generalizing s pending with
  | zero => trivial
  | succ fuel ih =>
    unfold ClientState.readLoop
    split
    next =>
      apply (Ends.any _).bind
      intro bs _
      simp only
      split
      next => exact rfl
      next =>
        have w' : Pending { s with ibuf := s.ibuf.pop commuHeadLength } pending := w
        split
        next => exact (cleanConn_dials w' c).bind fun _ h => h
        next hknown =>
          apply ((dispatch_ends w' (by simpa using hknown)).imp (fun _ hs => hs)
            (fun _ _ => trivial)).bind
          rintro t ⟨body, -, hcall⟩
          obtain ⟨pending₁, w₁⟩ := hcall.output.window w
          apply (ih (s := { t with ibuf := t.ibuf.pop _ }) w₁).imp _ (fun _ he => he)
          rintro ⟨u, cleaned⟩ hu
          have hnet : t.netOk = s.netOk := hcall.netOk
          cases cleaned with
          | true => exact hu
          | false => exact Eq.trans hu hnet
    next => exact rfl

theorem handleRead_dials (hnet : s.netOk = true) (w : Pending s pending) (r : Recv)
    (c : Connect) : Ends (s.handleRead cli r c) Dials (fun _ => True) := by
  unfold ClientState.handleRead
  split
  next => trivial
  next =>
    cases r.fionread with
    | none => exact .of_netOk hnet
    | some rn =>
      simp only
      split
      next =>
        cases r.read with
        | eagain => trivial
        | error => exact cleanConn_dials w c
        | bytes bs =>
          simp only
          apply (Ends.any _).bind
          intro x _
          have w₁ : Pending { s with ibuf := x } pending := w
          split
          next => exact cleanConn_dials w₁ c
          next =>
            split
            next =>
              have w₂ : Pending (({ s with ibuf := x } : ClientState).filled bs) pending := w
              rw [received_eq]
              apply (readLoop_cleaned w₂ c _).bind
              rintro ⟨t, cleaned⟩ ht
              cases cleaned with
              | true => exact ht
              | false =>
                apply (Ends.any _).bind
                intro ibuf _
                exact .of_netOk (Eq.trans ht hnet)
            next => trivial
      next => trivial

theorem writeLoop_cleaned (w : Pending s pending) (c : Connect) (fuel : Nat)
    (ws : List WriteResult) :
    Ends (ClientState.writeLoop cli c fuel s ws) (Cleaned s) (fun _ => True) := by
  induction fuel generalizing s pending ws with
  | zero => trivial
  | succ fuel ih =>
    rw [ClientState.writeLoop]
    split
    next =>
      rw [w.load_start, ok_bind]
      cases uninterrupted ws with
      | mk r ws' =>
        cases r with
        | eintr => exact rfl
        | eagain => exact rfl
        | error => exact (cleanConn_dials w c).bind fun _ h => h
        | wrote n =>
          simp only
          split
          next => exact rfl
          next =>
            have wsplit : Pending s (pending.take n ++ pending.drop n) := by
              rw [List.take_append_drop]
              exact w
            obtain ⟨x, hx, wx⟩ := wsplit.pop_adjust
            rw [hx, ok_bind]
            exact ih (s := { s with
              obuf := x
              session := { s.session with sent := s.session.sent ++ pending.take n } }) wx ws'
    next => exact rfl

theorem handleWrite_dials (hnet : s.netOk = true) (w : Pending s pending)
    (ws : List WriteResult) (c : Connect) :
    Ends (s.handleWrite cli ws c) Dials (fun _ => True) := by
  unfold ClientState.handleWrite
  split
  next =>
    apply (writeLoop_cleaned w c _ ws).bind
    rintro ⟨t, cleaned⟩ ht
    cases cleaned with
    | true => exact ht
    | false =>
      have hup : t.netOk = true := Eq.trans ht hnet
      simp only [Bool.false_eq_true, if_false]
      split
      next => exact .of_netOk hup
      next => exact .of_netOk hup
  next => trivial

theorem step_dials (hphase : Phase s) (w : Pending s pending) (h : Dials s) (e : ClientEvent) :
    Ends (s.step cli e) Dials (fun _ => True) := by
  cases e with
  | sendData m =>
    apply (send_ends w m).imp _ (fun _ _ => trivial)
    exact fun s' hs => h.called (hs.called w)
  | timer c =>
    unfold ClientState.step
    simp only
    split
    next => exact h
    next => exact doConnect_dials (s := { s with timers := s.timers - 1 }) w c
  | io ready sys =>
    unfold ClientState.step
    simp only
    cases hev : s.evs.processEv s.sockfd ready with
    | none => exact h
    | some cb =>
      simp only
      cases hphase with
      | waiting hwait =>
        rw [hwait.bare.processEv] at hev
        cases hev
      | connecting hconn =>
        rcases hconn.listens.processEv hev with hread | hcb
        · cases hread
        obtain rfl := Option.some.inj hcb
        apply (connectionCb_ends hconn w sys.soError).imp _ (fun _ _ => trivial)
        rintro s' (⟨-, hs⟩ | ⟨-, hs, -⟩)
        · exact .of_netOk hs.up.netOk
        · intro _ htimers
          rw [hs.timers] at htimers
          cases htimers
      | connected hup hdrained =>
        rcases hup.listens.processEv hev with hcb | hcb
        · obtain rfl := Option.some.inj hcb
          exact handleRead_dials hup.netOk w sys.recv sys.connect
        · obtain rfl := Option.some.inj hcb
          exact handleWrite_dials hup.netOk w sys.writes sys.connect

/-! ## Every run -/

/-- What holds of a client between two events, while no `connect` returns 0. -/
structure Live (s : ClientState) : Prop where
  phase : Phase s
  served : Served True s
  dials : Dials s

theorem step_live (cli : TcpClient) (h : Live s) {e : ClientEvent} (hd : Defers s (.event e)) :
    Ends (s.step cli e) Live (fun _ => True) := by
  obtain ⟨pending, w⟩ := h.served.output
  have hserved : Ends (s.step cli e) (fun s' => Phase s' ∧ Served True s') (fun _ => True) :=
    act_served h.phase h.served hd
  apply (hserved.and_post (step_dials h.phase w h.dials e)).imp _ (fun _ he => he)
  exact fun s' hs => ⟨hs.1.1, hs.1.2, hs.2⟩

theorem run_live {rawIn rawOut : Nat → UInt8} {c : Connect} {events : List ClientEvent}
    (hc : c.connect ≠ .connected)
    (hdefers : RunMeets (fun s e => Defers s (.event e)) cli rawIn rawOut c events) :
    Ends (ClientState.run cli rawIn rawOut c events) Live (fun _ => True) := by
  have w := pending_new rawIn rawOut
  have hstart : Ends (ClientState.construct rawIn rawOut c) Live (fun _ => True) := by
    have hphase : Ends (ClientState.construct rawIn rawOut c) Phase (fun _ => True) :=
      (construct_ends rawIn rawOut c).imp (fun _ hr => hr.phase) (fun _ _ => trivial)
    have hserved : Ends (ClientState.construct rawIn rawOut c) (Served True)
        (fun _ => True) := doConnect_served ⟨[], w⟩ (fun _ => rfl) fun _ => hc
    apply ((hphase.and_post hserved).and_post (doConnect_dials w c)).imp _ (fun _ he => he)
    exact fun s hs => ⟨hs.1.1, hs.1.2, hs.2⟩
  unfold ClientState.run
  apply hstart.bind_eq (fun _ he => he)
  intro s hs h
  unfold RunMeets at hdefers
  rw [hs] at hdefers
  exact Ends.foldlM_meets (fun s e hp hd => step_live cli hp hd) events s h hdefers

/-! ## The way out -/

/-- The timer of `connection_cb` ends, and `connect` is in progress again. -/
def retry (fd : Nat) : ClientEvent := .timer ⟨some fd, .inProgress⟩

/-- The kernel reports that `connect` succeeded. -/
def answer : ClientEvent := .io .output noCalls

/-- The socket takes `n` bytes at once. -/
def drain (n : Nat) : ClientEvent := .io .output { noCalls with writes := [.wrote n] }

theorem Live.retries (cli : TcpClient) (h : Live s) (htimers : s.timers ≠ 0) (fd : Nat) :
    ∃ s', s.step cli (retry fd) = .ok s' ∧ Live s' ∧ s'.netOk = false ∧ s'.timers = 0 ∧
      s'.accepted = s.accepted := by
  have hlive := step_live cli h (e := retry fd) (by simp [retry, Defers])
  cases hphase : h.phase with
  | connecting hconn => exact absurd hconn.timers htimers
  | connected hup => exact absurd hup.timers htimers
  | waiting hwait =>
    have hstep : ∃ s', s.step cli (retry fd) = .ok s' ∧ s'.netOk = s.netOk ∧
        s'.timers = s.timers - 1 ∧ s'.accepted = s.accepted := by
      unfold ClientState.step retry
      simp only
      rw [if_neg htimers]
      unfold ClientState.doConnect
      simp only
      split
      next => exact ⟨_, rfl, rfl, rfl, rfl⟩
      next => exact ⟨_, rfl, rfl, rfl, rfl⟩
    obtain ⟨s', hs', hnet, htimers', hacc⟩ := hstep
    refine ⟨s', hs', hlive.of_ok hs', hnet.trans hwait.netOk, ?_, hacc⟩
    rw [htimers', hwait.timers]

theorem Live.answers (h : Live s) (hmodest : cli.Modest) (hnet : s.netOk = false)
    (htimers : s.timers = 0) :
    ∃ s', s.step cli answer = .ok s' ∧ Live s' ∧ s'.netOk = true ∧ s.accepted <+: s'.accepted := by
  have hlive := step_live cli h (e := answer) (by simp [answer, noCalls, Defers])
  cases h.phase with
  | waiting hwait =>
    rw [hwait.timers] at htimers
    cases htimers
  | connected hup =>
    rw [hup.netOk] at hnet
    cases hnet
  | connecting hconn =>
    obtain ⟨pending, w⟩ := h.served.output
    have hstep : s.step cli answer = s.connectionCb cli s.sockfd 0 := by
      unfold ClientState.step answer
      simp only
      rw [h.dials hnet htimers]
      rfl
    have hcb := hstep ▸ connectionCb_ends hconn w 0
    cases hs' : s.step cli answer with
    | error e => exact absurd hmodest (hcb.of_error hs').2
    | ok s' =>
      rcases hcb.of_ok hs' with ⟨-, hest⟩ | ⟨hne, -⟩
      · obtain ⟨more, hacc, -⟩ := hest.output
        refine ⟨s', rfl, hlive.of_ok hs', hest.up.netOk, ?_⟩
        rw [hacc]
        exact List.prefix_append _ _
      · exact absurd rfl hne

/-- One `write` that takes everything ends the loop. -/
theorem writeLoop_all (cli : TcpClient) (w : Pending s pending) (hne : pending ≠ [])
    (c : Connect) :
    ∃ x, Window x 0 [] ∧
      ClientState.writeLoop cli c 2 s [.wrote pending.length] = .ok ({ s with
        obuf := x
        session := { s.session with sent := s.session.sent ++ pending } }, false) := by
  have hpos := List.length_pos_of_ne_nil hne
  have hlen := w.length
  have wall : Pending s (pending ++ []) := by
    rw [List.append_nil]
    exact w
  obtain ⟨x, hx, wx⟩ := wall.pop_adjust
  have hempty : ¬ x.length ≠ 0 := not_not.mpr wx.length
  refine ⟨x, wx, ?_⟩
  unfold ClientState.writeLoop
  rw [if_pos (by omega), w.load_start, ok_bind]
  simp only [uninterrupted, List.take_length]
  rw [if_neg hne, hx, ok_bind]
  -- the second turn finds `obuf` empty
  unfold ClientState.writeLoop
  rw [if_neg hempty]
  rfl

/-- What is registered for `EPOLLOUT` writes all that `obuf` holds. -/
theorem Live.drains (cli : TcpClient) (h : Live s) (hnet : s.netOk = true) (w : Pending s pending)
    (hne : pending ≠ []) :
    ∃ s', s.step cli (drain pending.length) = .ok s' ∧ s'.netOk = true ∧
      Pending s' [] ∧ s'.accepted = s.accepted := by
  have hpos := List.length_pos_of_ne_nil hne
  have hlen : s.obuf.length ≠ 0 := by
    rw [w.length]
    omega
  have hwrites : s.evs.processEv s.sockfd .output = some .writeCb :=
    h.served.writing trivial hnet hlen
  obtain ⟨x, wx, hloop⟩ := writeLoop_all cli w hne noCalls.connect
  have hempty : x.length = 0 := wx.length
  have hstep : s.step cli (drain pending.length) =
      s.handleWrite cli [.wrote pending.length] noCalls.connect := by
    unfold ClientState.step drain
    simp only
    rw [hwrites]
    rfl
  rw [hstep]
  unfold ClientState.handleWrite
  rw [if_pos ⟨w.head, hlen⟩]
  simp only [List.length_singleton, Nat.reduceAdd]
  rw [hloop, ok_bind]
  simp only [Bool.false_eq_true, if_false]
  rw [if_pos hempty]
  exact ⟨_, rfl, hnet, wx, rfl⟩

/-- Within `n` more events the client is connected, and everything accepted went out. -/
def Recovers (cli : TcpClient) (s : ClientState) (n : Nat) : Prop :=
  ∃ (more : List ClientEvent) (s' : ClientState), more.length ≤ n ∧
    more.foldlM (ClientState.step cli) s = .ok s' ∧ s'.netOk = true ∧
    s.accepted <+: s'.accepted ∧ Pending s' []

theorem Recovers.cons {e : ClientEvent} {n : Nat} (hs : s.step cli e = .ok s')
    (hacc : s.accepted <+: s'.accepted) (h : Recovers cli s' n) : Recovers cli s (n + 1) := by
  obtain ⟨more, t, hlen, hrun, hnet, hacc', w⟩ := h
  refine ⟨e :: more, t, Nat.succ_le_succ hlen, ?_, hnet, hacc.trans hacc', w⟩
  rw [List.foldlM_cons, hs, ok_bind, hrun]

theorem Recovers.mono {n m : Nat} (h : Recovers cli s n) (hnm : n ≤ m) : Recovers cli s m := by
  obtain ⟨more, t, hlen, hrest⟩ := h
  exact ⟨more, t, hlen.trans hnm, hrest⟩

theorem Live.recovers_connected (cli : TcpClient) (h : Live s) (hnet : s.netOk = true) :
    Recovers cli s 1 := by
  obtain ⟨pending, w⟩ := h.served.output
  by_cases hne : pending = []
  · subst hne
    exact ⟨[], s, Nat.zero_le _, rfl, hnet, List.prefix_rfl, w⟩
  · obtain ⟨s', hs', hnet', w', hacc⟩ := h.drains cli hnet w hne
    have hpre : s.accepted <+: s'.accepted := by
      rw [hacc]
    exact .cons hs' hpre ⟨[], s', Nat.zero_le _, rfl, hnet', List.prefix_rfl, w'⟩

theorem Live.recovers_dialing (h : Live s) (hmodest : cli.Modest) (hnet : s.netOk = false)
    (htimers : s.timers = 0) : Recovers cli s 2 := by
  obtain ⟨s', hs', h', hnet', hacc⟩ := h.answers hmodest hnet htimers
  exact .cons hs' hacc (h'.recovers_connected cli hnet')

/-- The timer, the answer to `connect`, and one `write`; fewer, where the client is further. -/
theorem Live.recovers (h : Live s) (hmodest : cli.Modest) : Recovers cli s 3 := by
  cases h.phase with
  | connected hup => exact (h.recovers_connected cli hup.netOk).mono (by decide)
  | connecting hconn =>
    exact (h.recovers_dialing hmodest hconn.netOk hconn.timers).mono (by decide)
  | waiting hwait =>
    have htimers : s.timers ≠ 0 := by
      rw [hwait.timers]
      decide
    obtain ⟨s', hs', h', hnet', htimers', hacc⟩ := h.retries cli htimers 0
    have hpre : s.accepted <+: s'.accepted := by
      rw [hacc]
    exact .cons hs' hpre (h'.recovers_dialing hmodest hnet' htimers')

/-- **No message is stranded.**  However a run in which no `connect` returned 0 went, whether
the client is connecting, waiting for its timer or connected: at most three more events lead
to a state in which it is connected, and its sockets took the frames of everything accepted
so far, and of what `onConnection` added. -/
theorem no_message_stranded (cli : TcpClient) (hmodest : cli.Modest)
    (rawIn rawOut : Nat → UInt8) (c : Connect) (events : List ClientEvent)
    (hc : c.connect ≠ .connected)
    (hdefers : RunMeets (fun s e => Defers s (.event e)) cli rawIn rawOut c events) :
    Ends (ClientState.run cli rawIn rawOut c events)
      (fun s => ∃ (more : List ClientEvent) (s' : ClientState), more.length ≤ 3 ∧
        ClientState.run cli rawIn rawOut c (events ++ more) = .ok s' ∧ s'.netOk = true ∧
        s.accepted <+: s'.accepted ∧
        (s'.past ++ [s'.session]).flatMap Session.sent = frames s'.accepted)
      (fun _ => True) := by
  apply Ends.intro _ (fun _ _ => trivial)
  intro s hs
  have h := (run_live hc hdefers).of_ok hs
  obtain ⟨more, s', hlen, hmore, hnet, hacc, w⟩ := h.recovers hmodest
  have hrun : ClientState.run cli rawIn rawOut c (events ++ more) = .ok s' := by
    unfold ClientState.run at hs ⊢
    obtain ⟨s₀, hs₀, hevents⟩ := bind_eq_ok.mp hs
    rw [hs₀, ok_bind, List.foldlM_append, hevents, ok_bind, hmore]
  -- nothing is pending, so the ledger is all output
  obtain ⟨pending, w', hsum⟩ := (run_balanced cli rawIn rawOut c (events ++ more)).of_ok hrun
  obtain rfl := w.unique w'
  rw [List.append_nil] at hsum
  exact ⟨more, s', hlen, hrun, hnet, hacc, hsum⟩

/-- A message is accepted, two of its bytes go out, the peer closes, and the next `connect`
fails. -/
theorem no_message_stranded_waiting :
    Ends (ClientState.run (quietClient [1]) (fun _ => 0) (fun _ => 0) ⟨some 4, .inProgress⟩
        [.io .output noCalls, .sendData ⟨1, [7]⟩,
          .io .output { noCalls with writes := [.wrote 2] },
          .io .input { noCalls with recv := .chunk [], connect := ⟨some 5, .inProgress⟩ },
          .io .output { noCalls with soError := 111 }])
      (fun s => ∃ (more : List ClientEvent) (s' : ClientState), more.length ≤ 3 ∧
        ClientState.run (quietClient [1]) (fun _ => 0) (fun _ => 0) ⟨some 4, .inProgress⟩
          ([.io .output noCalls, .sendData ⟨1, [7]⟩,
            .io .output { noCalls with writes := [.wrote 2] },
            .io .input { noCalls with recv := .chunk [], connect := ⟨some 5, .inProgress⟩ },
            .io .output { noCalls with soError := 111 }] ++ more) = .ok s' ∧ s'.netOk = true ∧
        s.accepted <+: s'.accepted ∧
        (s'.past ++ [s'.session]).flatMap Session.sent = frames s'.accepted)
      (fun _ => True) :=
  no_message_stranded (quietClient [1]) (modest_quiet [1]) (fun _ => 0) (fun _ => 0)
    ⟨some 4, .inProgress⟩ _ (by decide) (by decide +kernel)

end EasyReactor.Client
