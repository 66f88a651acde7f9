import EasyReactor.Client.Output

set_option autoImplicit false

/-!
# Client: a connected client listens

`net_ok` is set in two places: by `connection_cb`, which registers the client for reading
and for what is left in `obuf`, and by `do_connect` itself, which registers nothing.
`Serving` is what the first establishes and every later call keeps.
-/

namespace EasyReactor.Client

open EasyReactor.Foundation EasyReactor.Buffer EasyReactor.Loop EasyReactor.Wire

/-- What is left in `obuf` is written. -/
def Writes (s : ClientState) : Prop := s.evs.processEv s.sockfd .output = some .writeCb

/-- The output buffer in order, and, if `deferred` says that no `connect` returned 0 so far,
a client that reads what arrives and writes what it holds whenever it is connected. -/
structure Served (deferred : Prop) (s : ClientState) : Prop where
  output : ∃ pending, Pending s pending
  reading : deferred → s.netOk = true → Reads s
  writing : deferred → s.netOk = true → s.obuf.length ≠ 0 → Writes s

variable {cli : TcpClient} {s s' : ClientState} {pending : List UInt8} {deferred : Prop}

/-- Neither `ibuf` nor the log of the socket matter to it. -/
theorem Served.congr (h : Served deferred s) (hnet : s'.netOk = s.netOk)
    (hobuf : s'.obuf = s.obuf) (hfd : s'.sockfd = s.sockfd) (hevs : s'.evs = s.evs) :
    Served deferred s' := by
  obtain ⟨pending, w⟩ := h.output
  refine ⟨⟨pending, ?_⟩, ?_, ?_⟩
  · unfold Pending
    rw [hobuf]
    exact w
  · unfold Reads
    rw [hevs, hfd, hnet]
    exact h.reading
  · unfold Writes
    rw [hobuf, hevs, hfd, hnet]
    exact h.writing

/-- A client that is not connected owes nothing. -/
theorem Served.of_off (hout : ∃ pending, Pending s pending)
    (hoff : deferred → s.netOk = false) : Served deferred s := by
  refine ⟨hout, fun hd hnet => ?_, fun hd hnet => ?_⟩
  · rw [hoff hd] at hnet
    cases hnet
  · rw [hoff hd] at hnet
    cases hnet

/-! ## Callbacks -/

/-- The frame on an empty `obuf` registers it, the frame on another one finds it
registered. -/
theorem send_served (h : Served deferred s) (m : Msg) :
    Ends (s.send m) (Served deferred) (fun _ => True) := by
  obtain ⟨pending, w⟩ := h.output
  apply (send_ends w m).imp _ (fun _ _ => trivial)
  intro s' hs
  have hc := hs.called w
  refine ⟨hc.output.window w, fun hd hnet => hc.reading (h.reading hd (hc.netOk ▸ hnet)), ?_⟩
  intro hd hnet
  cases hs with
  | refused => exact h.writing hd hnet
  | accepted obuf netOk appended =>
    intro _
    change EventLoop.processEv (if _ then _ else _) _ _ = _
    split
    next => exact EventLoop.processEv_addIoev_write _ _ _ _
    next hlen => exact h.writing hd netOk hlen

theorem callback_served (h : Served deferred s) (msgs : List Msg) :
    Ends (s.callback msgs) (Served deferred) (fun _ => True) := by
  have hrun : Ends (msgs.foldlM ClientState.send s) (Served deferred) (fun _ => True) :=
    Ends.foldlM (P := fun _ => Served deferred) (fun _ m _ _ _ hs => send_served hs m) h
  unfold ClientState.callback
  cases hf : msgs.foldlM ClientState.send s with
  | ok s' => exact hrun.of_ok hf
  | error g => trivial

/-! ## New sockets -/

/-- `do_connect` leaves `net_ok` as it is, unless `connect` returns 0. -/
theorem doConnect_served (hout : ∃ pending, Pending s pending)
    (hoff : deferred → s.netOk = false) {c : Connect}
    (hc : deferred → c.connect ≠ .connected) :
    Ends (s.doConnect cli c) (Served deferred) (fun _ => True) := by
  obtain ⟨pending, w⟩ := hout
  have hclose : ∃ evs closed,
      (if s.sockfd ≠ -1 then s.closeSockfd else s) = { s with evs := evs, closed := closed } := by
    split
    · exact ⟨_, _, rfl⟩
    · exact ⟨_, _, rfl⟩
  obtain ⟨evs, closed, heq⟩ := hclose
  unfold ClientState.doConnect
  rw [heq]
  cases c.socket with
  | none => trivial
  | some fd =>
    simp only
    cases hres : c.connect with
    | error => trivial
    | inProgress => exact .of_off ⟨pending, w⟩ hoff
    | connected =>
      have w' : Pending { s with
          netOk := true, sockfd := fd, evs := evs, closed := closed,
          past := s.past ++ [s.session], session := .new fd } pending := w
      apply (callOnconnect_ends w').imp _ (fun _ _ => trivial)
      exact fun s' hcall => .of_off (hcall.output.window w') fun hd => absurd hres (hc hd)

theorem cleanConn_served (hout : ∃ pending, Pending s pending) {c : Connect}
    (hc : deferred → c.connect ≠ .connected) :
    Ends (s.cleanConn cli c) (Served deferred) (fun _ => True) := by
  obtain ⟨pending, w⟩ := hout
  have hclose : ∃ evs closed,
      (if s.sockfd ≠ -1 then { s with evs := s.evs.delIoev s.sockfd }.closeSockfd else s) =
        { s with evs := evs, closed := closed } := by
    split
    · exact ⟨_, _, rfl⟩
    · exact ⟨_, _, rfl⟩
  obtain ⟨evs, closed, heq⟩ := hclose
  unfold ClientState.cleanConn
  rw [heq]
  have w' : Pending { s with evs := evs, closed := closed, netOk := false } pending := w
  apply ((callOnclose_ends w').imp (fun _ hs => hs) (fun _ _ => trivial)).bind
  intro s₁ hcall
  exact doConnect_served (hcall.output.window w') (fun _ => hcall.netOk) hc

/-- `connection_cb` registers a connected client for reading, and for writing what the
connection before it left in `obuf`. -/
theorem connectionCb_served (hout : ∃ pending, Pending s pending)
    (hoff : deferred → s.netOk = false) (result : Int) :
    Ends (s.connectionCb cli s.sockfd result) (Served deferred) (fun _ => True) := by
  obtain ⟨pending, w⟩ := hout
  unfold ClientState.connectionCb
  simp only
  split
  next =>
    have w' : Pending { s with evs := s.evs.delIoev s.sockfd, netOk := true } pending := w
    apply ((callOnconnect_ends w').imp (fun _ hs => hs) (fun _ _ => trivial)).bind
    intro s₁ hc
    have hfd : s₁.sockfd = s.sockfd := hc.sockfd
    rw [← hfd]
    have hread := EventLoop.processEv_addIoev_in s₁.evs s₁.sockfd ClientIo.readCb none
    obtain ⟨pending₁, w₁⟩ := hc.output.window w'
    split
    next hlen =>
      exact ⟨⟨pending₁, w₁⟩, fun _ _ => EventLoop.processEv_addIoev_out _ _ hread,
        fun _ _ _ => EventLoop.processEv_addIoev_write _ _ _ _⟩
    next hlen => exact ⟨⟨pending₁, w₁⟩, fun _ _ => hread, fun _ _ hne => absurd hne hlen⟩
  next => exact .of_off ⟨pending, w⟩ hoff

/-! ## Reading -/

theorem dispatch_served (h : Served deferred s) (head : CommuHead) :
    Ends (s.dispatch cli head) (Served deferred) (fun _ => True) := by
  unfold ClientState.dispatch
  apply (Ends.any _).bind
  intro body _
  apply (Ends.any _).bind
  rintro ⟨func, usrData⟩ -
  have h₁ : Served deferred { s with session := { s.session with
      dispatched := s.session.dispatched ++ [⟨head.cmdid, body⟩] } } := h.congr rfl rfl rfl rfl
  exact callback_served h₁ _

/-- The loop of `handle_read`, whatever `ibuf` holds. -/
theorem readLoop_served (h : Served deferred s) {c : Connect}
    (hc : deferred → c.connect ≠ .connected) (fuel : Nat) :
    Ends (ClientState.readLoop cli c fuel s) (fun r => Served deferred r.1) (fun _ => True) := by
  induction fuel generalizing s with
  | zero => trivial
  | succ fuel ih =>
    have hpop : ∀ x, Served deferred { s with ibuf := x } := fun _ => h.congr rfl rfl rfl rfl
    unfold ClientState.readLoop
    split
    · apply (Ends.any _).bind
      intro bs _
      simp only
      split
      · exact h
      · split
        · apply (cleanConn_served (hpop _).output hc).bind
          intro s' h'
          exact h'
        · apply (dispatch_served (hpop _) _).bind
          intro s₁ h₁
          exact ih (h₁.congr rfl rfl rfl rfl)
    · exact h

theorem received_served (h : Served deferred s) (bs : List UInt8) {c : Connect}
    (hc : deferred → c.connect ≠ .connected) :
    Ends (s.received cli bs c) (Served deferred) (fun _ => True) := by
  have h₁ : Served deferred (s.filled bs) := h.congr rfl rfl rfl rfl
  rw [received_eq]
  apply (readLoop_served h₁ hc _).bind
  rintro ⟨t, cleaned⟩ ht
  simp only
  split
  · exact ht
  · apply (Ends.any _).bind
    intro ibuf _
    exact ht.congr rfl rfl rfl rfl

theorem handleRead_served (h : Served deferred s) (r : Recv) {c : Connect}
    (hc : deferred → c.connect ≠ .connected) :
    Ends (s.handleRead cli r c) (Served deferred) (fun _ => True) := by
  have hibuf : ∀ x, Served deferred { s with ibuf := x } := fun _ => h.congr rfl rfl rfl rfl
  unfold ClientState.handleRead
  split
  · trivial
  · cases r.fionread with
    | none => exact h
    | some rn =>
      simp only
      split
      · cases r.read with
        | eagain => trivial
        | error => exact cleanConn_served h.output hc
        | bytes bs =>
          simp only
          apply (Ends.any _).bind
          intro x _
          split
          · exact cleanConn_served (hibuf x).output hc
          · split
            · exact received_served (hibuf x) bs hc
            · trivial
      · trivial

/-! ## Writing -/

/-- What `write` takes is gone from `obuf`; the registration stays. -/
theorem writeLoop_served (hout : ∃ pending, Pending s pending) {c : Connect}
    (hc : deferred → c.connect ≠ .connected) (fuel : Nat) (ws : List WriteResult) :
    Ends (ClientState.writeLoop cli c fuel s ws)
      (fun r => if r.2 then Served deferred r.1 else r.1.netOk = s.netOk ∧
        r.1.sockfd = s.sockfd ∧ r.1.evs = s.evs ∧ ∃ pending, Pending r.1 pending)
      (fun _ => True) := by
  induction fuel generalizing s ws with
  | zero => trivial
  | succ fuel ih =>
    obtain ⟨pending, w⟩ := hout
    have hstay : s.netOk = s.netOk ∧ s.sockfd = s.sockfd ∧ s.evs = s.evs ∧
        ∃ pending, Pending s pending := ⟨rfl, rfl, rfl, pending, w⟩
    rw [ClientState.writeLoop]
    split
    · rw [w.load_start, ok_bind]
      cases uninterrupted ws with
      | mk r ws' =>
        cases r with
        | eintr => exact hstay
        | eagain => exact hstay
        | error =>
          apply (cleanConn_served ⟨pending, w⟩ hc).bind
          intro s' h'
          exact h'
        | wrote n =>
          simp only
          split
          · exact hstay
          · have wsplit : Pending s (pending.take n ++ pending.drop n) := by
              rw [List.take_append_drop]
              exact w
            obtain ⟨x, hx, wx⟩ := wsplit.pop_adjust
            rw [hx, ok_bind]
            exact ih ⟨pending.drop n, wx⟩ ws'
    · exact hstay

/-- The reader stays registered when the writer goes. -/
theorem reads_delIoevMask (h : Reads s) :
    (s.evs.delIoevMask s.sockfd epollOut).processEv s.sockfd .input = some .readCb := by
  unfold Reads at h
  simp only [EventLoop.processEv] at h ⊢
  split at h
  next hw =>
    rw [if_pos (hw.delIoevMask (by decide))]
    unfold EventLoop.readCb at h ⊢
    rcases s.evs.delIoevMask_ioEvs s.sockfd epollOut s.sockfd with hnone | ⟨ev, o, hev, hev'⟩
    · have hkeep : (s.evs.delIoevMask s.sockfd epollOut).Watches s.sockfd epollIn :=
        hw.delIoevMask (by decide)
      unfold EventLoop.Watches EventLoop.mask at hkeep
      rw [hnone] at hkeep
      exact absurd BitVec.zero_and hkeep
    · rw [hev] at h
      rw [hev']
      exact h
  next => cases h

theorem handleWrite_served (h : Served deferred s) (ws : List WriteResult) {c : Connect}
    (hc : deferred → c.connect ≠ .connected) :
    Ends (s.handleWrite cli ws c) (Served deferred) (fun _ => True) := by
  unfold ClientState.handleWrite
  split
  next hassert =>
    apply (writeLoop_served h.output hc _ ws).bind
    rintro ⟨t, cleaned⟩ hr
    cases cleaned with
    | true => exact hr
    | false =>
      obtain ⟨hnet, hfd, hevs, hout⟩ : t.netOk = s.netOk ∧ t.sockfd = s.sockfd ∧
        t.evs = s.evs ∧ ∃ pending, Pending t pending := hr
      have hreads : deferred → t.netOk = true → Reads t := by
        intro hd hok
        unfold Reads
        rw [hevs, hfd]
        exact h.reading hd (hnet ▸ hok)
      simp only [Bool.false_eq_true, if_false]
      split
      next hz =>
        exact ⟨hout, fun hd hok => reads_delIoevMask (hreads hd hok),
          fun _ _ hne => absurd hz hne⟩
      next hz =>
        refine ⟨hout, hreads, fun hd hok _ => ?_⟩
        unfold Writes
        rw [hevs, hfd]
        exact h.writing hd (hnet ▸ hok) hassert.2
  next => trivial

/-! ## One event -/

/-- The callback that was registered; `connection_cb` only while `connect` is in progress. -/
theorem runIo_served (h : Served deferred s) {cb : ClientIo}
    (hoff : cb = .connectionCb → deferred → s.netOk = false) {sys : SysCalls}
    (hc : deferred → sys.connect.connect ≠ .connected) :
    Ends (s.runIo cli cb sys) (Served deferred) (fun _ => True) := by
  cases cb with
  | readCb => exact handleRead_served h sys.recv hc
  | writeCb => exact handleWrite_served h sys.writes hc
  | connectionCb => exact connectionCb_served h.output (hoff rfl) sys.soError

/-- A `handle_read` leaves the client connected, or with a new socket. -/
theorem handleRead_phase (hup : Up s) (hdrained : Drained s) (w : Pending s pending) (r : Recv)
    (c : Connect) : Ends (s.handleRead cli r c) Phase (fun _ => True) := by
  unfold ClientState.handleRead
  split
  · trivial
  · cases r.fionread with
    | none => exact .connected hup hdrained
    | some rn =>
      simp only
      split
      · cases r.read with
        | eagain => trivial
        | error => exact (cleanConn_ends hup w c).imp (fun _ hr => hr.phase) (fun _ _ => trivial)
        | bytes bs =>
          simp only
          apply (Ends.any _).bind
          intro x _
          have hup₁ : Up { s with ibuf := x } := hup.congr rfl rfl rfl rfl
          have w₁ : Pending { s with ibuf := x } pending := w
          split
          · exact (cleanConn_ends hup₁ w₁ c).imp (fun _ hr => hr.phase) (fun _ _ => trivial)
          · split
            · apply (received_output hup₁ w₁ c).imp _ (fun _ _ => trivial)
              rintro s' (hs | ⟨-, _, _, hr⟩)
              · exact .connected hs.up (hs.drained hdrained)
              · exact hr.phase
            · trivial
      · trivial

/-- In every run the client is in one of its phases, with `obuf` in order. -/
theorem phase_keeps (cli : TcpClient) :
    Keeps cli (fun _ _ => True) (fun s => ∃ pending, Pending s pending) where
  pending h := h
  called := by
    rintro s s' ⟨pending, w⟩ hc
    exact hc.output.window w
  established := by
    rintro s s' ⟨pending, w⟩ hs
    exact hs.output.window w
  failed h := h
  retried := by
    rintro s s' ⟨pending, w⟩ - hr
    exact hr.output.window w
  read := by
    rintro s ready sys hup hdrained ⟨pending, w⟩ - -
    have hserved : Served False s := .of_off ⟨pending, w⟩ fun hf => hf.elim
    apply ((handleRead_phase hup hdrained w sys.recv sys.connect).and_post
      (handleRead_served hserved sys.recv fun hf => hf.elim)).imp _ (fun _ he => he)
    exact fun s' hs => ⟨hs.1, hs.2.output⟩
  write := by
    rintro s ready sys hup ⟨pending, w⟩ - -
    apply (handleWrite_ends (P := fun t => ∃ pending, Pending t pending)
      (Q := fun t => ∃ pending, Pending t pending) (E := fun _ => True) hup ⟨pending, w⟩ w _ _ _
      sys.writes sys.connect (fun _ _ => trivial)).imp (fun _ ht => ht) (fun _ _ => trivial)
    · exact fun _ _ wx => ⟨_, wx⟩
    · rintro t t' pending' ⟨_, _⟩ wt - hr
      exact hr.output.window wt
    · exact fun ht => ht

/-! ## Runs -/

/-- What can happen to a client, a call of `clean_conn` by the user among it. -/
inductive ClientAct where
  | event (e : ClientEvent)
  | cleanConn (c : Connect)

def ClientState.act (cli : TcpClient) (s : ClientState) : ClientAct → Except Fault ClientState
  | .event e => s.step cli e
  | .cleanConn c => s.cleanConn cli c

/-- No `connect` returns 0, and the user does not call `clean_conn` while the next try to
connect is due. -/
def Defers (s : ClientState) : ClientAct → Prop
  | .event (.io _ sys) => sys.connect.connect ≠ .connected
  | .event (.timer c) => c.connect ≠ .connected
  | .event (.sendData _) => True
  | .cleanConn c => c.connect ≠ .connected ∧ s.timers = 0

instance (s : ClientState) : ∀ a, Decidable (Defers s a)
  | .event (.io _ _) => inferInstanceAs (Decidable (_ ≠ _))
  | .event (.timer _) => inferInstanceAs (Decidable (_ ≠ _))
  | .event (.sendData _) => inferInstanceAs (Decidable True)
  | .cleanConn _ => inferInstanceAs (Decidable (_ ∧ _))

/-- A client is constructed, and then used. -/
def ClientState.actRun (cli : TcpClient) (rawIn rawOut : Nat → UInt8) (c : Connect)
    (acts : List ClientAct) : Except Fault ClientState := do
  let s ← ClientState.construct rawIn rawOut c
  acts.foldlM (act cli) s

/-- The condition on a run, the `connect` of the constructor included. -/
def ActsDefer (cli : TcpClient) (rawIn rawOut : Nat → UInt8) (c : Connect)
    (acts : List ClientAct) : Prop :=
  c.connect ≠ .connected ∧ match ClientState.construct rawIn rawOut c with
    | .ok s => Meets (ClientState.act cli) Defers s acts
    | .error _ => True

instance (cli : TcpClient) (rawIn rawOut : Nat → UInt8) (c : Connect) (acts : List ClientAct) :
    Decidable (ActsDefer cli rawIn rawOut c acts) :=
  have : Decidable (match ClientState.construct rawIn rawOut c with
      | .ok s => Meets (ClientState.act cli) Defers s acts
      | .error _ => True) :=
    match ClientState.construct rawIn rawOut c with
    | .ok s => decidableMeets Defers s acts
    | .error _ => .isTrue trivial
  inferInstanceAs (Decidable (_ ∧ _))

/-- A call of `clean_conn` on a client that waits for no timer. -/
theorem cleanConn_phase (hfd : s.sockfd ≠ -1) (htimers : s.timers = 0)
    (hbare : (s.evs.delIoev s.sockfd).Bare) (w : Pending s pending) (c : Connect) :
    Ends (s.cleanConn cli c) Phase (fun _ => True) := by
  unfold ClientState.cleanConn
  rw [if_pos hfd]
  have w' : Pending { { s with evs := s.evs.delIoev s.sockfd }.closeSockfd with netOk := false }
      pending := w
  apply ((callOnclose_ends w').imp (fun _ hs => hs) (fun _ _ => trivial)).bind
  intro s₁ hc
  obtain ⟨pending₁, w₁⟩ := hc.output.window w'
  have hbare₁ : s₁.evs.Bare := by
    rw [hc.down rfl]
    exact hbare.closeFd _
  exact (doConnect_ends ⟨hc.netOk, hc.timers.trans htimers, hbare₁⟩ w₁ c).imp
    (fun _ hr => hr.phase) (fun _ _ => trivial)

/-- One event of a run in which no `connect` returns 0. -/
theorem act_served (hphase : Phase s) (h : Served True s) {a : ClientAct} (hd : Defers s a) :
    Ends (s.act cli a) (fun s' => Phase s' ∧ Served True s') (fun _ => True) := by
  obtain ⟨pending, w⟩ := h.output
  cases a with
  | event e =>
    apply (((phase_keeps cli).step hphase h.output e trivial).imp (fun _ hs => hs.1)
      (fun _ he => he)).and_post
    cases e with
    | io ready sys =>
      unfold ClientState.step
      simp only
      cases hev : s.evs.processEv s.sockfd ready with
      | none => exact h
      | some cb =>
        refine runIo_served h (fun hcb _ => ?_) fun _ => hd
        subst hcb
        cases hphase with
        | connecting hconn => exact hconn.netOk
        | waiting hwait => exact hwait.netOk
        | connected hup =>
          rcases hup.listens.processEv hev with hr | hw
          · cases hr
          · cases hw
    | timer c =>
      unfold ClientState.step
      simp only
      split
      next => exact h
      next htimers =>
        have hout : ∃ pending, Pending { s with timers := s.timers - 1 } pending := ⟨pending, w⟩
        refine doConnect_served hout (fun _ => ?_) fun _ => hd
        cases hphase with
        | connecting hconn => exact hconn.netOk
        | waiting hwait => exact hwait.netOk
        | connected hup => exact absurd hup.timers htimers
    | sendData m => exact send_served h m
  | cleanConn c =>
    apply Ends.and_post _ (cleanConn_served h.output fun _ => hd.1)
    cases hphase with
    | connecting hconn =>
      exact cleanConn_phase hconn.sockfd hd.2 hconn.listens.delIoev w c
    | waiting hwait =>
      have hzero := hd.2
      rw [hwait.timers] at hzero
      cases hzero
    | connected hup => exact cleanConn_phase hup.sockfd hd.2 hup.listens.delIoev w c

/-- In every state between callbacks of a run in which no `connect` returns 0: a connected
client is registered for reading with `read_cb`, and for writing with `write_cb` exactly
while `obuf` holds something. -/
theorem connected_client_listens (cli : TcpClient) (rawIn rawOut : Nat → UInt8) (c : Connect)
    (acts : List ClientAct) (hdefers : ActsDefer cli rawIn rawOut c acts) :
    Ends (ClientState.actRun cli rawIn rawOut c acts)
      (fun s => s.netOk = true → Reads s ∧ (0 < s.obuf.length ↔ Writes s))
      (fun _ => True) := by
  obtain ⟨hc, hmeets⟩ := hdefers
  have hstart : Ends (ClientState.construct rawIn rawOut c)
      (fun s => Phase s ∧ Served True s) (fun _ => True) :=
    ((construct_ends rawIn rawOut c).imp (fun _ hr => hr.phase) (fun _ _ => trivial)).and_post
      (doConnect_served ⟨[], pending_new rawIn rawOut⟩ (fun _ => rfl) fun _ => hc)
  unfold ClientState.actRun
  apply hstart.bind_eq (fun _ he => he)
  intro s₀ hs₀ h₀
  rw [hs₀] at hmeets
  apply (Ends.foldlM_meets (fun s a hs hd => act_served hs.1 hs.2 hd) acts s₀ h₀ hmeets).imp _
    (fun _ he => he)
  rintro s ⟨hphase, h⟩ hnet
  obtain ⟨pending, w⟩ := h.output
  have hlen := w.length
  refine ⟨h.reading trivial hnet, fun hpos => h.writing trivial hnet (by omega), fun hwrites => ?_⟩
  cases hphase with
  | connecting hconn =>
    rw [hconn.netOk] at hnet
    cases hnet
  | waiting hwait =>
    rw [hwait.netOk] at hnet
    cases hnet
  | connected hup hdrained =>
    have hwatch : s.evs.Watches s.sockfd epollOut := by
      unfold Writes at hwrites
      simp only [EventLoop.processEv] at hwrites
      split at hwrites
      next hw => exact hw
      next => cases hwrites
    have hne := hdrained hwatch
    omega

/-- A message is sent, its first five bytes are written, the user cleans the connection, and
the next one is established. -/
theorem connected_client_listens_again :
    Ends (ClientState.actRun (quietClient [1]) (fun _ => 0) (fun _ => 0) ⟨some 4, .inProgress⟩
        [.event (.io .output noCalls), .event (.sendData ⟨1, [7]⟩),
          .event (.io .output { noCalls with writes := [.wrote 5] }),
          .cleanConn ⟨some 5, .inProgress⟩, .event (.io .output noCalls)])
      (fun s => s.netOk = true → Reads s ∧ (0 < s.obuf.length ↔ Writes s))
      (fun _ => True) :=
  connected_client_listens (quietClient [1]) (fun _ => 0) (fun _ => 0) ⟨some 4, .inProgress⟩ _
    (by decide +kernel)

/-- The `connect` of the constructor returns 0. -/
theorem connected_client_deaf :
    ¬ Ends (ClientState.actRun (quietClient [1]) (fun _ => 0) (fun _ => 0)
        ⟨some 4, .connected⟩ [])
      (fun s => s.netOk = true → Reads s ∧ (0 < s.obuf.length ↔ Writes s))
      (fun _ => True) := by
  intro h
  have hobs : (ClientState.actRun (quietClient [1]) (fun _ => 0) (fun _ => 0)
      ⟨some 4, .connected⟩ []).toOption.map
        (fun s => (s.netOk, s.evs.processEv s.sockfd .input)) = some (true, none) := by
    decide +kernel
  obtain ⟨s, hrun, hobs⟩ := ok_of_observed hobs
  obtain ⟨hnet, hev⟩ := Prod.mk.inj hobs
  have hreads : s.evs.processEv s.sockfd .input = some .readCb := (h.of_ok hrun hnet).1
  rw [hev] at hreads
  cases hreads

end EasyReactor.Client
