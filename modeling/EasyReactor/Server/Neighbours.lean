import EasyReactor.Server.Output

set_option autoImplicit false

/-!
# Server: what a connection leaves to the others

The connections of a `tcp_server` share the pool, the loop and `_curr_conns`.  Whatever
happens on one of them, and whatever its callbacks send, the buffers the others hold and
the registrations of their descriptors stay as they are.
-/

namespace EasyReactor.Server

open EasyReactor.Foundation EasyReactor.Buffer EasyReactor.Loop EasyReactor.Wire

/-- An action on the connection the callback was called for. -/
def UserAct.Own : UserAct → Prop
  | .sendData _ _ => True
  | .setParameter _ => True
  | .others _ => False

/-- Every callback acts on the connection it was called for only. -/
structure TcpServer.Private (srv : TcpServer) : Prop where
  message : ∀ cmdid func, srv.dispatcher.dispatcher.lookup cmdid = some func →
    ∀ hist usrData, ∀ act ∈ func hist usrData, act.Own
  build : ∀ cb, srv.connBuildCb = some cb → ∀ hist, ∀ act ∈ cb hist, act.Own
  close : ∀ cb, srv.connCloseCb = some cb → ∀ hist, ∀ act ∈ cb hist, act.Own

theorem private_quiet (table : List Int32) : (quietServer table).Private := by
  refine ⟨?_, nofun, nofun⟩
  intro cmdid func hfunc hist usrData act hact
  rw [lookup_quiet] at hfunc
  split at hfunc
  · obtain rfl := Option.some.inj hfunc
    cases hact
  · cases hfunc

/-- What the others see of a step from `s` to `s'`: nothing. -/
structure Spares (s s' : ConnState) : Prop where
  others : s'.others = s.others
  memory : ∀ b ∈ s.others, s'.pool.bufs b = s.pool.bufs b
  mask : ∀ fd, fd ≠ s.conn.connfd → s'.evs.mask fd = s.evs.mask fd

/-- The connection is still open. -/
structure Stays (s s' : ConnState) : Prop extends Spares s s' where
  attached : Attached s'
  connfd : s'.conn.connfd = s.conn.connfd
  currConns : s'.currConns = s.currConns

/-- The connection was cleaned. -/
structure Leaves (s s' : ConnState) : Prop extends Spares s s' where
  cleaned : Cleaned s'
  currConns : s'.currConns = s.currConns - 1
  unregistered : s'.evs.mask s.conn.connfd = 0

/-- A step after which the connection is still open, or was cleaned. -/
def Rests (s s' : ConnState) : Prop := Stays s s' ∨ Leaves s s'

variable {srv : TcpServer} {s s' s'' : ConnState}

theorem Spares.refl (s : ConnState) : Spares s s := ⟨rfl, fun _ _ => rfl, fun _ _ => rfl⟩

theorem Spares.trans (h : Spares s s') (h' : Spares s' s'')
    (hfd : s'.conn.connfd = s.conn.connfd) : Spares s s'' where
  others := h'.others.trans h.others
  memory b hb := (h'.memory b (h.others ▸ hb)).trans (h.memory b hb)
  mask fd hne := (h'.mask fd (hfd ▸ hne)).trans (h.mask fd hne)

theorem Attached.not_cleaned (h : Attached s) : ¬ Cleaned s := by
  intro hc
  have hfd := h.fd
  rw [hc.connfd] at hfd
  omega

theorem Stays.refl (h : Attached s) : Stays s s := ⟨.refl s, h, rfl, rfl⟩

theorem Stays.trans (h : Stays s s') (h' : Stays s' s'') : Stays s s'' :=
  ⟨h.toSpares.trans h'.toSpares h.connfd, h'.attached, h'.connfd.trans h.connfd,
    h'.currConns.trans h.currConns⟩

theorem Stays.rests (h : Stays s s') (h' : Rests s' s'') : Rests s s'' := by
  cases h' with
  | inl h' => exact .inl (h.trans h')
  | inr h' =>
    refine .inr ⟨h.toSpares.trans h'.toSpares h.connfd, h'.cleaned, ?_, ?_⟩
    · rw [h'.currConns, h.currConns]
    · rw [← h.connfd]
      exact h'.unregistered

/-! ## Sending -/

theorem Attached.setObuf_stays (h : Attached s) {p : BufferPool} {buf : TcpBuffer}
    (hk : Keeps (s.conn.ibuf.toList ++ s.others) s.pool p buf) : Stays s (s.setObuf p buf) :=
  ⟨⟨rfl, fun b hb => hk.others b (List.mem_append_right _ hb), fun _ _ => rfl⟩,
    (h.setObuf hk).1, rfl, rfl⟩

theorem Attached.setIbuf_stays (h : Attached s) {p : BufferPool} {buf : TcpBuffer}
    (hk : Keeps (s.conn.obuf.toList ++ s.others) s.pool p buf) : Stays s (s.setIbuf p buf) :=
  ⟨⟨rfl, fun b hb => hk.others b (List.mem_append_right _ hb), fun _ _ => rfl⟩,
    ⟨hk.inv, h.loop, h.fd, h.unwatched⟩, rfl, rfl⟩

theorem Attached.addIoev_stays (h : Attached s) (proc : ConnIo) (m : Mask) :
    Stays s { s with evs := s.evs.addIoev s.conn.connfd proc m none } := by
  have hfd := h.fd
  refine ⟨⟨rfl, fun _ _ => rfl, fun fd hne => ?_⟩, ⟨h.inv, h.loop, h.fd, ?_⟩, rfl, rfl⟩
  · change (s.evs.addIoev s.conn.connfd proc m none).mask fd = _
    rw [EventLoop.mask_addIoev, if_neg hne]
  · change (s.evs.addIoev s.conn.connfd proc m none).mask (-1) = 0
    rw [EventLoop.mask_addIoev, if_neg (by omega)]
    exact h.unwatched

theorem sendData_stays (h : Attached s) (data : List UInt8) (cmdid : Int32) :
    Ends (s.sendData data cmdid) (fun r => Stays s r.1) (fun _ => True) := by
  unfold ConnState.sendData
  apply (TcpBuffer.sendData_keeps h.inv_obuf _).bind
  rintro ⟨p, buf, ret⟩ hk
  have h₁ := h.setObuf_stays hk
  simp only
  split
  next => exact h₁
  next =>
    apply (TcpBuffer.sendData_keeps h₁.attached.inv_obuf _).bind
    rintro ⟨p₂, buf₂, ret₂⟩ hk₂
    have h₂ := h₁.trans (h₁.attached.setObuf_stays hk₂)
    simp only
    split
    next =>
      apply ((TcpBuffer.pop_keeps h₂.attached.inv_obuf _).imp (fun _ hr => hr)
        (fun _ _ => trivial)).bind
      rintro ⟨p₃, buf₃⟩ hk₃
      exact h₂.trans (h₂.attached.setObuf_stays hk₃)
    next =>
      split
      next =>
        split
        next => trivial
        next => exact h₂.trans (h₂.attached.addIoev_stays .tcpWcb epollOut)
      next => exact h₂

theorem send_stays (h : Attached s) (data : List UInt8) (cmdid : Int32) :
    Ends (s.send data cmdid) (Stays s) (fun _ => True) := by
  unfold ConnState.send
  apply (sendData_stays h data cmdid).bind
  rintro ⟨s', ret⟩ h'
  have ha := h'.attached
  have hlogged : ∀ accepted refused, Stays s { s' with accepted := accepted, refused := refused } :=
    fun _ _ => ⟨⟨h'.others, h'.memory, h'.mask⟩, ⟨ha.inv, ha.loop, ha.fd, ha.unwatched⟩, h'.connfd,
      h'.currConns⟩
  simp only
  split
  next => exact hlogged _ s'.refused
  next => exact hlogged s'.accepted _

/-- No buffer is larger than the largest class. -/
theorem Attached.pending_le (h : Attached s) {off : Nat} {pending : List UInt8}
    (hheld : Holds s.pool s.conn.obuf off pending) : pending.length ≤ 8388608 := by
  cases hb : s.conn.obuf with
  | none =>
    rw [hb] at hheld
    obtain rfl : pending = [] := hheld
    exact Nat.zero_le _
  | some b =>
    have hinv := h.inv_obuf
    rw [hb] at hheld hinv
    have w : Window (s.pool.bufs b) off pending := hheld
    have hfits := w.fits
    have hcap := hinv.capacity (b := b) (by simp)
    omega

/-! ## Callbacks -/

theorem perform_stays (h : Attached s) {act : UserAct} (hown : act.Own) :
    Ends (s.perform act) (Stays s) (fun _ => True) := by
  cases act with
  | sendData data cmdid => exact send_stays h data cmdid
  | setParameter v =>
    exact ⟨⟨rfl, fun _ _ => rfl, fun _ _ => rfl⟩, ⟨h.inv, h.loop, h.fd, h.unwatched⟩, rfl, rfl⟩
  | others c => exact hown.elim

theorem callback_stays (h : Attached s) {acts : List UserAct} (hown : ∀ act ∈ acts, act.Own) :
    Ends (s.callback acts) (Stays s) (fun _ => True) := by
  have hrun : Ends (acts.foldlM ConnState.perform s) (Stays s) (fun _ => True) := by
    refine Ends.foldlM (P := fun _ => Stays s) ?_ (.refl h)
    intro done act post s₁ hacts h₁
    have hmem : act ∈ acts := by simp [hacts]
    exact (perform_stays h₁.attached (hown act hmem)).imp (fun _ h₂ => h₁.trans h₂)
      (fun _ _ => trivial)
  unfold ConnState.callback
  cases hf : acts.foldlM ConnState.perform s with
  | ok s' => exact hrun.of_ok hf
  | error g => trivial

theorem callIf_stays (h : Attached s) {cb : Option ConnCallback}
    (hown : ∀ f, cb = some f → ∀ hist, ∀ act ∈ f hist, act.Own) :
    Ends (s.callIf cb) (Stays s) (fun _ => True) := by
  cases cb with
  | none => exact Stays.refl h
  | some f => exact callback_stays h (hown f rfl _)

/-- `clean_conn` takes the connection's own registration and buffers away, and its place in
the count. -/
theorem cleanConn_leaves (hsrv : srv.Private) (h : Attached s) :
    Ends (s.cleanConn srv) (Leaves s) (fun _ => True) := by
  have hcleaned : Ends (s.cleanConn srv) Cleaned (fun _ => True) :=
    (cleanConn_ends h).imp (fun _ hs => hs.1) (fun _ _ => trivial)
  have hspared : Ends (s.cleanConn srv)
      (fun s' => Spares s s' ∧ s'.currConns = s.currConns - 1 ∧ s'.evs.mask s.conn.connfd = 0)
      (fun _ => True) := by
    unfold ConnState.cleanConn
    apply (callIf_stays h hsrv.close).bind
    intro s₁ h₁
    simp only
    split
    next => trivial
    next =>
      obtain ⟨p, hp, hk⟩ := TcpBuffer.clear_eq h₁.attached.inv
      rw [hp, ok_bind]
      have hinv : PoolInv p (s₁.conn.obuf.toList ++ s₁.others) := hk.inv
      obtain ⟨q, hq, hk'⟩ := TcpBuffer.clear_eq hinv
      simp only [ConnState.setIbuf]
      rw [hq, ok_bind]
      have hmask : ∀ fd, ((s₁.evs.delIoev s₁.conn.connfd).closeFd s₁.conn.connfd).mask fd =
          if fd = s₁.conn.connfd then 0 else s₁.evs.mask fd := fun fd => by
        rw [EventLoop.mask_closeFd, EventLoop.mask_delIoev]
      have hfd := h₁.connfd
      refine ⟨⟨h₁.others, fun b hb => ?_, fun fd hne => ?_⟩, ?_, ?_⟩
      · have hb₁ : b ∈ s₁.others := by
          rw [h₁.others]
          exact hb
        have hq' := hk'.others b hb₁
        have hp' := hk.others b (List.mem_append_right _ hb₁)
        exact hq'.trans (hp'.trans (h₁.memory b hb))
      · change ((s₁.evs.delIoev s₁.conn.connfd).closeFd s₁.conn.connfd).mask fd = _
        rw [hmask, if_neg (by rw [hfd]; exact hne), h₁.mask fd hne]
      · change s₁.currConns - 1 = _
        rw [h₁.currConns]
      · change ((s₁.evs.delIoev s₁.conn.connfd).closeFd s₁.conn.connfd).mask _ = 0
        rw [hmask, if_pos hfd.symm]
  apply (hcleaned.and_post hspared).imp _ (fun _ he => he)
  rintro s' ⟨hc, hsp, hcount, hmask⟩
  exact ⟨hsp, hc, hcount, hmask⟩

/-- A new connection on an object without buffers. -/
structure Joins (fd : Nat) (s s' : ConnState) : Prop where
  others : s'.others = s.others
  memory : ∀ b ∈ s.others, s'.pool.bufs b = s.pool.bufs b
  mask : ∀ e : Int, e ≠ fd → s'.evs.mask e = s.evs.mask e
  connfd : s'.conn.connfd = fd
  currConns : s'.currConns = s.currConns + 1
  isOpen : Open s'
  live : Live s' 0 []
  dispatched : s'.dispatched = s.dispatched

/-- An object without buffers, and nothing logged for its next connection. -/
structure Blank (s : ConnState) : Prop where
  inv : PoolInv s.pool s.others
  ibuf : s.conn.ibuf = none
  obuf : s.conn.obuf = none
  unwatched : s.evs.mask (-1) = 0
  accepted : s.accepted = []
  sent : s.sent = []

theorem init_joins (hsrv : srv.Private) (h : Blank s) (connfd loop : Nat) :
    Ends (s.init srv connfd loop) (Joins connfd s) (fun e => ∃ g, e = .callback g) := by
  unfold ConnState.init
  have hopen : Open { s with conn := { s.conn with connfd := connfd, loop := some loop } } := by
    refine ⟨⟨?_, by simp, Int.natCast_nonneg _, h.unwatched⟩, fun _ => ⟨[], ?_, ?_⟩⟩
    · change PoolInv s.pool (s.conn.ibuf.toList ++ (s.conn.obuf.toList ++ s.others))
      rw [h.ibuf, h.obuf]
      exact h.inv
    · change Holds s.pool s.conn.obuf 0 []
      rw [h.obuf]
      rfl
    · change s.sent ++ [] = frames s.accepted
      rw [h.sent, h.accepted]
      rfl
  have hundisturbed := (callIf_ends hopen.attached srv.connBuildCb).imp
    (fun _ hs => hs.2.1) (fun _ _ => trivial)
  apply (((callIf_open hopen srv.connBuildCb).and_post
    (callIf_stays hopen.attached hsrv.build)).and_post hundisturbed).bind
  rintro s₁ ⟨⟨hopen₁, h₁⟩, hu⟩
  have hadd := h₁.attached.addIoev_stays .tcpRcb epollIn
  have ha := hadd.attached
  have hfd : s₁.conn.connfd = connfd := h₁.connfd
  have hattached : Attached { s₁ with
      evs := s₁.evs.addIoev s₁.conn.connfd .tcpRcb epollIn none
      currConns := s₁.currConns + 1 } := ⟨ha.inv, ha.loop, ha.fd, ha.unwatched⟩
  refine ⟨h₁.others, h₁.memory, fun e he => ?_, hfd, ?_, ⟨hattached, hopen₁.outflow⟩,
    ⟨hattached, ?_, EventLoop.watches_addIoev_self (by decide)⟩, hu.dispatched⟩
  · exact (hadd.mask e (by rw [hfd]; exact he)).trans (h₁.mask e he)
  · change s₁.currConns + 1 = _
    rw [h₁.currConns]
  · change Holds s₁.pool s₁.conn.ibuf 0 []
    rw [hu.ibuf]
    change Holds s₁.pool s.conn.ibuf 0 []
    rw [h.ibuf]
    rfl

/-! ## Reading -/

theorem dispatch_stays (hsrv : srv.Private) (h : Attached s) (head : CommuHead) :
    Ends (s.dispatch srv head) (Stays s) (fun _ => True) := by
  unfold ConnState.dispatch
  apply (Ends.any _).bind
  rintro body -
  cases hcb : srv.dispatcher.cb head.cmdid with
  | error e => trivial
  | ok r =>
    obtain ⟨func, usrData⟩ := r
    have hlookup : srv.dispatcher.dispatcher.lookup head.cmdid = some func := by
      unfold MsgDispatcher.cb at hcb
      split at hcb
      next => cases hcb
      next func' hfunc' =>
        obtain ⟨rfl, -⟩ := Prod.mk.inj (Except.ok.inj hcb)
        exact hfunc'
    rw [ok_bind]
    have h₁ : Stays s { s with dispatched := s.dispatched ++ [⟨head.cmdid, body⟩] } :=
      ⟨⟨rfl, fun _ _ => rfl, fun _ _ => rfl⟩, ⟨h.inv, h.loop, h.fd, h.unwatched⟩, rfl, rfl⟩
    exact (callback_stays h₁.attached (hsrv.message _ _ hlookup _ _)).imp
      (fun _ h₂ => h₁.trans h₂) (fun _ _ => trivial)

theorem popIbuf_stays (h : Attached s) (len : Int) :
    Ends (s.conn.ibuf.pop s.pool len) (fun r => Stays s (s.setIbuf r.1 r.2)) (fun _ => True) :=
  (TcpBuffer.pop_keeps h.inv len).imp (fun _ hk => h.setIbuf_stays hk) (fun _ _ => trivial)

theorem takeFrame_stays (hsrv : srv.Private) (h : Attached s) (head : CommuHead) :
    Ends (s.takeFrame srv head) (Stays s) (fun _ => True) := by
  unfold ConnState.takeFrame
  apply (popIbuf_stays h _).bind
  rintro ⟨p, buf⟩ h₁
  apply (dispatch_stays hsrv h₁.attached head).bind
  intro s₂ h₂
  apply (popIbuf_stays h₂.attached _).bind
  rintro ⟨p₃, buf₃⟩ h₃
  exact h₁.trans (h₂.trans h₃)

theorem cleanConn_rests (hsrv : srv.Private) (h : Attached s) :
    Ends (s.cleanConn srv) (Rests s) (fun _ => True) :=
  (cleanConn_leaves hsrv h).imp (fun _ hs => .inr hs) (fun _ _ => trivial)

theorem readLoop_rests (hsrv : srv.Private) (fuel : Nat) (h : Attached s) :
    Ends (ConnState.readLoop srv fuel s) (Rests s) (fun _ => True) := by
  induction fuel generalizing s with
  | zero => trivial
  | succ fuel ih =>
    unfold ConnState.readLoop
    split
    · apply (Ends.any _).bind
      rintro bs -
      simp only
      split
      · exact cleanConn_rests hsrv h
      · split
        · exact .inl (.refl h)
        · split
          · exact cleanConn_rests hsrv h
          · apply (takeFrame_stays hsrv h _).bind
            intro s₁ h₁
            exact (ih h₁.attached).imp (fun _ h₂ => h₁.rests h₂) (fun _ _ => trivial)
    · exact .inl (.refl h)

theorem handleRead_rests (hsrv : srv.Private) (h : Attached s) (r : Recv) :
    Ends (s.handleRead srv r) (Rests s) (fun _ => True) := by
  unfold ConnState.handleRead
  apply (TcpBuffer.readData_keeps h.inv r).bind
  rintro ⟨p, buf, ret⟩ hk
  have h₁ := h.setIbuf_stays hk
  have hclean : Ends ((s.setIbuf p buf).cleanConn srv) (Rests s) (fun _ => True) :=
    (cleanConn_rests hsrv h₁.attached).imp (fun _ hs => h₁.rests hs) (fun _ _ => trivial)
  simp only
  split
  · exact hclean
  · split
    · exact hclean
    · apply (readLoop_rests hsrv _ h₁.attached).bind
      intro s₂ hs₂
      cases hs₂ with
      | inl h₂ =>
        apply (TcpBuffer.adjust_keeps h₂.attached.inv).bind
        intro q hq
        exact .inl (h₁.trans (h₂.trans (h₂.attached.setIbuf_stays hq)))
      | inr h₂ =>
        -- nothing is left to be moved
        rw [h₂.cleaned.ibuf]
        exact h₁.rests (.inr h₂)

/-- A read that fails closes the connection, and nothing is dispatched. -/
theorem handleRead_broken (srv : TcpServer) (h : Attached s) {pend : List UInt8}
    (hheld : Holds s.pool s.conn.ibuf 0 pend) (rn : Nat) (hlt : pend.length + rn < 2147483648) :
    Ends (s.handleRead srv ⟨some rn, .error⟩)
      (fun s' => Cleaned s' ∧ s'.dispatched = s.dispatched)
      (fun e => e = .exit ∨ ∃ g, e = .callback g) := by
  unfold ConnState.handleRead
  have hfails : Ends (s.conn.ibuf.readData s.pool ⟨some rn, .error⟩) (fun r => r.2.2 = -1)
      (fun e => e = .exit) := by
    unfold TcpBuffer.readData
    apply ((TcpBuffer.makeRoom_ends .readHead h.inv rn).imp (fun _ _ => trivial) _).bind
    · rintro ⟨p, room⟩ (_ : True)
      cases room with
      | none => rfl
      | some b => rfl
    · intro e he
      cases he pend hheld with
      | inl hexit => exact hexit.1
      | inr hover => omega
  apply ((hfails.and_post (TcpBuffer.readData_keeps h.inv _)).imp (fun _ hs => hs)
    (fun _ he => .inl he)).bind
  rintro ⟨p, buf, ret⟩ ⟨hret, hk⟩
  have hret : ret = -1 := hret
  have h₁ := (h.setIbuf_stays hk).attached
  simp only
  rw [if_pos hret]
  exact (cleanConn_ends h₁).imp (fun _ hs => ⟨hs.1, hs.2.1⟩) (fun _ he => he.1)

/-! ## Writing -/

/-- What `handle_write` does to the connection's own registration and input. -/
structure Writes (s s' : ConnState) : Prop extends Stays s s' where
  ibuf : s'.conn.ibuf = s.conn.ibuf
  memory_ibuf : ∀ b ∈ s.conn.ibuf.toList, s'.pool.bufs b = s.pool.bufs b
  dispatched : s'.dispatched = s.dispatched
  accepted : s'.accepted = s.accepted
  reading : s.evs.Watches s.conn.connfd epollIn → s'.evs.Watches s'.conn.connfd epollIn

theorem Writes.trans (h : Writes s s') (h' : Writes s' s'') : Writes s s'' where
  toStays := h.toStays.trans h'.toStays
  ibuf := h'.ibuf.trans h.ibuf
  memory_ibuf b hb := (h'.memory_ibuf b (h.ibuf ▸ hb)).trans (h.memory_ibuf b hb)
  dispatched := h'.dispatched.trans h.dispatched
  accepted := h'.accepted.trans h.accepted
  reading hw := h'.reading (h.reading hw)

theorem Writes.refl (h : Attached s) : Writes s s :=
  ⟨.refl h, rfl, fun _ _ => rfl, rfl, rfl, fun hw => hw⟩

/-- A connection that `handle_write` cleans has dispatched nothing more. -/
def Written.Rests (s s' : ConnState) : Prop :=
  Writes s s' ∨ Leaves s s' ∧ s'.dispatched = s.dispatched

theorem Attached.written_writes (h : Attached s) {b : BufId} (hb : s.conn.obuf = some b)
    {p : BufferPool} (hk : Keeps (s.conn.ibuf.toList ++ s.others) s.pool p (some b))
    (sent : List UInt8) : Writes s { s with pool := p, sent := sent } :=
  ⟨⟨⟨rfl, fun a ha => hk.others a (List.mem_append_right _ ha), fun _ _ => rfl⟩,
      h.written hb hk sent, rfl, rfl⟩, rfl,
    fun a ha => hk.others a (List.mem_append_left _ ha), rfl, rfl, fun hw => hw⟩

theorem cleanConn_written (hsrv : srv.Private) (h : Attached s) :
    Ends (s.cleanConn srv) (fun s' => Leaves s s' ∧ s'.dispatched = s.dispatched)
      (fun _ => True) :=
  (cleanConn_leaves hsrv h).and_post
    ((cleanConn_ends h).imp (fun _ hs => hs.2.1) (fun _ _ => trivial))

theorem writeLoop_rests (hsrv : srv.Private) {fuel : Nat} (h : Open s) {ws : List WriteResult}
    (hfuel : ws.length < fuel) :
    Ends (ConnState.writeLoop srv fuel s ws)
      (fun r => if r.2 then Leaves s r.1 ∧ r.1.dispatched = s.dispatched
        else Writes s r.1 ∧ Open r.1) (fun _ => True) := by
  apply writeLoop_rule (I := fun s₁ _ => Writes s s₁ ∧ Open s₁) _ _ hfuel ⟨.refl h.attached, h⟩
  · exact fun s₁ ws h₁ _ => h₁
  · rintro s₁ ws b ⟨hw₁, h₁⟩ hb -
    have hinv := h₁.attached.inv_obuf
    rw [hb] at hinv
    apply (TcpBuffer.writeFd_ends hinv ws).imp _ (fun _ _ => trivial)
    rintro w ⟨hk, -, hret, hmove⟩
    have h₂ := h₁.written hb hk hmove
    have hw₂ := hw₁.trans (h₁.attached.written_writes hb hk (s₁.sent ++ w.taken))
    refine ⟨fun _ => ?_, fun _ => ⟨hw₂, h₂⟩, fun hfail hzero => ⟨?_, hw₂, h₂⟩⟩
    · apply (cleanConn_written hsrv h₂.attached).imp _ (fun _ he => he)
      rintro s₃ ⟨h₃, hd⟩
      have hrests := hw₂.toStays.rests (.inr h₃)
      refine ⟨hrests.resolve_left fun hst => ?_, hd.trans hw₂.dispatched⟩
      have hfd := hst.attached.fd
      rw [h₃.cleaned.connfd] at hfd
      omega
    · rcases hret with ⟨-, -, hlt⟩ | ⟨h0, -⟩ | ⟨h1, -⟩
      · exact hlt
      · exact absurd h0 hzero
      · exact absurd h1 hfail

theorem handleWrite_rests (hsrv : srv.Private) (h : Open s) (ws : List WriteResult) :
    Ends (s.handleWrite srv ws) (Written.Rests s) (fun _ => True) := by
  unfold ConnState.handleWrite
  apply (writeLoop_rests hsrv h (Nat.lt_succ_self _)).bind
  rintro ⟨s', cleaned⟩ hr
  cases cleaned with
  | true => exact .inr hr
  | false =>
    obtain ⟨hw, -⟩ : Writes s s' ∧ Open s' := hr
    have ha := hw.attached
    have hfd := ha.fd
    simp only [Bool.false_eq_true, if_false]
    split
    next =>
      split
      next => trivial
      next =>
        refine .inl (hw.trans ⟨⟨⟨rfl, fun _ _ => rfl, fun fd hne => ?_⟩,
          ⟨ha.inv, ha.loop, ha.fd, ?_⟩, rfl, rfl⟩, rfl, fun _ _ => rfl, rfl, rfl, fun hin => ?_⟩)
        · change (s'.evs.delIoevMask s'.conn.connfd epollOut).mask fd = _
          rw [EventLoop.mask_delIoevMask, if_neg hne]
        · change (s'.evs.delIoevMask s'.conn.connfd epollOut).mask (-1) = 0
          rw [EventLoop.mask_delIoevMask, if_neg (by omega)]
          exact ha.unwatched
        · exact hin.delIoevMask (by decide)
    next => exact .inl hw

/-! ## What the socket took -/

/-- The socket took the start of the frames accepted, unless one was refused. -/
def Sends (s : ConnState) : Prop := s.refused = 0 → s.sent <+: frames s.accepted

theorem Open.sends (h : Open s) : Sends s := by
  intro href
  obtain ⟨pending, -, hsent⟩ := h.outflow href
  exact ⟨pending, hsent⟩

theorem cleanConn_sends (h : Open s) : Ends (s.cleanConn srv) Sends (fun _ => True) := by
  unfold ConnState.cleanConn
  apply ((callIf_open h srv.connCloseCb).imp (fun _ hs => hs) (fun _ _ => trivial)).bind
  intro s₁ h₁
  simp only
  split
  next => trivial
  next =>
    apply (Ends.any _).bind
    rintro ⟨p, ibuf⟩ -
    apply (Ends.any _).bind
    rintro ⟨q, obuf⟩ -
    exact h₁.sends

theorem readLoop_sends (fuel : Nat) (h : Open s) :
    Ends (ConnState.readLoop srv fuel s) Sends (fun _ => True) := by
  induction fuel generalizing s with
  | zero => trivial
  | succ fuel ih =>
    unfold ConnState.readLoop
    split
    · apply (Ends.any _).bind
      rintro bs -
      simp only
      split
      · exact cleanConn_sends h
      · split
        · exact h.sends
        · split
          · exact cleanConn_sends h
          · apply (takeFrame_open h _).bind
            intro s₁ h₁
            exact ih h₁
    · exact h.sends

theorem handleRead_sends (h : Open s) (r : Recv) :
    Ends (s.handleRead srv r) Sends (fun _ => True) := by
  unfold ConnState.handleRead
  apply (TcpBuffer.readData_keeps h.attached.inv r).bind
  rintro ⟨p, buf, ret⟩ hk
  have h₁ := h.setIbuf hk
  simp only
  split
  · exact cleanConn_sends h₁
  · split
    · exact cleanConn_sends h₁
    · apply (readLoop_sends _ h₁).bind
      intro s₂ h₂
      apply (Ends.any _).bind
      intro q _
      exact h₂

theorem handleWrite_sends (h : Open s) (ws : List WriteResult) :
    Ends (s.handleWrite srv ws) Sends (fun _ => True) := by
  have hloop : Ends (ConnState.writeLoop srv (ws.length + 1) s ws) (fun r => Sends r.1)
      (fun _ => True) := by
    apply writeLoop_rule (I := fun s _ => Open s) _ _ (Nat.lt_succ_self _) h
    · exact fun s ws h _ => h.sends
    · intro s ws b h hb _
      have hinv := h.attached.inv_obuf
      rw [hb] at hinv
      apply (TcpBuffer.writeFd_ends hinv ws).imp _ (fun _ _ => trivial)
      rintro w ⟨hk, -, hret, hmove⟩
      have h₁ := h.written hb hk hmove
      refine ⟨fun _ => cleanConn_sends h₁, fun _ => h₁.sends, fun hfail hzero => ⟨?_, h₁⟩⟩
      rcases hret with ⟨-, -, hlt⟩ | ⟨h0, -⟩ | ⟨h1, -⟩
      · exact hlt
      · exact absurd h0 hzero
      · exact absurd h1 hfail
  unfold ConnState.handleWrite
  apply hloop.bind
  rintro ⟨s', cleaned⟩ hr
  have h' : Sends s' := hr
  simp only
  split
  next => exact h'
  next =>
    split
    next =>
      split
      next => trivial
      next => exact h'
    next => exact h'

end EasyReactor.Server
