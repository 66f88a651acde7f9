import EasyReactor.Server.Interest
import EasyReactor.Server.Neighbours

set_option autoImplicit false

/-!
# Server: write interest beside other connections

On a loop that serves other descriptors too, a connection is registered for `EPOLLOUT`
exactly while `obuf` holds something.  `Eager` says it of one connection and asks nothing
of the rest of the loop, so a step on another connection keeps it.
-/

namespace EasyReactor.Server

open EasyReactor.Foundation EasyReactor.Buffer EasyReactor.Loop EasyReactor.Wire

/-- An open connection that is called to write whenever it has something to. -/
structure Eager (s : ConnState) : Prop where
  attached : Attached s
  output : ∃ off pending, Holds s.pool s.conn.obuf off pending
  interest : s.evs.Watches s.conn.connfd epollOut ↔ s.conn.obuf.length s.pool ≠ 0

/-- After a step: a connection that is eager, or none. -/
def Heeds (s : ConnState) : Prop := Eager s ∨ Cleaned s

variable {srv : TcpServer} {s s' : ConnState}

/-- Only `obuf` and the connection's own registration matter to it. -/
theorem Eager.of_same (h : Eager s) (ha : Attached s') (hobuf : s'.conn.obuf = s.conn.obuf)
    (hmem : ∀ b ∈ s.conn.obuf.toList, s'.pool.bufs b = s.pool.bufs b)
    (hmask : s'.evs.mask s'.conn.connfd = s.evs.mask s.conn.connfd) : Eager s' := by
  obtain ⟨off, pending, hheld⟩ := h.output
  have hheld' : Holds s'.pool s'.conn.obuf off pending := by
    rw [hobuf]
    exact hheld.congr hmem
  have hlen : s'.conn.obuf.length s'.pool = s.conn.obuf.length s.pool := by
    rw [hheld'.length, hheld.length]
  refine ⟨ha, ⟨off, pending, hheld'⟩, ?_⟩
  have hinterest := h.interest
  unfold EventLoop.Watches at hinterest ⊢
  rw [hmask, hlen]
  exact hinterest

theorem cleanConn_heeds (h : Attached s) :
    Ends (s.cleanConn srv) Heeds (fun _ => True) :=
  (cleanConn_ends h).imp (fun _ hs => .inr hs.1) (fun _ _ => trivial)

/-! ## Sending -/

/-- `send_data`, whether it appends the frame or takes the header back. -/
theorem sendData_eager (h : Eager s) (data : List UInt8) (cmdid : Int32) :
    Ends (s.sendData data cmdid) (fun r => Eager r.1) (fun _ => True) := by
  have hhead := CommuHead.length_bytes ⟨cmdid, .ofInt data.length⟩
  have hwidth := commuHeadLength_eq
  obtain ⟨off, pending, hheld⟩ := h.output
  have hpending := hheld.length
  apply ((sendData_ends h.attached.inv_obuf hheld data cmdid).and_post
    (sendData_stays h.attached data cmdid)).imp _ (fun _ _ => trivial)
  rintro r ⟨hr, hstays⟩
  have ha := hstays.attached
  cases hr with
  | refused => exact h
  | @takenBack p buf hk hheld₁ hemptied =>
    have hlen₁ : buf.length p = s.conn.obuf.length s.pool := by
      rw [hheld₁.length, hpending, List.length_drop, List.length_append, hhead]
      omega
    refine ⟨ha, ⟨_, _, hheld₁⟩, ?_⟩
    change s.evs.Watches s.conn.connfd epollOut ↔ buf.length p ≠ 0
    rw [hlen₁]
    exact h.interest
  | @accepted p buf hk hheld₁ =>
    have hlen₁ : buf.length p ≠ 0 := by
      rw [hheld₁.length, List.length_append, Msg.length_frame]
      omega
    refine ⟨ha, ⟨_, _, hheld₁⟩, fun _ => hlen₁, fun _ => ?_⟩
    change EventLoop.Watches (if _ then _ else _) _ _
    split
    next => exact EventLoop.watches_addIoev_self (by decide)
    next hneed => exact h.interest.mpr hneed

theorem send_eager (h : Eager s) (data : List UInt8) (cmdid : Int32) :
    Ends (s.send data cmdid) Eager (fun _ => True) := by
  unfold ConnState.send
  apply (sendData_eager h data cmdid).bind
  rintro ⟨s', ret⟩ h'
  have ha := h'.attached
  simp only
  split
  next => exact ⟨⟨ha.inv, ha.loop, ha.fd, ha.unwatched⟩, h'.output, h'.interest⟩
  next => exact ⟨⟨ha.inv, ha.loop, ha.fd, ha.unwatched⟩, h'.output, h'.interest⟩

/-! ## Callbacks -/

theorem perform_eager (h : Eager s) {act : UserAct} (hown : act.Own) :
    Ends (s.perform act) Eager (fun _ => True) := by
  cases act with
  | sendData data cmdid => exact send_eager h data cmdid
  | setParameter v =>
    have ha := h.attached
    exact ⟨⟨ha.inv, ha.loop, ha.fd, ha.unwatched⟩, h.output, h.interest⟩
  | others c => exact hown.elim

theorem callback_eager (h : Eager s) {acts : List UserAct} (hown : ∀ act ∈ acts, act.Own) :
    Ends (s.callback acts) Eager (fun _ => True) := by
  have hrun : Ends (acts.foldlM ConnState.perform s) Eager (fun _ => True) := by
    refine Ends.foldlM (P := fun _ => Eager) ?_ h
    intro done act post s₁ hacts h₁
    have hmem : act ∈ acts := by simp [hacts]
    exact perform_eager h₁ (hown act hmem)
  unfold ConnState.callback
  cases hf : acts.foldlM ConnState.perform s with
  | ok s' => exact hrun.of_ok hf
  | error g => trivial

theorem callIf_eager (h : Eager s) {cb : Option ConnCallback}
    (hown : ∀ f, cb = some f → ∀ hist, ∀ act ∈ f hist, act.Own) :
    Ends (s.callIf cb) Eager (fun _ => True) := by
  cases cb with
  | none => exact h
  | some f => exact callback_eager h (hown f rfl _)

/-- A new connection, on a descriptor that the loop does not know. -/
theorem init_eager (hsrv : srv.Private) (h : Blank s) (connfd loop : Nat)
    (hidle : s.evs.mask connfd = 0) : Ends (s.init srv connfd loop) Eager (fun _ => True) := by
  unfold ConnState.init
  have h₀ : Eager { s with conn := { s.conn with connfd := connfd, loop := some loop } } := by
    refine ⟨⟨?_, by simp, Int.natCast_nonneg _, h.unwatched⟩, ⟨0, [], ?_⟩, ?_⟩
    · change PoolInv s.pool (s.conn.ibuf.toList ++ (s.conn.obuf.toList ++ s.others))
      rw [h.ibuf, h.obuf]
      exact h.inv
    · change Holds s.pool s.conn.obuf 0 []
      rw [h.obuf]
      rfl
    · change s.evs.mask connfd &&& epollOut ≠ 0 ↔ s.conn.obuf.length s.pool ≠ 0
      rw [hidle, h.obuf]
      exact ⟨fun hz => absurd BitVec.zero_and hz, fun hz => absurd rfl hz⟩
  apply (callIf_eager h₀ hsrv.build).bind
  intro s₁ h₁
  have ha := (h₁.attached.addIoev_stays .tcpRcb epollIn).attached
  refine ⟨⟨ha.inv, ha.loop, ha.fd, ha.unwatched⟩, h₁.output, fun hw => ?_, fun hne => ?_⟩
  · exact h₁.interest.mp (EventLoop.watches_addIoev_in hw)
  · exact (h₁.interest.mpr hne).addIoev

/-! ## Reading -/

/-- A call that keeps to `ibuf`. -/
theorem Eager.setIbuf (h : Eager s) {p : BufferPool} {buf : TcpBuffer}
    (hk : Keeps (s.conn.obuf.toList ++ s.others) s.pool p buf) : Eager (s.setIbuf p buf) :=
  h.of_same (h.attached.setIbuf_stays hk).attached rfl
    (fun b hb => hk.others b (List.mem_append_left _ hb)) rfl

theorem dispatch_eager (hsrv : srv.Private) (h : Eager s) (head : CommuHead) :
    Ends (s.dispatch srv head) Eager (fun _ => True) := by
  unfold ConnState.dispatch
  apply (Ends.any _).bind
  rintro body -
  cases hcb : srv.dispatcher.cb head.cmdid with
  | error e => trivial
  | ok r =>
    obtain ⟨func, usrData⟩ := r
    have hlookup : srv.dispatcher.dispatcher.lookup head.cmdid = some func := by
      unfold MsgDispatcher.cb at hcb
      split at hcb
      next => cases hcb
      next func' hfunc' =>
        obtain ⟨rfl, -⟩ := Prod.mk.inj (Except.ok.inj hcb)
        exact hfunc'
    rw [ok_bind]
    have ha := h.attached
    have h₁ : Eager { s with dispatched := s.dispatched ++ [⟨head.cmdid, body⟩] } :=
      ⟨⟨ha.inv, ha.loop, ha.fd, ha.unwatched⟩, h.output, h.interest⟩
    exact callback_eager h₁ (hsrv.message _ _ hlookup _ _)

theorem popIbuf_eager (h : Eager s) (len : Int) :
    Ends (s.conn.ibuf.pop s.pool len) (fun r => Eager (s.setIbuf r.1 r.2)) (fun _ => True) :=
  (TcpBuffer.pop_keeps h.attached.inv len).imp (fun _ hk => h.setIbuf hk) (fun _ _ => trivial)

theorem takeFrame_eager (hsrv : srv.Private) (h : Eager s) (head : CommuHead) :
    Ends (s.takeFrame srv head) Eager (fun _ => True) := by
  unfold ConnState.takeFrame
  apply (popIbuf_eager h _).bind
  rintro ⟨p, buf⟩ h₁
  apply (dispatch_eager hsrv h₁ head).bind
  intro s₂ h₂
  apply (popIbuf_eager h₂ _).bind
  rintro ⟨p₃, buf₃⟩ h₃
  exact h₃

theorem readLoop_heeds (hsrv : srv.Private) (fuel : Nat) (h : Eager s) :
    Ends (ConnState.readLoop srv fuel s) Heeds (fun _ => True) := by
  induction fuel generalizing s with
  | zero => trivial
  | succ fuel ih =>
    unfold ConnState.readLoop
    split
    next =>
      apply (Ends.any _).bind
      rintro bs -
      simp only
      split
      next => exact cleanConn_heeds h.attached
      next =>
        split
        next => exact .inl h
        next =>
          split
          next => exact cleanConn_heeds h.attached
          next => exact (takeFrame_eager hsrv h _).bind fun _ h₁ => ih h₁
    next => exact .inl h

theorem handleRead_heeds (hsrv : srv.Private) (h : Eager s) (r : Recv) :
    Ends (s.handleRead srv r) Heeds (fun _ => True) := by
  unfold ConnState.handleRead
  apply (TcpBuffer.readData_keeps h.attached.inv r).bind
  rintro ⟨p, buf, ret⟩ hk
  have h₁ := h.setIbuf hk
  simp only
  split
  next => exact cleanConn_heeds h₁.attached
  next =>
    split
    next => exact cleanConn_heeds h₁.attached
    next =>
      apply (readLoop_heeds hsrv _ h₁).bind
      intro s₂ hs₂
      cases hs₂ with
      | inl h₂ =>
        apply (TcpBuffer.adjust_keeps h₂.attached.inv).bind
        intro q hq
        exact .inl (h₂.setIbuf hq)
      | inr hc =>
        -- nothing is left to be moved
        rw [hc.ibuf]
        exact .inr ⟨hc.inv, hc.connfd, hc.loop, hc.ibuf, hc.obuf, hc.unwatched⟩

/-! ## Writing -/

/-- What the loop of `handle_write` leaves when it does not clean the connection. -/
structure Wrote (s s' : ConnState) : Prop where
  attached : Attached s'
  output : ∃ off pending, Holds s'.pool s'.conn.obuf off pending
  conn : s'.conn = s.conn
  evs : s'.evs = s.evs

theorem writeLoop_wrote {fuel : Nat} (h : Eager s) {ws : List WriteResult}
    (hfuel : ws.length < fuel) :
    Ends (ConnState.writeLoop srv fuel s ws)
      (fun r => if r.2 then Cleaned r.1 else Wrote s r.1) (fun _ => True) := by
  apply writeLoop_rule (I := fun s' _ => Wrote s s') _ _ hfuel ⟨h.attached, h.output, rfl, rfl⟩
  · exact fun s' ws' h' _ => h'
  · intro s' ws' b h' hb _
    have hinv := h'.attached.inv_obuf
    rw [hb] at hinv
    refine .intro (fun w hwrite => ?_) (fun _ _ => trivial)
    obtain ⟨hk, -, hret, hmove⟩ := (TcpBuffer.writeFd_ends hinv ws').of_ok hwrite
    have ha := h'.attached.written hb hk (s'.sent ++ w.taken)
    obtain ⟨off, pending, hheld⟩ := h'.output
    rw [hb] at hheld
    -- what is written was at the front
    have hhead := Window.head hheld
    rw [TcpBuffer.writeFd_head hwrite] at hhead
    obtain rfl : off = 0 := by omega
    obtain ⟨left, -, hleft⟩ := hmove pending hheld
    have h₁ : Wrote s { s' with pool := w.pool, sent := s'.sent ++ w.taken } := by
      refine ⟨ha, ⟨0, left, ?_⟩, h'.conn, h'.evs⟩
      change Holds w.pool s'.conn.obuf 0 left
      rw [hb]
      exact hleft
    refine ⟨fun _ => ?_, fun _ => h₁, fun hfail hzero => ⟨?_, h₁⟩⟩
    · exact (cleanConn_ends ha).imp (fun _ hs => hs.1) (fun _ _ => trivial)
    · rcases hret with ⟨-, -, hlt⟩ | ⟨h0, -⟩ | ⟨h1, -⟩
      · exact hlt
      · exact absurd h0 hzero
      · exact absurd h1 hfail

/-- `handle_write` stops listening once `obuf` is drained. -/
theorem handleWrite_heeds (h : Eager s) (hw : s.evs.Watches s.conn.connfd epollOut)
    (ws : List WriteResult) : Ends (s.handleWrite srv ws) Heeds (fun _ => True) := by
  unfold ConnState.handleWrite
  apply (writeLoop_wrote h (Nat.lt_succ_self _)).bind
  rintro ⟨s', cleaned⟩ hr
  cases cleaned with
  | true => exact .inr hr
  | false =>
    have hr : Wrote s s' := hr
    have ha := hr.attached
    have hfd := ha.fd
    simp only [Bool.false_eq_true, if_false]
    split
    next hzero =>
      split
      next => trivial
      next =>
        refine .inl ⟨⟨ha.inv, ha.loop, ha.fd, ?_⟩, hr.output, fun hwatch => ?_, fun hne => ?_⟩
        · change (s'.evs.delIoevMask s'.conn.connfd epollOut).mask (-1) = 0
          rw [EventLoop.mask_delIoevMask, if_neg (by omega)]
          exact ha.unwatched
        · exact absurd hwatch EventLoop.not_watches_delIoevMask
        · exact absurd hzero hne
    next hne =>
      refine .inl ⟨ha, hr.output, fun _ => hne, fun _ => ?_⟩
      rw [hr.evs, hr.conn]
      exact hw

theorem step_heeds (hsrv : srv.Private) (h : Eager s) {e : ConnEvent}
    (hown : ∀ c, e ≠ .others c) : Ends (s.step srv e) Heeds (fun _ => True) := by
  unfold ConnState.step
  cases e with
  | readable r =>
    simp only
    split
    next => exact handleRead_heeds hsrv h r
    next => exact .inl h
  | writable ws =>
    simp only
    split
    next hw => exact handleWrite_heeds h hw ws
    next => exact .inl h
  | sendData data cmdid =>
    exact (send_eager h data cmdid).imp (fun _ hs => .inl hs) (fun _ _ => trivial)
  | others c => exact absurd rfl (hown c)

end EasyReactor.Server
