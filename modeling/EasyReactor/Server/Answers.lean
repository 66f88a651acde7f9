import EasyReactor.Foundation.Transcript
import EasyReactor.Server.Neighbours

set_option autoImplicit false

/-!
# Server: what a connection says

The callbacks of a server make of it a machine that hears messages and says messages.  As
long as no `send_data` is refused, what a connection accepted is the transcript of what it
dispatched.
-/

namespace EasyReactor.Server

open EasyReactor.Foundation EasyReactor.Buffer EasyReactor.Loop EasyReactor.Wire

/-- The message that an action passes to `send_data`. -/
def UserAct.message : UserAct → Option Msg
  | .sendData data cmdid => some ⟨cmdid, data⟩
  | .setParameter _ => none
  | .others _ => none

/-- What the callbacks send once `hist` was dispatched: the message callback of its last
message, or `connBuildCb` when there is none yet. -/
def TcpServer.out (srv : TcpServer) (hist : List Msg) : List Msg :=
  match hist.getLast? with
  | none =>
    match srv.connBuildCb with
    | none => []
    | some cb => (cb []).filterMap UserAct.message
  | some m =>
    match srv.dispatcher.cb m.cmdid with
    | .error _ => []
    | .ok (func, usrData) => (func hist usrData).filterMap UserAct.message

/-- What a server says on a connection on which it hears `ms`. -/
def TcpServer.speech (srv : TcpServer) (ms : List Msg) : List Msg := transcript srv.out ms

variable {srv : TcpServer} {s s' s'' : ConnState}

/-- User code that passes `msgs` to `send_data`. -/
structure Speaks (msgs : List Msg) (s s' : ConnState) : Prop where
  dispatched : s'.dispatched = s.dispatched
  sent : s'.sent = s.sent
  refused : s.refused ≤ s'.refused
  accepted : s'.refused = 0 → s'.accepted = s.accepted ++ msgs

/-- A step of a connection that says what it is to say. -/
structure Converses (srv : TcpServer) (s s' : ConnState) : Prop where
  dispatched : s.dispatched <+: s'.dispatched
  sent : s.sent <+: s'.sent
  refused : s.refused ≤ s'.refused
  spoken : s'.refused = 0 → s.accepted = srv.speech s.dispatched →
    s'.accepted = srv.speech s'.dispatched

theorem Speaks.refl (s : ConnState) : Speaks [] s s :=
  ⟨rfl, rfl, Nat.le_refl _, fun _ => (List.append_nil _).symm⟩

theorem Speaks.trans {ms ns : List Msg} (h : Speaks ms s s') (h' : Speaks ns s' s'') :
    Speaks (ms ++ ns) s s'' where
  dispatched := h'.dispatched.trans h.dispatched
  sent := h'.sent.trans h.sent
  refused := h.refused.trans h'.refused
  accepted href := by
    have href' : s'.refused = 0 := Nat.eq_zero_of_le_zero (href ▸ h'.refused)
    rw [h'.accepted href, h.accepted href', List.append_assoc]

theorem Speaks.converses (h : Speaks [] s s') : Converses srv s s' where
  dispatched := by rw [h.dispatched]
  sent := by rw [h.sent]
  refused := h.refused
  spoken href hs := by rw [h.accepted href, List.append_nil, hs, h.dispatched]

theorem Converses.trans (h : Converses srv s s') (h' : Converses srv s' s'') :
    Converses srv s s'' where
  dispatched := h.dispatched.trans h'.dispatched
  sent := h.sent.trans h'.sent
  refused := h.refused.trans h'.refused
  spoken href hs := h'.spoken href (h.spoken (Nat.eq_zero_of_le_zero (href ▸ h'.refused)) hs)

theorem Converses.refl (s : ConnState) : Converses srv s s := (Speaks.refl s).converses

/-! ## User code -/

theorem sendData_dispatched (s : ConnState) (data : List UInt8) (cmdid : Int32) :
    Ends (s.sendData data cmdid) (fun r => r.1.dispatched = s.dispatched) (fun _ => True) := by
  unfold ConnState.sendData
  apply (Ends.any _).bind
  rintro ⟨p, buf, ret⟩ -
  simp only
  split
  next => rfl
  next =>
    apply (Ends.any _).bind
    rintro ⟨p₂, buf₂, ret₂⟩ -
    simp only
    split
    next => exact (Ends.any _).bind fun _ _ => rfl
    next =>
      split
      next =>
        split
        next => trivial
        next => rfl
      next => rfl

theorem send_speaks (s : ConnState) (data : List UInt8) (cmdid : Int32) :
    Ends (s.send data cmdid) (Speaks [⟨cmdid, data⟩] s) (fun _ => True) := by
  unfold ConnState.send
  apply ((sendData_untouched s data cmdid).and_post (sendData_dispatched s data cmdid)).bind
  rintro ⟨s', ret⟩ ⟨hu, hd⟩
  simp only
  split
  next =>
    refine ⟨hd, hu.sent, hu.refused.ge, fun _ => ?_⟩
    change s'.accepted ++ _ = _
    rw [hu.accepted]
  next => exact ⟨hd, hu.sent, Nat.le_succ_of_le hu.refused.ge, fun href => nomatch href⟩

theorem poolCommand_speaks (s : ConnState) (c : PoolCommand) :
    Ends (s.poolCommand c) (Speaks [] s) (fun _ => True) := by
  have hkept : ∀ p os, Speaks [] s { s with pool := p, others := os } := fun p os =>
    ⟨rfl, rfl, Nat.le_refl _, fun _ => (List.append_nil _).symm⟩
  cases c with
  | alloc N =>
    apply (Ends.any _).bind
    rintro ⟨p, b⟩ -
    cases b with
    | none => exact hkept p s.others
    | some b => exact hkept p _
  | revert i =>
    unfold ConnState.poolCommand
    simp only
    split
    next => exact Speaks.refl s
    next =>
      apply (Ends.any _).bind
      rintro p -
      exact hkept p _
  | write i length head data =>
    unfold ConnState.poolCommand
    simp only
    split
    next => exact Speaks.refl s
    next => exact hkept _ s.others

theorem perform_speaks (s : ConnState) (act : UserAct) :
    Ends (s.perform act) (Speaks act.message.toList s) (fun _ => True) := by
  cases act with
  | sendData data cmdid => exact send_speaks s data cmdid
  | setParameter v => exact ⟨rfl, rfl, Nat.le_refl _, fun _ => (List.append_nil _).symm⟩
  | others c => exact poolCommand_speaks s c

theorem callback_speaks (s : ConnState) (acts : List UserAct) :
    Ends (s.callback acts) (Speaks (acts.filterMap UserAct.message) s) (fun _ => True) := by
  have hrun : Ends (acts.foldlM ConnState.perform s)
      (Speaks (acts.filterMap UserAct.message) s) (fun _ => True) := by
    refine Ends.foldlM (P := fun done => Speaks (done.filterMap UserAct.message) s) ?_ (.refl s)
    intro done act post s₁ _ h₁
    apply (perform_speaks s₁ act).imp _ (fun _ _ => trivial)
    intro s₂ h₂
    have h := h₁.trans h₂
    have hlast : [act].filterMap UserAct.message = act.message.toList := by
      cases act <;> rfl
    rw [List.filterMap_append, hlast]
    exact h
  unfold ConnState.callback
  cases hf : acts.foldlM ConnState.perform s with
  | ok s' => exact hrun.of_ok hf
  | error g => trivial

/-! ## Reading and writing -/

theorem cleanConn_converses (hclose : srv.connCloseCb = none) (s : ConnState) :
    Ends (s.cleanConn srv) (Converses srv s) (fun _ => True) := by
  unfold ConnState.cleanConn
  rw [hclose]
  unfold ConnState.callIf
  simp only [pure_bind]
  split
  next => trivial
  next =>
    apply (Ends.any _).bind
    rintro ⟨p, ibuf⟩ -
    apply (Ends.any _).bind
    rintro ⟨q, obuf⟩ -
    exact (Converses.refl s).trans ⟨List.prefix_rfl, List.prefix_rfl, Nat.le_refl _, fun _ h => h⟩

theorem dispatch_converses (s : ConnState) (head : CommuHead) :
    Ends (s.dispatch srv head) (Converses srv s) (fun _ => True) := by
  unfold ConnState.dispatch
  apply (Ends.any _).bind
  rintro body -
  cases hcb : srv.dispatcher.cb head.cmdid with
  | error e => trivial
  | ok r =>
    obtain ⟨func, usrData⟩ := r
    rw [ok_bind]
    simp only
    have hout : srv.out (s.dispatched ++ [⟨head.cmdid, body⟩]) =
        (func (s.dispatched ++ [⟨head.cmdid, body⟩]) usrData).filterMap UserAct.message := by
      unfold TcpServer.out
      rw [List.getLast?_concat]
      simp only [hcb]
    apply (callback_speaks _ _).imp _ (fun _ _ => trivial)
    intro s' h'
    have hd : s'.dispatched = s.dispatched ++ [⟨head.cmdid, body⟩] := h'.dispatched
    refine ⟨?_, ?_, h'.refused, fun href hs => ?_⟩
    · rw [hd]
      exact List.prefix_append _ _
    · rw [h'.sent]
    · rw [h'.accepted href, hd]
      change s.accepted ++ _ = _
      unfold TcpServer.speech at hs ⊢
      rw [transcript_concat, hout, hs]

theorem Converses.of_logs (h : Converses srv s s') (hd : s''.dispatched = s'.dispatched)
    (ha : s''.accepted = s'.accepted) (hr : s''.refused = s'.refused) (hs : s''.sent = s'.sent) :
    Converses srv s s'' := by
  refine h.trans ⟨?_, ?_, hr.ge, fun _ hspoken => ?_⟩
  · rw [hd]
  · rw [hs]
  · rw [ha, hd, hspoken]

theorem takeFrame_converses (s : ConnState) (head : CommuHead) :
    Ends (s.takeFrame srv head) (Converses srv s) (fun _ => True) := by
  unfold ConnState.takeFrame
  apply (Ends.any _).bind
  rintro ⟨p, buf⟩ -
  apply (dispatch_converses _ head).bind
  intro s₁ h₁
  apply (Ends.any _).bind
  rintro ⟨q, buf'⟩ -
  have htook : Converses srv s (s.setIbuf p buf) := (Converses.refl s).of_logs rfl rfl rfl rfl
  exact htook.trans (h₁.of_logs rfl rfl rfl rfl)

theorem readLoop_converses (hclose : srv.connCloseCb = none) (fuel : Nat) (s : ConnState) :
    Ends (ConnState.readLoop srv fuel s) (Converses srv s) (fun _ => True) := by
  induction fuel generalizing s with
  | zero => trivial
  | succ fuel ih =>
    unfold ConnState.readLoop
    split
    · apply (Ends.any _).bind
      rintro bs -
      simp only
      split
      · exact cleanConn_converses hclose s
      · split
        · exact Converses.refl s
        · split
          · exact cleanConn_converses hclose s
          · apply (takeFrame_converses s _).bind
            intro s₁ h₁
            exact (ih s₁).imp (fun _ h₂ => h₁.trans h₂) (fun _ _ => trivial)
    · exact Converses.refl s

theorem handleRead_converses (hclose : srv.connCloseCb = none) (s : ConnState) (r : Recv) :
    Ends (s.handleRead srv r) (Converses srv s) (fun _ => True) := by
  unfold ConnState.handleRead
  apply (Ends.any _).bind
  rintro ⟨p, buf, ret⟩ -
  have h₁ : Converses srv s (s.setIbuf p buf) := (Converses.refl s).of_logs rfl rfl rfl rfl
  have hclean : Ends ((s.setIbuf p buf).cleanConn srv) (Converses srv s) (fun _ => True) :=
    (cleanConn_converses hclose _).imp (fun _ hs => h₁.trans hs) (fun _ _ => trivial)
  simp only
  split
  · exact hclean
  · split
    · exact hclean
    · apply (readLoop_converses hclose _ _).bind
      intro s₂ h₂
      apply (Ends.any _).bind
      intro q _
      exact h₁.trans (h₂.of_logs rfl rfl rfl rfl)

theorem writeLoop_converses (hclose : srv.connCloseCb = none) (fuel : Nat) (s : ConnState)
    (ws : List WriteResult) :
    Ends (ConnState.writeLoop srv fuel s ws) (fun r => Converses srv s r.1) (fun _ => True) := by
  induction fuel generalizing s ws with
  | zero => trivial
  | succ fuel ih =>
    unfold ConnState.writeLoop
    split
    · apply (Ends.any _).bind
      rintro w -
      have h₁ : Converses srv s { s with pool := w.pool, sent := s.sent ++ w.taken } :=
        ⟨List.prefix_rfl, List.prefix_append _ _, Nat.le_refl _, fun _ h => h⟩
      simp only
      split
      · exact (cleanConn_converses hclose _).bind fun _ h₂ => h₁.trans h₂
      · split
        · exact h₁
        · exact (ih _ w.script).imp (fun _ h₂ => h₁.trans h₂) (fun _ _ => trivial)
    · exact Converses.refl s

theorem handleWrite_converses (hclose : srv.connCloseCb = none) (s : ConnState)
    (ws : List WriteResult) : Ends (s.handleWrite srv ws) (Converses srv s) (fun _ => True) := by
  unfold ConnState.handleWrite
  apply (writeLoop_converses hclose _ s ws).bind
  rintro ⟨s', cleaned⟩ h'
  have h' : Converses srv s s' := h'
  simp only
  split
  · exact h'
  · split
    · split
      · trivial
      · exact h'.of_logs rfl rfl rfl rfl
    · exact h'

/-- An event that is not a call of `send_data` from outside the callbacks. -/
def ConnEvent.Prompted : ConnEvent → Prop
  | .sendData _ _ => False
  | .readable _ => True
  | .writable _ => True
  | .others _ => True

theorem step_converses (hclose : srv.connCloseCb = none) (s : ConnState) {e : ConnEvent}
    (he : e.Prompted) : Ends (s.step srv e) (Converses srv s) (fun _ => True) := by
  cases e with
  | sendData data cmdid => exact he.elim
  | others c =>
    exact (poolCommand_speaks s c).imp (fun _ h => h.converses) (fun _ _ => trivial)
  | readable r =>
    unfold ConnState.step
    simp only
    split
    · exact handleRead_converses hclose s r
    · exact Converses.refl s
  | writable ws =>
    unfold ConnState.step
    simp only
    split
    · exact handleWrite_converses hclose s ws
    · exact Converses.refl s

/-- A new connection starts with what `connBuildCb` says. -/
theorem init_speaks (srv : TcpServer) (hd : s.dispatched = []) (ha : s.accepted = [])
    (connfd : Int) (loop : Nat) :
    Ends (s.init srv connfd loop)
      (fun s' => s'.dispatched = [] ∧ s'.sent = s.sent ∧
        (s'.refused = 0 → s'.accepted = srv.speech s'.dispatched)) (fun _ => True) := by
  unfold ConnState.init
  have hcall : Ends (ConnState.callIf
      { s with conn := { s.conn with connfd := connfd, loop := some loop } } srv.connBuildCb)
      (Speaks (srv.out []) s) (fun _ => True) := by
    unfold TcpServer.out
    simp only [List.getLast?_nil]
    cases srv.connBuildCb with
    | none => exact ⟨rfl, rfl, Nat.le_refl _, fun _ => (List.append_nil _).symm⟩
    | some cb =>
      unfold ConnState.callIf
      simp only
      rw [← hd]
      exact (callback_speaks _ _).imp
        (fun _ h => ⟨h.dispatched, h.sent, h.refused, h.accepted⟩) (fun _ _ => trivial)
  apply hcall.bind
  intro s₁ h₁
  have hd₁ : s₁.dispatched = [] := h₁.dispatched.trans hd
  refine ⟨hd₁, h₁.sent, fun href => ?_⟩
  change s₁.accepted = srv.speech s₁.dispatched
  rw [h₁.accepted href, ha, hd₁, TcpServer.speech, transcript_nil, List.nil_append]

end EasyReactor.Server
