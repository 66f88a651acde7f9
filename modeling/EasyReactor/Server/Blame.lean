import EasyReactor.Buffer.Growth
import EasyReactor.Server.TcpConn

set_option autoImplicit false

/-!
# Server: what an event is to blame for

The code of a connection calls `::exit` in one place, the `alloc` that `read_data` and
`send_data` make for more room, and it calls the user in three, for a frame, before the
connection is cleaned and when it is new.  So an event that ends the process through `::exit`
asks a pool at its limit for a buffer, and one that ends it inside a callback has one to call.
-/

namespace EasyReactor.Server

open EasyReactor.Foundation EasyReactor.Buffer EasyReactor.Loop EasyReactor.Wire

/-- The server has a callback that the event can run. -/
def ConnEvent.CallsBack (srv : TcpServer) : ConnEvent → Prop
  | .readable _ => srv.dispatcher.dispatcher ≠ [] ∨ srv.connCloseCb ≠ none
  | .writable _ => srv.connCloseCb ≠ none
  | .sendData _ _ => False
  | .others _ => False

/-- The event asks the pool for a buffer that the pool refuses: `read_data` for the bytes
announced, `send_data` for the header or, once that is stored, for the body. -/
def ConnState.Starved (s : ConnState) : ConnEvent → Prop
  | .readable r => ∃ n, r.fionread = some n ∧ s.conn.ibuf.Starves s.pool n
  | .writable _ => False
  | .sendData data cmdid =>
    s.conn.obuf.Starves s.pool commuHeadLength ∨
      ∃ p obuf, s.conn.obuf.sendData s.pool (CommuHead.mk cmdid (.ofInt data.length)).bytes =
        .ok (p, obuf, 0) ∧ obuf.Starves p data.length
  | .others c => ∃ N, c = .alloc N ∧ s.pool.Refuses N

/-- The process ended in user code, and there is some. -/
def InCallback (calls : Prop) (f : Fault) : Prop := calls ∧ ∃ g, f = .callback g

theorem InCallback.imp {calls calls' : Prop} {f : Fault} (h : InCallback calls f)
    (himp : calls → calls') : InCallback calls' f :=
  ⟨himp h.1, h.2⟩

open BufferPool

variable {srv : TcpServer}

theorem callback_blame (s : ConnState) (acts : List UserAct) :
    Ends (s.callback acts) (fun _ => True) (fun f => ∃ g, f = .callback g) := by
  unfold ConnState.callback
  split
  next => trivial
  next f _ => exact ⟨f, rfl⟩

theorem callIf_blame (s : ConnState) (cb : Option ConnCallback) :
    Ends (s.callIf cb) (fun _ => True) (InCallback (cb ≠ none)) := by
  cases cb with
  | none => trivial
  | some cb => exact (callback_blame s _).imp (fun _ h => h) fun _ hf => ⟨nofun, hf⟩

theorem init_blame (s : ConnState) (connfd : Int) (loop : Nat) :
    Ends (s.init srv connfd loop) (fun _ => True) (InCallback (srv.connBuildCb ≠ none)) := by
  unfold ConnState.init
  exact (callIf_blame _ _).bind fun _ _ => trivial

theorem cleanConn_blame (s : ConnState) :
    Ends (s.cleanConn srv) (fun _ => True)
      (fun f => f.Own ∨ InCallback (srv.connCloseCb ≠ none) f) := by
  unfold ConnState.cleanConn
  apply ((callIf_blame s _).imp (fun _ h => h) fun _ hf => .inr hf).bind
  rintro s' -
  simp only
  cases s'.conn.loop with
  | none => exact .inl trivial
  | some l =>
    apply (TcpBuffer.clear_same _ _).or_fail.bind
    rintro ⟨p, ibuf⟩ -
    apply (TcpBuffer.clear_same _ _).or_fail.bind
    rintro ⟨p', obuf⟩ -
    trivial

/-- Once the bytes are in `ibuf`, reading fails in the code itself or in a callback. -/
def ReadBlame (srv : TcpServer) (f : Fault) : Prop :=
  f.Own ∨ InCallback (srv.dispatcher.dispatcher ≠ [] ∨ srv.connCloseCb ≠ none) f

theorem cleanConn_readBlame (s : ConnState) :
    Ends (s.cleanConn srv) (fun _ => True) (ReadBlame srv) :=
  (cleanConn_blame s).imp (fun _ h => h) fun _ hf => hf.imp_right fun h => h.imp .inr

theorem dispatch_blame (s : ConnState) (head : CommuHead) :
    Ends (s.dispatch srv head) (fun _ => True) (ReadBlame srv) := by
  unfold ConnState.dispatch
  apply (TcpBuffer.data_fault _ _ _).or_fail.bind
  rintro body -
  unfold MsgDispatcher.cb
  cases hlookup : srv.dispatcher.dispatcher.lookup head.cmdid with
  | none => exact .inl trivial
  | some func =>
    have hsome : srv.dispatcher.dispatcher ≠ [] := by
      intro hnil
      rw [hnil] at hlookup
      cases hlookup
    exact (callback_blame _ _).imp (fun _ h => h) fun _ hf => .inr ⟨.inl hsome, hf⟩

theorem takeFrame_blame (s : ConnState) (head : CommuHead) :
    Ends (s.takeFrame srv head) (fun _ => True) (ReadBlame srv) := by
  unfold ConnState.takeFrame
  apply (TcpBuffer.pop_same _ _ _).or_fail.bind
  rintro ⟨p, ibuf⟩ -
  apply (dispatch_blame _ _).bind
  rintro s' -
  apply (TcpBuffer.pop_same _ _ _).or_fail.bind
  rintro ⟨p', ibuf'⟩ -
  trivial

theorem readLoop_blame (fuel : Nat) (s : ConnState) :
    Ends (s.readLoop srv fuel) (fun _ => True) (ReadBlame srv) := by
  induction fuel generalizing s with
  | zero => exact .inl trivial
  | succ fuel ih =>
    unfold ConnState.readLoop
    split
    next =>
      apply (TcpBuffer.data_fault _ _ _).or_fail.bind
      rintro bytes -
      simp only
      split
      next => exact cleanConn_readBlame s
      next =>
        split
        next => trivial
        next =>
          split
          next => exact cleanConn_readBlame s
          next => exact (takeFrame_blame s _).bind fun s' _ => ih s'
    next => trivial

/-- How an event brings the process down: in the code itself, at the memory limit it asks the
pool to pass, or in a callback that it runs. -/
def Blame (srv : TcpServer) (s : ConnState) (e : ConnEvent) (f : Fault) : Prop :=
  f.Own ∨ f = .exit ∧ s.Starved e ∨ InCallback (e.CallsBack srv) f

theorem handleRead_blame (s : ConnState) (r : Recv) :
    Ends (s.handleRead srv r) (fun _ => True) (Blame srv s (.readable r)) := by
  have hread : ∀ f, ReadBlame srv f → Blame srv s (.readable r) f :=
    fun _ hf => hf.imp_right .inr
  unfold ConnState.handleRead
  apply ((TcpBuffer.readData_fault _ _ _).imp (fun _ h => h) _).bind
  · rintro ⟨p, ibuf, ret⟩ -
    simp only
    split
    next => exact (cleanConn_readBlame _).imp (fun _ h => h) hread
    next =>
      split
      next => exact (cleanConn_readBlame _).imp (fun _ h => h) hread
      next =>
        apply ((readLoop_blame _ _).imp (fun _ h => h) hread).bind
        rintro s' -
        apply (TcpBuffer.adjust_same _ _).or_fail.bind
        rintro p' -
        trivial
  · exact fun f hf => hf.imp_right .inl

theorem writeLoop_blame (fuel : Nat) (s s₀ : ConnState) (ws ws₀ : List WriteResult) :
    Ends (s.writeLoop srv fuel ws) (fun _ => True) (Blame srv s₀ (.writable ws₀)) := by
  induction fuel generalizing s ws with
  | zero => exact .inl trivial
  | succ fuel ih =>
    unfold ConnState.writeLoop
    split
    next =>
      apply (TcpBuffer.writeFd_same _ _ _).or_fail.bind
      rintro w -
      simp only
      split
      next =>
        apply ((cleanConn_blame _).imp (fun _ h => h) fun _ hf => hf.imp_right .inr).bind
        rintro s' -
        trivial
      next =>
        split
        next => trivial
        next => exact ih _ _
    next => trivial

theorem handleWrite_blame (s : ConnState) (ws : List WriteResult) :
    Ends (s.handleWrite srv ws) (fun _ => True) (Blame srv s (.writable ws)) := by
  unfold ConnState.handleWrite
  apply (writeLoop_blame _ s s ws ws).bind
  rintro ⟨s', cleaned⟩ -
  simp only
  split
  next => trivial
  next =>
    split
    next =>
      split
      next => exact .inl trivial
      next => trivial
    next => trivial

theorem sendData_blame (s : ConnState) (data : List UInt8) (cmdid : Int32) :
    Ends (s.sendData data cmdid) (fun _ => True) (Blame srv s (.sendData data cmdid)) := by
  unfold ConnState.sendData
  apply (TcpBuffer.sendData_fault _ _ _).bind_eq
  · exact fun f hf => hf.imp_right fun ⟨hexit, hstarves⟩ => .inl ⟨hexit, .inl hstarves⟩
  · rintro ⟨p, obuf, ret⟩ hhead -
    simp only
    split
    next => trivial
    next hret =>
      obtain rfl : ret = 0 := not_not.mp hret
      apply ((TcpBuffer.sendData_fault _ _ _).imp (fun _ h => h) _).bind
      · rintro ⟨p', obuf', ret'⟩ -
        simp only
        split
        next =>
          apply (TcpBuffer.pop_same _ _ _).or_fail.bind
          rintro ⟨q, rest⟩ -
          trivial
        next =>
          split
          next =>
            split
            next => exact .inl trivial
            next => trivial
          next => trivial
      · exact fun f hf => hf.imp_right fun ⟨hexit, hstarves⟩ =>
          .inl ⟨hexit, .inr ⟨p, obuf, hhead, hstarves⟩⟩

theorem poolCommand_blame (s : ConnState) (c : PoolCommand) :
    Ends (s.poolCommand c) (fun _ => True) (Blame srv s (.others c)) := by
  cases c with
  | alloc N =>
    unfold ConnState.poolCommand
    apply ((alloc_makes s.pool N).imp (fun _ _ => trivial) _).bind
    · rintro ⟨p, b⟩ -
      cases b <;> trivial
    · exact fun f hf => .inr (.inl ⟨hf.1, N, rfl, hf.2⟩)
  | revert i =>
    unfold ConnState.poolCommand
    simp only
    split
    next => trivial
    next =>
      apply (revert_same _ _).or_fail.bind
      rintro p -
      trivial
  | write i length head data =>
    unfold ConnState.poolCommand
    simp only
    split <;> trivial

/-- No event ends the process at the memory limit, or in user code, that does not ask the pool
for a buffer, or have a callback to run. -/
theorem step_blame (s : ConnState) (e : ConnEvent) :
    Ends (s.step srv e) (fun _ => True) (Blame srv s e) := by
  cases e with
  | readable r =>
    unfold ConnState.step
    simp only
    split
    next => exact handleRead_blame s r
    next => trivial
  | writable ws =>
    unfold ConnState.step
    simp only
    split
    next => exact handleWrite_blame s ws
    next => trivial
  | sendData data cmdid =>
    show Ends (s.send data cmdid) _ _
    unfold ConnState.send
    apply (sendData_blame s data cmdid).bind
    rintro ⟨s', ret⟩ -
    simp only
    split <;> trivial
  | others c => exact poolCommand_blame s c

end EasyReactor.Server
