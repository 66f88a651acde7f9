import EasyReactor.Buffer.Transfer
import EasyReactor.Loop.IoEvents
import EasyReactor.Wire.MsgHead

set_option autoImplicit false

/-!
# Server: `tcp_conn`

One connection object with what it shares: the buffer pool, the event loop, the
connection count, and the buffers that the rest of the process holds.  User callbacks
are lists of actions on the connection they are called for; the list may depend on
everything dispatched on it so far.
-/

namespace EasyReactor.Server

open EasyReactor.Foundation EasyReactor.Buffer EasyReactor.Loop EasyReactor.Wire

/-- What the rest of the process does with the pool and its own buffers. -/
inductive PoolCommand where
  | alloc (N : Int)
  /-- the `i`-th buffer it holds -/
  | revert (i : Nat)
  /-- any bytes and any bookkeeping written to the `i`-th buffer it holds -/
  | write (i : Nat) (length head : Int) (data : Nat → UInt8)

/-- What a user callback does. -/
inductive UserAct where
  /-- `commu->send_data(data, data.length, cmdid)` -/
  | sendData (data : List UInt8) (cmdid : Int32)
  /-- `commu->parameter = v` -/
  | setParameter (v : Ptr)
  /-- anything that ends up in calls of the pool -/
  | others (c : PoolCommand)

/-- A `msg_callback`: what it does, given the messages dispatched on the connection so
far, its own last, and its `usr_data`.  One that looks at what `send_data` returned, or
sends on another connection, is left out. -/
abbrev MsgCallback := List Msg → Ptr → List UserAct

/-- A `tcp_server::conn_callback`. -/
abbrev ConnCallback := List Msg → List UserAct

/-- The static members of `tcp_server` that a connection reads. -/
structure TcpServer where
  dispatcher : MsgDispatcher MsgCallback
  connBuildCb : Option ConnCallback
  connCloseCb : Option ConnCallback

/-- The callbacks a connection registers. -/
inductive ConnIo where
  | tcpRcb
  | tcpWcb
  deriving DecidableEq

structure TcpConn where
  connfd : Int
  loop : Ptr
  ibuf : TcpBuffer
  obuf : TcpBuffer
  parameter : Ptr

/-- `tcp_conn` before `init`. -/
def TcpConn.new : TcpConn := ⟨-1, none, none, none, none⟩

structure ConnState where
  conn : TcpConn
  pool : BufferPool
  /-- the buffers of the rest of the process -/
  others : List BufId
  /-- what `_loop` points to -/
  evs : EventLoop ConnIo
  currConns : Int
  /-- the messages handed to the dispatcher -/
  dispatched : List Msg
  /-- the calls of `send_data` that returned 0 -/
  accepted : List Msg
  /-- how many calls of `send_data` returned -1 -/
  refused : Nat
  /-- the bytes the socket took -/
  sent : List UInt8
  /-- the arguments of `::close` -/
  closed : List Int

namespace ConnState

/-- A process in which nothing has happened yet. -/
def boot (raw : BufId → Nat → UInt8) : ConnState :=
  ⟨.new, .init raw, [], .empty ConnIo, 0, [], [], 0, [], []⟩

def setIbuf (s : ConnState) (p : BufferPool) (buf : TcpBuffer) : ConnState :=
  { s with pool := p, conn := { s.conn with ibuf := buf } }

def setObuf (s : ConnState) (p : BufferPool) (buf : TcpBuffer) : ConnState :=
  { s with pool := p, conn := { s.conn with obuf := buf } }

def poolCommand (s : ConnState) : PoolCommand → Except Fault ConnState
  | .alloc N => do
    match ← s.pool.alloc N with
    | (p, none) => return { s with pool := p }
    | (p, some b) => return { s with pool := p, others := b :: s.others }
  | .revert i =>
    match s.others[i]? with
    | none => return s
    | some b => do
      let p ← s.pool.revert b
      return { s with pool := p, others := s.others.eraseIdx i }
  | .write i length head data =>
    match s.others[i]? with
    | none => return s
    | some b =>
      let x := { s.pool.bufs b with length := length, head := head, data := data }
      return { s with pool := s.pool.setBuf b x }

def sendData (s : ConnState) (data : List UInt8) (cmdid : Int32) :
    Except Fault (ConnState × Int) := do
  let needListen := s.conn.obuf.length s.pool = 0
  -- write rsp head first
  let head : CommuHead := ⟨cmdid, .ofInt data.length⟩
  -- write head
  let (p, obuf, ret) ← s.conn.obuf.sendData s.pool head.bytes
  let s := s.setObuf p obuf
  if ret ≠ 0 then
    return (s, -1)
  -- write content
  let (p, obuf, ret) ← s.conn.obuf.sendData s.pool data
  let s := s.setObuf p obuf
  if ret ≠ 0 then
    let (p, obuf) ← s.conn.obuf.pop s.pool commuHeadLength
    return (s.setObuf p obuf, -1)
  if needListen then
    match s.conn.loop with
    | none => .error .undefined
    | some _ => return ({ s with evs := s.evs.addIoev s.conn.connfd .tcpWcb epollOut none }, 0)
  else
    return (s, 0)

/-- A call of `send_data` by the user, noted with what it returned. -/
def send (s : ConnState) (data : List UInt8) (cmdid : Int32) : Except Fault ConnState := do
  let (s, ret) ← s.sendData data cmdid
  if ret = 0 then
    return { s with accepted := s.accepted ++ [⟨cmdid, data⟩] }
  else
    return { s with refused := s.refused + 1 }

def perform (s : ConnState) : UserAct → Except Fault ConnState
  | .sendData data cmdid => s.send data cmdid
  | .setParameter v => return { s with conn := { s.conn with parameter := v } }
  | .others c => s.poolCommand c

/-- A user callback runs. -/
def callback (s : ConnState) (acts : List UserAct) : Except Fault ConnState :=
  match acts.foldlM perform s with
  | .ok s => .ok s
  | .error f => .error (.callback f)

/-- `if (cb) cb(this)` -/
def callIf (s : ConnState) (cb : Option ConnCallback) : Except Fault ConnState :=
  match cb with
  | none => return s
  | some cb => s.callback (cb s.dispatched)

def cleanConn (srv : TcpServer) (s : ConnState) : Except Fault ConnState := do
  let s ← s.callIf srv.connCloseCb
  let s := { s with currConns := s.currConns - 1 }
  match s.conn.loop with
  | none => .error .undefined
  | some _ =>
    let s := { s with evs := s.evs.delIoev s.conn.connfd, conn := { s.conn with loop := none } }
    let (p, ibuf) ← s.conn.ibuf.clear s.pool
    let s := s.setIbuf p ibuf
    let (p, obuf) ← s.conn.obuf.clear s.pool
    let s := s.setObuf p obuf
    let fd := s.conn.connfd
    return { s with
      conn := { s.conn with connfd := -1 }
      evs := s.evs.closeFd fd
      closed := s.closed ++ [fd] }

def init (srv : TcpServer) (s : ConnState) (connfd : Int) (loop : Nat) :
    Except Fault ConnState := do
  let s := { s with conn := { s.conn with connfd := connfd, loop := some loop } }
  let s ← s.callIf srv.connBuildCb
  return { s with
    evs := s.evs.addIoev s.conn.connfd .tcpRcb epollIn none
    currConns := s.currConns + 1 }

/-- `tcp_server::dispatcher.cb(ibuf.data(), head.length, head.cmdid, this)` -/
def dispatch (srv : TcpServer) (s : ConnState) (head : CommuHead) : Except Fault ConnState := do
  let body ← s.conn.ibuf.data s.pool head.length.toInt
  let (func, usrData) ← srv.dispatcher.cb head.cmdid
  let m : Msg := ⟨head.cmdid, body⟩
  let s := { s with dispatched := s.dispatched ++ [m] }
  s.callback (func s.dispatched usrData)

/-- The last four lines of the loop of `handle_read`: one frame is taken off `ibuf`. -/
def takeFrame (srv : TcpServer) (s : ConnState) (head : CommuHead) : Except Fault ConnState := do
  let (p, ibuf) ← s.conn.ibuf.pop s.pool commuHeadLength
  -- domain: call user callback
  let s ← (s.setIbuf p ibuf).dispatch srv head
  let (p, ibuf) ← s.conn.ibuf.pop s.pool head.length.toInt
  return s.setIbuf p ibuf

/-- The loop of `handle_read`; every turn but the last takes a frame off `ibuf`. -/
def readLoop (srv : TcpServer) : Nat → ConnState → Except Fault ConnState
  | 0, _ => .error .fuel
  | fuel + 1, s =>
    if s.conn.ibuf.length s.pool ≥ commuHeadLength then do
      let head := CommuHead.ofBytes (← s.conn.ibuf.data s.pool commuHeadLength)
      if head.length.toInt > msgLengthLimit ∨ head.length.toInt < 0 then
        -- data format is messed up
        s.cleanConn srv
      else if s.conn.ibuf.length s.pool < commuHeadLength + head.length.toInt then
        -- this is half-package
        return s
      else if ¬ srv.dispatcher.exist head.cmdid then
        -- data format is messed up
        s.cleanConn srv
      else
        let s ← s.takeFrame srv head
        readLoop srv fuel s
    else
      return s

def handleRead (srv : TcpServer) (s : ConnState) (r : Recv) : Except Fault ConnState := do
  let (p, ibuf, ret) ← s.conn.ibuf.readData s.pool r
  let s := s.setIbuf p ibuf
  if ret = -1 then
    -- read data error
    s.cleanConn srv
  else if ret = 0 then
    -- The peer is closed
    s.cleanConn srv
  else
    let s ← readLoop srv ((s.conn.ibuf.length s.pool).toNat + 1) s
    let p ← s.conn.ibuf.adjust s.pool
    return { s with pool := p }

/-- The loop of `handle_write`, and whether it cleaned the connection; every turn but the
last takes a result of `write` off the script. -/
def writeLoop (srv : TcpServer) : Nat → ConnState → List WriteResult →
    Except Fault (ConnState × Bool)
  | 0, _, _ => .error .fuel
  | fuel + 1, s, ws =>
    if s.conn.obuf.length s.pool ≠ 0 then do
      let w ← s.conn.obuf.writeFd s.pool ws
      let s := { s with pool := w.pool, sent := s.sent ++ w.taken }
      if w.ret = -1 then
        let s ← s.cleanConn srv
        return (s, true)
      else if w.ret = 0 then
        return (s, false)
      else
        writeLoop srv fuel s w.script
    else
      return (s, false)

def handleWrite (srv : TcpServer) (s : ConnState) (ws : List WriteResult) :
    Except Fault ConnState := do
  let (s, cleaned) ← writeLoop srv (ws.length + 1) s ws
  if cleaned then
    return s
  else if s.conn.obuf.length s.pool = 0 then
    match s.conn.loop with
    | none => .error .undefined
    | some _ => return { s with evs := s.evs.delIoevMask s.conn.connfd epollOut }
  else
    return s

end ConnState

/-! ## Runs -/

/-- What can happen to a connection: an event of its descriptor, a call of `send_data`
from outside its callbacks, and anything the rest of the process does. -/
inductive ConnEvent where
  | readable (r : Recv)
  | writable (ws : List WriteResult)
  | sendData (data : List UInt8) (cmdid : Int32)
  | others (c : PoolCommand)

namespace ConnState

/-- One event.  The loop runs a callback only for an event its descriptor is registered
for. -/
def step (srv : TcpServer) (s : ConnState) : ConnEvent → Except Fault ConnState
  | .readable r =>
    if s.evs.Watches s.conn.connfd epollIn then s.handleRead srv r else return s
  | .writable ws =>
    if s.evs.Watches s.conn.connfd epollOut then s.handleWrite srv ws else return s
  | .sendData data cmdid => s.send data cmdid
  | .others c => s.poolCommand c

/-- A process runs for a while, accepts a connection, and the connection runs. -/
@[irreducible] def run (srv : TcpServer) (raw : BufId → Nat → UInt8) (before : List PoolCommand)
    (connfd loop : Nat) (events : List ConnEvent) : Except Fault ConnState := do
  let s ← before.foldlM poolCommand (boot raw)
  let s ← s.init srv connfd loop
  events.foldlM (step srv) s

end ConnState

end EasyReactor.Server
