import EasyReactor.Buffer.TcpBuffer
import EasyReactor.Loop.IoEvents
import EasyReactor.Wire.MsgHead

set_option autoImplicit false

/-!
# Client: `tcp_client`

One client with the event loop it is registered at.  What the system calls of one event
return is an argument of the event.  A user callback is a list of messages to send; the
list may depend on the whole state, so any callback that acts through `net_commu` is
one.  A `Session` is the life of one socket, and says what went through it.
-/

namespace EasyReactor.Client

open EasyReactor.Foundation EasyReactor.Buffer EasyReactor.Loop EasyReactor.Wire

/-- What `::connect` returns. -/
inductive ConnectResult where
  | connected
  /-- `-1` with `EINPROGRESS` -/
  | inProgress
  /-- `-1` with another `errno` -/
  | error
  deriving DecidableEq

/-- What the system calls of one `do_connect` return. -/
structure Connect where
  /-- `none` when `::socket` returns `-1` -/
  socket : Option Nat
  connect : ConnectResult

/-- What the system calls of one event return. -/
structure SysCalls where
  recv : Recv
  writes : List WriteResult
  /-- `SO_ERROR` -/
  soError : Int
  connect : Connect

/-- System calls that all fail. -/
def noCalls : SysCalls := ⟨⟨none, .error⟩, [], 0, ⟨none, .error⟩⟩

/-- The callbacks a client registers. -/
inductive ClientIo where
  | readCb
  | writeCb
  | connectionCb
  deriving DecidableEq

/-- The life of one socket. -/
structure Session where
  fd : Int
  /-- the bytes of each `::read` -/
  reads : List (List UInt8)
  /-- the bytes the socket took -/
  sent : List UInt8
  /-- the messages handed to the dispatcher -/
  dispatched : List Msg

def Session.new (fd : Int) : Session := ⟨fd, [], [], []⟩

structure ClientState where
  netOk : Bool
  ibuf : IoBuffer
  obuf : IoBuffer
  sockfd : Int
  /-- what `_loop` points to -/
  evs : EventLoop ClientIo
  /-- how many timers with `reconn_cb` are pending -/
  timers : Nat
  /-- the socket in use -/
  session : Session
  /-- the sockets before it -/
  past : List Session
  /-- the calls of `send_data` that returned 0 -/
  accepted : List Msg
  /-- how many calls of `send_data` returned -1 -/
  refused : Nat
  /-- the arguments of `::close` -/
  closed : List Int

/-- A `msg_callback`: the messages it sends, given its `usr_data`. -/
abbrev MsgCallback := ClientState → Ptr → List Msg

/-- An `onconn_func` or `oncls_func`: the messages it sends, given its `args`. -/
abbrev ConnCallback := ClientState → Ptr → List Msg

/-- What the user sets up. -/
structure TcpClient where
  dispatcher : MsgDispatcher MsgCallback
  onConnection : Option ConnCallback
  onConnArgs : Ptr
  onClose : Option ConnCallback
  onCloseArgs : Ptr

/-- Nothing is set up: `_onconnection` and `_onclose` are `NULL`. -/
def TcpClient.unset : TcpClient where
  dispatcher := ⟨[], []⟩
  onConnection := none
  onConnArgs := none
  onClose := none
  onCloseArgs := none

namespace ClientState

/-- `tcp_client` before `do_connect`; `rawIn` and `rawOut` are what the fresh memory of the
buffers happens to hold. -/
def new (rawIn rawOut : Nat → UInt8) : ClientState :=
  { netOk := false
    ibuf := .new 4194304 rawIn
    obuf := .new 4194304 rawOut
    sockfd := -1
    evs := .empty ClientIo
    timers := 0
    session := .new (-1)
    past := []
    accepted := []
    refused := 0
    closed := [] }

def sendData (s : ClientState) (data : List UInt8) (cmdid : Int32) :
    Except Fault (ClientState × Int) :=
  if ¬ s.netOk then
    return (s, -1)
  else
    -- if need to add to event loop
    let need := s.obuf.length = 0
    let datlen : Int := data.length
    if wrap (datlen + commuHeadLength) > wrap (s.obuf.capacity - s.obuf.length) then
      -- no more space to write socket
      return (s, -1)
    else do
      let head : CommuHead := ⟨cmdid, .ofInt datlen⟩
      let obuf ← s.obuf.save s.obuf.length head.bytes
      let obuf := { obuf with length := wrap (obuf.length + commuHeadLength) }
      let obuf ← obuf.save obuf.length data
      let obuf := { obuf with length := wrap (obuf.length + datlen) }
      let s := { s with obuf := obuf }
      if need then
        return ({ s with evs := s.evs.addIoev s.sockfd .writeCb epollOut none }, 0)
      else
        return (s, 0)

/-- A call of `send_data` by the user, noted with what it returned. -/
def send (s : ClientState) (m : Msg) : Except Fault ClientState := do
  let (s, ret) ← s.sendData m.body m.cmdid
  if ret = 0 then
    return { s with accepted := s.accepted ++ [m] }
  else
    return { s with refused := s.refused + 1 }

/-- A user callback runs. -/
def callback (s : ClientState) (msgs : List Msg) : Except Fault ClientState :=
  match msgs.foldlM send s with
  | .ok s => .ok s
  | .error f => .error (.callback f)

/-- `if (cb) cb(this, args)` -/
def callIf (s : ClientState) (cb : Option ConnCallback) (args : Ptr) : Except Fault ClientState :=
  match cb with
  | none => return s
  | some cb => s.callback (cb s args)

def callOnconnect (cli : TcpClient) (s : ClientState) : Except Fault ClientState :=
  s.callIf cli.onConnection cli.onConnArgs

def callOnclose (cli : TcpClient) (s : ClientState) : Except Fault ClientState :=
  s.callIf cli.onClose cli.onCloseArgs

/-- `::close(_sockfd)` -/
def closeSockfd (s : ClientState) : ClientState :=
  { s with evs := s.evs.closeFd s.sockfd, closed := s.closed ++ [s.sockfd] }

def doConnect (cli : TcpClient) (s : ClientState) (c : Connect) : Except Fault ClientState :=
  let s := if s.sockfd ≠ -1 then s.closeSockfd else s
  -- create socket
  match c.socket with
  | none => .error .exit
  | some fd =>
    let s := { s with sockfd := fd, past := s.past ++ [s.session], session := .new fd }
    match c.connect with
    | .connected => { s with netOk := true }.callOnconnect cli
    | .inProgress =>
      -- add connection event
      return { s with evs := s.evs.addIoev s.sockfd .connectionCb epollOut none }
    | .error => .error .exit

/-- The constructor.  It calls `do_connect` before the user can set anything up. -/
def construct (rawIn rawOut : Nat → UInt8) (c : Connect) : Except Fault ClientState :=
  (new rawIn rawOut).doConnect .unset c

def cleanConn (cli : TcpClient) (s : ClientState) (c : Connect) : Except Fault ClientState := do
  let s :=
    if s.sockfd ≠ -1 then { s with evs := s.evs.delIoev s.sockfd }.closeSockfd else s
  let s ← { s with netOk := false }.callOnclose cli
  -- connect
  s.doConnect cli c

/-- `_dispatcher.cb(ibuf.data + ibuf.head, length, cmdid, this)` -/
def dispatch (cli : TcpClient) (s : ClientState) (head : CommuHead) :
    Except Fault ClientState := do
  let body ← s.ibuf.load s.ibuf.head head.length.toInt
  let (func, usrData) ← cli.dispatcher.cb head.cmdid
  let m : Msg := ⟨head.cmdid, body⟩
  let s := { s with session := { s.session with dispatched := s.session.dispatched ++ [m] } }
  s.callback (func s usrData)

/-- The loop of `handle_read`, and whether it cleaned the connection. -/
def readLoop (cli : TcpClient) (c : Connect) : Nat → ClientState →
    Except Fault (ClientState × Bool)
  | 0, _ => .error .fuel
  | fuel + 1, s =>
    if s.ibuf.length ≥ commuHeadLength then do
      let head := CommuHead.ofBytes (← s.ibuf.load s.ibuf.head commuHeadLength)
      if wrap (head.length.toInt + commuHeadLength) < s.ibuf.length then
        -- sub-package
        return (s, false)
      else
        let s := { s with ibuf := s.ibuf.pop commuHeadLength }
        if ¬ cli.dispatcher.exist head.cmdid then
          -- this message has no corresponding callback, close connection
          let s ← s.cleanConn cli c
          return (s, true)
        else
          let s ← s.dispatch cli head
          readLoop cli c fuel { s with ibuf := s.ibuf.pop head.length.toInt }
    else
      return (s, false)

/-- `handle_read` once `read` returned `bs`. -/
def received (cli : TcpClient) (s : ClientState) (bs : List UInt8) (c : Connect) :
    Except Fault ClientState := do
  let s := { s with
    ibuf := { s.ibuf with length := wrap (s.ibuf.length + bs.length) }
    session := { s.session with reads := s.session.reads ++ [bs] } }
  let (s, cleaned) ← readLoop cli c (s.ibuf.length.toNat + 1) s
  if cleaned then
    return s
  else
    let ibuf ← s.ibuf.adjust
    return { s with ibuf := ibuf }

def handleRead (cli : TcpClient) (s : ClientState) (r : Recv) (c : Connect) :
    Except Fault ClientState :=
  if ¬ s.netOk then
    .error (.assertion .clientNetOk)
  else
    match r.fionread with
    | none => return s
    | some rn =>
      if rn ≤ wrap (s.ibuf.capacity - s.ibuf.length) then
        match r.read with
        | .bytes bs => do
          let ibuf ← s.ibuf.save s.ibuf.length bs
          let s := { s with ibuf := ibuf }
          if bs = [] then
            -- peer close connection
            s.cleanConn cli c
          else if bs.length = rn then
            s.received cli bs c
          else
            .error (.assertion .readCount)
        | .eagain => .error (.assertion .clientErrno)
        | .error => s.cleanConn cli c
      else
        .error (.assertion .clientSpace)

/-- The loop of `handle_write`, and whether it cleaned the connection; every turn but the
last takes a result of `write` off the script. -/
def writeLoop (cli : TcpClient) (c : Connect) : Nat → ClientState → List WriteResult →
    Except Fault (ClientState × Bool)
  | 0, _, _ => .error .fuel
  | fuel + 1, s, ws =>
    if s.obuf.length ≠ 0 then do
      let offered ← s.obuf.load 0 s.obuf.length
      match uninterrupted ws with
      | (.wrote n, ws) =>
        let taken := offered.take n
        if taken = [] then
          return (s, false)
        else
          let obuf ← (s.obuf.pop taken.length).adjust
          let s := { s with
            obuf := obuf
            session := { s.session with sent := s.session.sent ++ taken } }
          writeLoop cli c fuel s ws
      | (.error, _) =>
        let s ← s.cleanConn cli c
        return (s, true)
      | (_, _) => return (s, false)
    else
      return (s, false)

def handleWrite (cli : TcpClient) (s : ClientState) (ws : List WriteResult) (c : Connect) :
    Except Fault ClientState :=
  if s.obuf.head = 0 ∧ s.obuf.length ≠ 0 then do
    let (s, cleaned) ← writeLoop cli c (ws.length + 1) s ws
    if cleaned then
      return s
    else if s.obuf.length = 0 then
      return { s with evs := s.evs.delIoevMask s.sockfd epollOut }
    else
      return s
  else
    .error (.assertion .clientWrite)

def connectionCb (cli : TcpClient) (s : ClientState) (fd : Int) (result : Int) :
    Except Fault ClientState := do
  let s := { s with evs := s.evs.delIoev fd }
  if result = 0 then
    -- connect build success!
    let s ← { s with netOk := true }.callOnconnect cli
    let s := { s with evs := s.evs.addIoev fd .readCb epollIn none }
    if s.obuf.length ≠ 0 then
      return { s with evs := s.evs.addIoev fd .writeCb epollOut none }
    else
      return s
  else
    -- reconnection after 2s
    return { s with timers := s.timers + 1 }

end ClientState

/-! ## Runs -/

/-- What can happen to a client: an event of its descriptor, the end of a reconnect timer,
and a call of `send_data` from outside its callbacks. -/
inductive ClientEvent where
  | io (ready : Ready) (sys : SysCalls)
  | timer (c : Connect)
  | sendData (m : Msg)

namespace ClientState

/-- The callback that was registered runs. -/
def runIo (cli : TcpClient) (s : ClientState) (cb : ClientIo) (sys : SysCalls) :
    Except Fault ClientState :=
  match cb with
  | .readCb => s.handleRead cli sys.recv sys.connect
  | .writeCb => s.handleWrite cli sys.writes sys.connect
  | .connectionCb => s.connectionCb cli s.sockfd sys.soError

/-- One event. -/
def step (cli : TcpClient) (s : ClientState) : ClientEvent → Except Fault ClientState
  | .io ready sys =>
    match s.evs.processEv s.sockfd ready with
    | none => return s
    | some cb => s.runIo cli cb sys
  | .timer c =>
    if s.timers = 0 then return s else { s with timers := s.timers - 1 }.doConnect cli c
  | .sendData m => s.send m

/-- A client is constructed and runs. -/
def run (cli : TcpClient) (rawIn rawOut : Nat → UInt8) (c : Connect)
    (events : List ClientEvent) : Except Fault ClientState := do
  let s ← construct rawIn rawOut c
  events.foldlM (step cli) s

end ClientState

end EasyReactor.Client
