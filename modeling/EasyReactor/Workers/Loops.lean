import EasyReactor.Acceptor.TcpServer
import EasyReactor.Server.TcpConn

set_option autoImplicit false

/-!
# Workers: the connections in their loops

The acceptor's thread of `Acceptor`, and what each loop does with the connections it has
been given.  A step is one buffer operation, one system call, or one use of a field of the
object `conns[fd]`; between two of them any other thread may run.  What a buffer operation
or a system call finds is an argument of the step, so the buffers themselves are left out.

With threads, loop `i` is that of worker `i`.  Without threads there is loop 0 only, and
`do_accept` is one of its callbacks.
-/

namespace EasyReactor.Workers

open EasyReactor.Foundation EasyReactor.Loop EasyReactor.Acceptor
open EasyReactor.Server (ConnIo)
open EasyReactor.Wire (Ptr)

/-- Where `clean_conn` is. -/
inductive CleanPoint where
  /-- `connCloseCb` runs -/
  | closeCb
  | decConn
  | delIoev
  /-- before `_loop = NULL` -/
  | clearLoop
  | clearIbuf
  | clearObuf
  /-- before `fd = _connfd` and `_connfd = -1` -/
  | takeFd
  | close (fd : Int)
  deriving DecidableEq

/-- Where a loop is in the functions of a connection. -/
inductive Point where
  /-- before `conns[connfd]` is looked up -/
  | lookup
  /-- `init`, before `_connfd` and `_loop` are set -/
  | assign
  | getFlags
  | setFlags
  | setNodelay
  /-- `connBuildCb` runs -/
  | buildCb
  | addIoev
  | incConn
  /-- before a new object is stored in `conns` -/
  | store
  /-- `handle_read` -/
  | readData
  /-- before the condition of its loop -/
  | readLength
  /-- before `head.length` is read and checked -/
  | readHead
  /-- before it is compared with `ibuf.length()` -/
  | readWhole
  /-- before the dispatcher is asked for `head.cmdid` -/
  | exist
  | popHead
  /-- the message's callback runs -/
  | callback
  | popBody
  | adjust
  /-- `handle_write`, before the condition of its loop -/
  | writeLength
  | writeFd
  /-- after the loop, before `obuf.length()` -/
  | drained
  | delWrite
  /-- `clean_conn`; `adjusts` says whether `handle_read` goes on with `ibuf.adjust()` -/
  | clean (place : CleanPoint) (adjusts : Bool)
  deriving DecidableEq

/-- Where a loop's thread is: in a function of a connection, or not. -/
inductive Pc where
  | idle
  | run (obj : Nat) (p : Point)
  deriving DecidableEq

/-- The fields of a `tcp_conn` that tie it to a loop. -/
structure Conn where
  connfd : Int
  loop : Ptr
  deriving DecidableEq

structure LoopState where
  evs : EventLoop ConnIo
  /-- the connections in `_fired_evs` that `process_evs` has not got to -/
  batch : List (Nat × Ready)
  pc : Pc

structure Reactor where
  server : Server
  /-- the object that is, or will be, `conns[fd]` -/
  conns : Nat → Option Conn
  /-- `conns[fd]` is not `NULL` -/
  stored : Nat → Bool
  loops : Nat → LoopState
  /-- which loop owns which object: from the `NEW_CONN` message, or without threads from
  `do_accept`, to the `::close` of `clean_conn` -/
  owners : List (Nat × Nat)
  /-- the objects of the calls of `init` -/
  inits : List Nat
  /-- the objects of the calls of `clean_conn` -/
  cleans : List Nat

/-- What a user callback does next. -/
inductive CallbackAct where
  /-- an operation on `obuf` -/
  | buffer
  /-- `send_data` adds interest in `EPOLLOUT` -/
  | listen
  | done
  deriving DecidableEq

/-- What a step of a loop finds. -/
structure Reply where
  /-- what `read_data` or `write_fd` returns -/
  ret : Int
  /-- whether the condition of the `while` or `if` holds -/
  test : Bool
  act : CallbackAct

/-- A step of one of the threads. -/
inductive Event where
  /-- the acceptor's thread -/
  | acceptor (sys : AcceptorSys)
  | doAccept
  /-- worker `i` opens its next descriptor -/
  | startWorker (i : Nat)
  /-- worker `i`, in `msg_comming_cb`: `recv_msg` -/
  | recvMsg (i : Nat)
  /-- worker `i`, in `msg_comming_cb`: takes the next message -/
  | takeMsg (i : Nat)
  /-- `epoll_wait` of loop `i` -/
  | poll (i : Nat) (batch : List (Nat × Ready))
  /-- loop `i` calls the callback of the next entry of its batch -/
  | dispatch (i : Nat)
  /-- the next step of loop `i` in a function of a connection -/
  | advance (i : Nat) (r : Reply)

/-- The messages worker `i` has received and not handled. -/
def msgs (s : Server) (i : Nat) : List Nat := s.workers[i]?.elim [] Worker.msgs

/-- What the next step of the acceptor's thread closes. -/
def closes (s : Server) : Option Nat :=
  match s.pc with
  | .closeNext nextFd => nextFd
  | .releasing => s.reservfd
  | .rejecting connfd => some connfd
  | .discarding connfd => some connfd
  | _ => none

/-- `epoll_wait` can report this of `fd`. -/
def Reports (l : EventLoop ConnIo) (fd : Int) (ready : Ready) : Prop :=
  match l.interest fd, ready with
  | none, _ => False
  | some mask, .input => mask &&& epollIn ≠ 0
  | some mask, .output => mask &&& epollOut ≠ 0
  | some _, .hangup => True

instance (l : EventLoop ConnIo) (fd : Int) (ready : Ready) : Decidable (Reports l fd ready) :=
  match h : l.interest fd, ready with
  | none, _ => .isFalse (by simp [Reports, h])
  | some mask, .input => decidable_of_iff (mask &&& epollIn ≠ 0) (by simp [Reports, h])
  | some mask, .output => decidable_of_iff (mask &&& epollOut ≠ 0) (by simp [Reports, h])
  | some _, .hangup => .isTrue (by simp [Reports, h])

/-- A batch has each descriptor once. -/
def IsBatch (l : EventLoop ConnIo) (batch : List (Nat × Ready)) : Prop :=
  (batch.map Prod.fst).Nodup ∧ ∀ e ∈ batch, Reports l e.1 e.2

instance (l : EventLoop ConnIo) (batch : List (Nat × Ready)) : Decidable (IsBatch l batch) :=
  inferInstanceAs (Decidable (_ ∧ _))

namespace Reactor

def start (limit : Nat) (isOpen : Nat → Bool) (threadCnt : Nat) (maxConns : Int32) : Reactor where
  server := .start limit isOpen threadCnt maxConns
  conns := fun _ => none
  stored := fun _ => false
  loops := fun _ => ⟨.empty ConnIo, [], .idle⟩
  owners := []
  inits := []
  cleans := []

def goto (s : Reactor) (i : Nat) (pc : Pc) : Reactor :=
  { s with loops := Function.update s.loops i { s.loops i with pc := pc } }

def setBatch (s : Reactor) (i : Nat) (batch : List (Nat × Ready)) : Reactor :=
  { s with loops := Function.update s.loops i { s.loops i with batch := batch } }

def onLoop (s : Reactor) (i : Nat) (f : EventLoop ConnIo → EventLoop ConnIo) : Reactor :=
  { s with loops := Function.update s.loops i { s.loops i with evs := f (s.loops i).evs } }

def setConn (s : Reactor) (obj : Nat) (c : Conn) : Reactor :=
  { s with conns := Function.update s.conns obj (some c) }

/-- What `::close(fd)` does to the interest sets. -/
def closeFd (s : Reactor) (fd : Int) : Reactor :=
  { s with loops := fun i => { s.loops i with evs := (s.loops i).evs.closeFd fd } }

/-- A call through `_loop`, with `_connfd`. -/
def viaLoop (s : Reactor) (obj : Nat) (f : Int → EventLoop ConnIo → EventLoop ConnIo) :
    Except Fault Reactor :=
  match s.conns obj with
  | some ⟨connfd, some j⟩ => .ok (s.onLoop j (f connfd))
  | _ => .error .undefined

/-- `_loop->add_ioev(_connfd, proc, mask, this)` -/
def listen (s : Reactor) (obj : Nat) (proc : ConnIo) (mask : Mask) : Except Fault Reactor :=
  s.viaLoop obj fun connfd evs => evs.addIoev connfd proc mask (some obj)

/-- A user callback's next step; `here` is where the loop is, `next` where it goes on. -/
def userCall (s : Reactor) (i obj : Nat) (r : Reply) (here next : Point) :
    Except Fault Reactor :=
  match r.act with
  | .buffer => .ok (s.goto i (.run obj here))
  | .listen => do
    let s ← s.listen obj .tcpWcb epollOut
    .ok (s.goto i (.run obj here))
  | .done => .ok (s.goto i (.run obj next))

/-- The end of `init`: `inc_conn`.  The connection is counted by the step of `Acceptor` in
which it leaves the messages, or the hands of `do_accept`. -/
def incConn (s : Reactor) (i : Nat) : Except Fault Server :=
  if s.server.threadCnt = 0 then s.server.step (.acceptor ⟨.eagain, true⟩)
  else s.server.step (.handleMsg i)

/-- `dec_conn` -/
def decConn (s : Reactor) (obj : Nat) : Reactor :=
  { s with server := { s.server with
      counted := s.server.counted.erase obj
      closing := s.server.closing ++ [obj]
      currConns := s.server.currConns - 1 } }

/-- `clean_conn` is called. -/
def startClean (s : Reactor) (i obj : Nat) (adjusts : Bool) : Reactor :=
  { s with cleans := s.cleans ++ [obj] }.goto i (.run obj (.clean .closeCb adjusts))

/-- The `::close(fd)` of `clean_conn`. -/
def close (s : Reactor) (i obj : Nat) (fd : Int) : Reactor :=
  { s.closeFd fd with
    server := { s.server with
      fds := if 0 ≤ fd then s.server.fds.close fd.toNat else s.server.fds
      closing := s.server.closing.erase obj }
    owners := s.owners.erase (obj, i) }

/-- The next step of `clean_conn`. -/
def clean (s : Reactor) (i obj : Nat) (r : Reply) (adjusts : Bool) :
    CleanPoint → Except Fault Reactor
  | .closeCb => s.userCall i obj r (.clean .closeCb adjusts) (.clean .decConn adjusts)
  | .decConn => .ok ((s.decConn obj).goto i (.run obj (.clean .delIoev adjusts)))
  | .delIoev => do
    let s ← s.viaLoop obj fun connfd evs => evs.delIoev connfd
    .ok (s.goto i (.run obj (.clean .clearLoop adjusts)))
  | .clearLoop =>
    match s.conns obj with
    | none => .error .undefined
    | some c =>
      .ok ((s.setConn obj { c with loop := none }).goto i (.run obj (.clean .clearIbuf adjusts)))
  | .clearIbuf => .ok (s.goto i (.run obj (.clean .clearObuf adjusts)))
  | .clearObuf => .ok (s.goto i (.run obj (.clean .takeFd adjusts)))
  | .takeFd =>
    match s.conns obj with
    | none => .error .undefined
    | some c =>
      .ok ((s.setConn obj { c with connfd := -1 }).goto i
        (.run obj (.clean (.close c.connfd) adjusts)))
  | .close fd => .ok ((s.close i obj fd).goto i (if adjusts then .run obj .adjust else .idle))

/-- The next step of loop `i`, in a function of `obj`. -/
def turn (s : Reactor) (i obj : Nat) (r : Reply) : Point → Except Fault Reactor
  | .lookup =>
    if (obj : Int) < s.server.connsSize then .ok (s.goto i (.run obj .assign))
    else .error .undefined
  -- `init`, for an object that is there or in the constructor of a new one
  | .assign =>
    .ok ({ s.setConn obj ⟨obj, some i⟩ with inits := s.inits ++ [obj] }.goto i
      (.run obj .getFlags))
  | .getFlags => .ok (s.goto i (.run obj .setFlags))
  | .setFlags => .ok (s.goto i (.run obj .setNodelay))
  | .setNodelay => .ok (s.goto i (.run obj .buildCb))
  | .buildCb => s.userCall i obj r .buildCb .addIoev
  | .addIoev => do
    let s ← s.listen obj .tcpRcb epollIn
    .ok (s.goto i (.run obj .incConn))
  | .incConn => do
    let server ← s.incConn i
    .ok ({ s with server := server }.goto i (if s.stored obj then .idle else .run obj .store))
  | .store => .ok ({ s with stored := Function.update s.stored obj true }.goto i .idle)
  -- `handle_read`
  | .readData =>
    if r.ret = -1 ∨ r.ret = 0 then .ok (s.startClean i obj false)
    else .ok (s.goto i (.run obj .readLength))
  | .readLength => .ok (s.goto i (.run obj (if r.test then .readHead else .adjust)))
  | .readHead =>
    -- data format is messed up
    if r.test then .ok (s.startClean i obj true)
    else .ok (s.goto i (.run obj .readWhole))
  | .readWhole => .ok (s.goto i (.run obj (if r.test then .adjust else .exist)))
  | .exist =>
    -- data format is messed up
    if r.test then .ok (s.startClean i obj true)
    else .ok (s.goto i (.run obj .popHead))
  | .popHead => .ok (s.goto i (.run obj .callback))
  | .callback => s.userCall i obj r .callback .popBody
  | .popBody => .ok (s.goto i (.run obj .readLength))
  | .adjust => .ok (s.goto i .idle)
  -- `handle_write`
  | .writeLength => .ok (s.goto i (.run obj (if r.test then .writeFd else .drained)))
  | .writeFd =>
    if r.ret = -1 then .ok (s.startClean i obj false)
    else .ok (s.goto i (.run obj (if r.ret = 0 then .drained else .writeLength)))
  | .drained => .ok (s.goto i (if r.test then .run obj .delWrite else .idle))
  | .delWrite => do
    let s ← s.viaLoop obj fun connfd evs => evs.delIoevMask connfd epollOut
    .ok (s.goto i .idle)
  | .clean place adjusts => s.clean i obj r adjusts place

/-- A callback of a connection is called. -/
def invoke (s : Reactor) (i : Nat) : Option ConnIo → Ptr → Except Fault Reactor
  | some .tcpRcb, some obj => .ok (s.goto i (.run obj .readData))
  | some .tcpWcb, some obj => .ok (s.goto i (.run obj .writeLength))
  | _, _ => .error .undefined

/-- One entry of the batch, in `process_evs`. -/
def dispatch (s : Reactor) (i : Nat) (fd : Int) (ready : Ready) : Except Fault Reactor :=
  match (s.loops i).evs.ioEvs fd with
  | none => .error (.assertion .ioevFound)
  | some ev =>
    match ready with
    | .input => s.invoke i ev.readCb ev.rcbArgs
    | .output => s.invoke i ev.writeCb ev.wcbArgs
    | .hangup =>
      if ev.readCb.isSome then s.invoke i ev.readCb ev.rcbArgs
      else if ev.writeCb.isSome then s.invoke i ev.writeCb ev.wcbArgs
      else .ok (s.onLoop i fun evs => evs.delIoev fd)

/-- Loop `i` takes a connection to initialise. -/
def take (s : Reactor) (i connfd : Nat) : Reactor :=
  { s with owners := s.owners ++ [(connfd, i)] }.goto i (.run connfd .lookup)

/-- A step of the server that is no step of a connection. -/
def serverStep (s : Reactor) (e : Acceptor.Event) : Except Fault Reactor := do
  let server ← s.server.step e
  .ok { s with server := server }

/-- A step of the acceptor's thread. -/
def acceptor (s : Reactor) (sys : AcceptorSys) : Except Fault Reactor := do
  let server ← s.server.acceptor sys
  .ok { (closes s.server).elim s (fun n => s.closeFd n) with server := server }

/-- Loop `i` is neither in a function of a connection nor in another callback that hands
out connections. -/
def AtLeisure (s : Reactor) (i : Nat) : Prop :=
  (s.loops i).pc = .idle ∧
    if s.server.threadCnt = 0 then s.server.pc = .idle else msgs s.server i = []

instance (s : Reactor) (i : Nat) : Decidable (s.AtLeisure i) :=
  inferInstanceAs (Decidable (_ ∧ _))

/-- One step; one that is not due changes nothing. -/
def step (s : Reactor) : Event → Except Fault Reactor
  | .acceptor sys =>
    if s.server.threadCnt = 0 then
      -- the loop's own thread
      if (s.loops 0).pc = .idle then
        match s.server.pc with
        | .handing connfd => .ok (s.take 0 connfd)
        | _ => s.acceptor sys
      else .ok s
    else s.acceptor sys
  | .doAccept =>
    if s.server.threadCnt = 0 ∧ (s.loops 0).pc ≠ .idle then .ok s else s.serverStep .doAccept
  | .startWorker i => s.serverStep (.startWorker i)
  | .recvMsg i => if (s.loops i).pc = .idle then s.serverStep (.recvMsg i) else .ok s
  | .takeMsg i =>
    match (s.loops i).pc, msgs s.server i with
    | .idle, connfd :: _ => .ok (s.take i connfd)
    | _, _ => .ok s
  | .poll i batch =>
    if s.AtLeisure i ∧ (s.loops i).batch = [] ∧ IsBatch (s.loops i).evs batch then
      .ok (s.setBatch i batch)
    else .ok s
  | .dispatch i =>
    if s.AtLeisure i then
      match (s.loops i).batch with
      | [] => .ok s
      | (fd, ready) :: batch => (s.setBatch i batch).dispatch i fd ready
    else .ok s
  | .advance i r =>
    match (s.loops i).pc with
    | .idle => .ok s
    | .run obj p => s.turn i obj r p

def run (limit : Nat) (isOpen : Nat → Bool) (threadCnt : Nat) (maxConns : Int32)
    (evs : List Event) : Except Fault Reactor :=
  evs.foldlM step (start limit isOpen threadCnt maxConns)

end Reactor

end EasyReactor.Workers
