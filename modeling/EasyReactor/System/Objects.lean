import EasyReactor.Acceptor.TcpServer
import EasyReactor.Client.TcpClient
import EasyReactor.Loop.Registrations

set_option autoImplicit false

/-!
# System: the objects of one event loop

A `tcp_server`, the `tcp_conn`s of its connections, `tcp_client`s, `udp_server`s and
`udp_client`s register their descriptors at one `event_loop`, in a process with one
descriptor table.  Here is what the functions of the five classes do to the table and to the
registrations, in the order of the source.  What they read, write and buffer does not
matter to that, beyond the few bits that are arguments of a step.

A user callback may do anything with the objects, its own among them.  A function that calls
one is cut there in two steps, and the stage or the frames of the object say where it waits.
A deleted object leaves its memory behind, and a function or a timer that comes back to it
goes on with what is there.  A `tcp_conn` is a `net_commu` for the user, who can neither
clean nor delete it.
-/

namespace EasyReactor.System

open EasyReactor.Foundation EasyReactor.Loop EasyReactor.Client EasyReactor.Acceptor

/-- The callbacks that are registered. -/
inductive IoProc where
  | timerqueueCb
  | accepterCb
  | tcpRcb
  | tcpWcb
  | client (cb : ClientIo)
  /-- `read_cb` of `udp_server.cc` -/
  | udpServerReadCb
  /-- `read_cb` of `udp_client.cc` -/
  | udpClientReadCb
  deriving DecidableEq

/-- Who has opened a descriptor. -/
inductive Holder where
  /-- object `id`, which keeps it in `_sockfd`, `_connfd` or `_timerfd` -/
  | object (id : Nat)
  /-- the `tcp_server` `id`, which keeps it in `_reservfd` -/
  | reserve (id : Nat)
  /-- `::accept` in the `tcp_server` `id` -/
  | accepted (id : Nat)
  /-- anything else in the process -/
  | other
  deriving DecidableEq

/-- Where a `tcp_server` is in `do_accept`. -/
inductive AcceptStage where
  | outside
  | accepting (connFull : Bool)
  /-- before `::close(_reservfd)` -/
  | releasing
  /-- with a connection, before `get_conn_num` -/
  | accepted (connfd : Nat)
  /-- with a connection, after `EMFILE` -/
  | discarding (connfd : Nat)
  /-- before the reserve is opened again -/
  | reopening
  deriving DecidableEq

structure TcpServer where
  sockfd : Int
  reservfd : Int
  stage : AcceptStage
  deriving DecidableEq

inductive ConnStage where
  | idle
  /-- in `init`, `connBuildCb` runs -/
  | building
  /-- in `clean_conn`, `connCloseCb` runs -/
  | closing
  deriving DecidableEq

structure TcpConn where
  connfd : Int
  stage : ConnStage
  deriving DecidableEq

/-- A function of a `tcp_client` that waits for a callback. -/
inductive ClientFrame where
  /-- `connection_cb` of `fd`, while `onConnection` runs -/
  | connecting (fd : Int)
  /-- `clean_conn`, while `onClose` runs -/
  | closing
  deriving DecidableEq

structure TcpClient where
  sockfd : Int
  netOk : Bool
  /-- how many timers with `reconn_cb` are pending -/
  timers : Nat
  /-- the innermost first -/
  frames : List ClientFrame
  deriving DecidableEq

inductive Obj where
  /-- the `timer_queue` of the loop, with `_timerfd` -/
  | timerQueue (timerfd : Int)
  | server (o : TcpServer)
  | conn (o : TcpConn)
  | client (o : TcpClient)
  | udpServer (sockfd : Int)
  | udpClient (sockfd : Int)
  deriving DecidableEq

structure Process where
  table : Descriptors Holder
  evs : EventLoop IoProc
  /-- the memory of the objects, the deleted ones among them -/
  objects : Nat → Option Obj
  deleted : Nat → Bool
  /-- the name of the next object -/
  next : Nat
  /-- `tcp_server::conns` -/
  conns : Nat → Option Nat
  connsSize : Int
  maxConns : Int
  currConns : Int

/-- What happens next. -/
inductive Step where
  /-- the rest of the process opens a descriptor -/
  | otherOpens
  | otherCloses (fd : Nat)
  /-- `tcp_server::tcp_server`; `opens` says whether `::open` succeeds -/
  | newServer (opens : Bool)
  | newClient (c : ConnectResult)
  | newUdpServer
  | newUdpClient
  /-- `~tcp_server`, `~tcp_client`, `~udp_server` or `~udp_client` -/
  | destroy (id : Nat)
  /-- `accepter_cb` -/
  | doAccept (id : Nat)
  /-- the next system call in `do_accept` -/
  | accept (id : Nat) (r : AcceptResult) (opens : Bool)
  /-- `connBuildCb` returns -/
  | built (id : Nat)
  /-- `tcp_conn::send_data`, which found `obuf` empty -/
  | connSend (id : Nat)
  /-- `tcp_conn::handle_write` leaves `obuf` empty -/
  | connDrained (id : Nat)
  /-- `tcp_conn::handle_read` or `handle_write` calls `clean_conn` -/
  | connClean (id : Nat)
  /-- `connCloseCb` returns -/
  | connClosed (id : Nat)
  /-- `connection_cb`, with `SO_ERROR` -/
  | connectionCb (id : Nat) (result : Int)
  /-- `onConnection` returns; `left` says whether `obuf` holds something -/
  | connected (id : Nat) (left : Bool)
  /-- `tcp_client::send_data`, which found `obuf` empty -/
  | clientSend (id : Nat)
  /-- `tcp_client::handle_write` leaves `obuf` empty -/
  | clientDrained (id : Nat)
  /-- `clean_conn`, called by `handle_read`, by `handle_write` or by the user -/
  | clientClean (id : Nat)
  /-- `onClose` returns -/
  | reconnect (id : Nat) (c : ConnectResult)
  /-- `reconn_cb` -/
  | timer (id : Nat) (c : ConnectResult)

namespace Process

/-- Who owns the number in an `int` variable. -/
def ownerOf (s : Process) (fd : Int) : Option Holder :=
  if 0 ≤ fd then s.table.owner fd.toNat else none

/-- `::close(fd)` -/
def close (s : Process) (fd : Int) : Process :=
  { s with
    table := if 0 ≤ fd then s.table.close fd.toNat else s.table
    evs := s.evs.closeFd fd }

def setObj (s : Process) (id : Nat) (o : Obj) : Process :=
  { s with objects := Function.update s.objects id (some o) }

/-- `delete` -/
def remove (s : Process) (id : Nat) : Process :=
  { s with deleted := Function.update s.deleted id true }

/-- The object that `id` names, if it exists. -/
def living (s : Process) (id : Nat) : Option Obj := if s.deleted id then none else s.objects id

/-- An object that `id` names from now on. -/
def create (s : Process) (o : Obj) : Process := { s.setObj s.next o with next := s.next + 1 }

/-- `add_ioev`.  For a number that is not open `epoll_ctl` fails too; the entry in `_io_evs`
is there all the same, and that is what counts here. -/
def addIoev (s : Process) (fd : Int) (proc : IoProc) (mask : Mask) (id : Nat) : Process :=
  { s with evs := s.evs.addIoev fd proc mask (some id) }

def delIoev (s : Process) (fd : Int) : Process := { s with evs := s.evs.delIoev fd }

def delIoevMask (s : Process) (fd : Int) (mask : Mask) : Process :=
  { s with evs := s.evs.delIoevMask fd mask }

/-- A system call that opens a descriptor, and `exit_if` it fails. -/
def openOrExit (s : Process) (w : Holder) : Except Fault (Nat × Process) :=
  match s.table.alloc w with
  | none => .error .exit
  | some (n, table) => .ok (n, { s with table := table })

/-- `_reservfd = ::open("/tmp/reactor_accepter", ...)`, and the `_reservfd` there is then. -/
def openReserve (s : Process) (id : Nat) (opens : Bool) : Int × Process :=
  match opens, s.table.alloc (.reserve id) with
  | true, some (n, table) => (n, { s with table := table })
  | _, _ => (-1, s)

/-- An object that opens its descriptor and registers it for reading. -/
def newReader (s : Process) (obj : Int → Obj) (readCb : IoProc) : Except Fault Process := do
  let (n, s) ← s.openOrExit (.object s.next)
  return (s.addIoev n readCb epollIn s.next).create (obj n)

/-! ## `udp_server` and `udp_client` -/

def newUdpServer (s : Process) : Except Fault Process := s.newReader .udpServer .udpServerReadCb

def newUdpClient (s : Process) : Except Fault Process := s.newReader .udpClient .udpClientReadCb

/-! ## `tcp_server` -/

def newServer (s : Process) (opens : Bool) : Except Fault Process := do
  let (n, s) ← s.openOrExit (.object s.next)
  let (reservfd, s) := s.openReserve s.next opens
  -- `::dup(1)`, closed again at once
  let nextFd : Int := if (s.table.owner 1).isSome then s.table.lowestFree.elim (-1) Nat.cast else -1
  let size ← intResult (s.maxConns + nextFd)
  -- `new tcp_conn*[_conns_size]` with a negative size ends the process
  if size < 0 then .error .exit
  else
    return ({ s with connsSize := size, conns := fun _ => none }.addIoev n .accepterCb epollIn
      s.next).create (.server ⟨n, reservfd, .outside⟩)

/-- `tcp_conn::init`, up to `connBuildCb`, of the object `cid`. -/
def initConn (s : Process) (cid connfd : Nat) : Process :=
  { s with table := { s.table with
      owner := Function.update s.table.owner connfd (some (.object cid)) } }.setObj cid
    (.conn ⟨connfd, .building⟩)

/-- The connection in `conns[connfd]`, a new one if there is none. -/
def register (s : Process) (connfd : Nat) : Process :=
  match s.conns connfd with
  | some cid => s.initConn cid connfd
  | none =>
    { s with conns := Function.update s.conns connfd (some s.next), next := s.next + 1 }.initConn
      s.next connfd

/-- The next system call of `do_accept`.  A result that the kernel cannot give changes
nothing. -/
def accept (s : Process) (id : Nat) (o : TcpServer) (r : AcceptResult) (opens : Bool) :
    Except Fault Process :=
  let stay (s : Process) (stage : AcceptStage) := s.setObj id (.server { o with stage := stage })
  match o.stage with
  | .outside => return s
  | .accepting connFull =>
    match r, s.table.alloc (.accepted id) with
    | .eintr, _ => return s
    | .eagain, _ => return stay s .outside
    | .failure, _ => .error .exit
    | .emfile, none => return stay s .releasing
    | .connection, some (n, table) =>
      return stay { s with table := table } (if connFull then .discarding n else .accepted n)
    | _, _ => return s
  | .releasing => return stay (s.close o.reservfd) (.accepting true)
  | .accepted connfd =>
    if s.maxConns ≤ s.currConns then return stay (s.close connfd) (.accepting false)
    else if (connfd : Int) < s.connsSize then
      return (stay s (.accepting false)).register connfd
    else .error (.assertion .connfdRange)
  | .discarding connfd => return stay (s.close connfd) .reopening
  | .reopening =>
    let (reservfd, s) := s.openReserve id opens
    return s.setObj id (.server { o with reservfd := reservfd, stage := .accepting true })

/-! ## `tcp_client` -/

def doConnect (s : Process) (id : Nat) (o : TcpClient) (c : ConnectResult) :
    Except Fault Process := do
  let s := if o.sockfd ≠ -1 then s.close o.sockfd else s
  -- create socket
  let (n, s) ← s.openOrExit (.object id)
  match c with
  | .connected =>
    return s.setObj id (.client { o with sockfd := n, netOk := true })
  | .inProgress =>
    -- add connection event
    return (s.addIoev n (.client .connectionCb) epollOut id).setObj id
      (.client { o with sockfd := n })
  | .error => .error .exit

def newClient (s : Process) (c : ConnectResult) : Except Fault Process :=
  { s with next := s.next + 1 }.doConnect s.next ⟨-1, false, 0, []⟩ c

/-! ## Destructors -/

def destroy (s : Process) (id : Nat) : Process :=
  match s.living id with
  | some (.server o) => (((s.delIoev o.sockfd).close o.sockfd).close o.reservfd).remove id
  | some (.client o) => (s.close o.sockfd).remove id
  | some (.udpServer sockfd) => ((s.delIoev sockfd).close sockfd).remove id
  | some (.udpClient sockfd) => ((s.delIoev sockfd).close sockfd).remove id
  -- the others live as long as the process
  | _ => s

/-! ## Runs -/

def withServer (s : Process) (id : Nat) (f : TcpServer → Except Fault Process) :
    Except Fault Process :=
  match s.objects id with
  | some (.server o) => f o
  | _ => return s

def withConn (s : Process) (id : Nat) (stage : ConnStage) (f : TcpConn → Except Fault Process) :
    Except Fault Process :=
  match s.objects id with
  | some (.conn o) => if o.stage = stage then f o else return s
  | _ => return s

def withClient (s : Process) (id : Nat) (f : TcpClient → Except Fault Process) :
    Except Fault Process :=
  match s.objects id with
  | some (.client o) => f o
  | _ => return s

/-- One step; one that is not due changes nothing. -/
def step (s : Process) : Step → Except Fault Process
  | .otherOpens =>
    match s.table.alloc .other with
    | none => return s
    | some (_, table) => return { s with table := table }
  | .otherCloses fd => if s.table.owner fd = some .other then return s.close fd else return s
  | .newServer opens => s.newServer opens
  | .newClient c => s.newClient c
  | .newUdpServer => s.newUdpServer
  | .newUdpClient => s.newUdpClient
  | .destroy id => return s.destroy id
  | .doAccept id => s.withServer id fun o =>
    if o.stage = .outside then return s.setObj id (.server { o with stage := .accepting false })
    else return s
  | .accept id r opens => s.withServer id fun o => s.accept id o r opens
  | .built id => s.withConn id .building fun o =>
    return { (s.addIoev o.connfd .tcpRcb epollIn id).setObj id (.conn { o with stage := .idle })
      with currConns := s.currConns + 1 }
  | .connSend id =>
    match s.objects id with
    | some (.conn o) =>
      -- `_loop` is `NULL` after `clean_conn`
      if o.connfd = -1 then .error .undefined
      else return s.addIoev o.connfd .tcpWcb epollOut id
    | _ => return s
  | .connDrained id => s.withConn id .idle fun o =>
    if o.connfd = -1 then return s else return s.delIoevMask o.connfd epollOut
  | .connClean id => s.withConn id .idle fun o =>
    if o.connfd = -1 then return s
    else return s.setObj id (.conn { o with stage := .closing })
  | .connClosed id => s.withConn id .closing fun o =>
    return { (((s.delIoev o.connfd).setObj id (.conn ⟨-1, .idle⟩)).close o.connfd) with
      currConns := s.currConns - 1 }
  | .connectionCb id result => s.withClient id fun o =>
    if o.frames ≠ [] then return s
    else if result = 0 then
      return (s.delIoev o.sockfd).setObj id
        (.client { o with netOk := true, frames := [.connecting o.sockfd] })
    else
      -- reconnection after 2s
      return (s.delIoev o.sockfd).setObj id (.client { o with timers := o.timers + 1 })
  | .connected id left => s.withClient id fun o =>
    match o.frames with
    | .connecting fd :: frames =>
      let s := (s.addIoev fd (.client .readCb) epollIn id).setObj id
        (.client { o with frames := frames })
      if left then return s.addIoev fd (.client .writeCb) epollOut id else return s
    | _ => return s
  | .clientSend id => s.withClient id fun o =>
    if o.netOk then return s.addIoev o.sockfd (.client .writeCb) epollOut id else return s
  | .clientDrained id => s.withClient id fun o =>
    return s.delIoevMask o.sockfd epollOut
  | .clientClean id => s.withClient id fun o =>
    let s := if o.sockfd ≠ -1 then (s.delIoev o.sockfd).close o.sockfd else s
    return s.setObj id (.client { o with netOk := false, frames := .closing :: o.frames })
  | .reconnect id c => s.withClient id fun o =>
    match o.frames with
    | .closing :: frames => s.doConnect id { o with frames := frames } c
    | _ => return s
  | .timer id c => s.withClient id fun o =>
    if o.frames ≠ [] ∨ o.timers = 0 then return s
    else s.doConnect id { o with timers := o.timers - 1 } c

/-- A process without objects, whose table has room for `limit` descriptors, of which those
with `isOpen` are open. -/
def empty (limit : Nat) (isOpen : Nat → Bool) (maxConns : Int) : Process where
  table := ⟨limit, fun n => if isOpen n then some .other else none⟩
  evs := .empty IoProc
  objects := fun _ => none
  deleted := fun _ => false
  next := 0
  conns := fun _ => none
  connsSize := 0
  maxConns := maxConns
  currConns := 0

/-- `event_loop::event_loop` -/
def start (limit : Nat) (isOpen : Nat → Bool) (maxConns : Int) : Except Fault Process := do
  -- `_epfd`
  let (_, s) ← (empty limit isOpen maxConns).openOrExit .other
  s.newReader .timerQueue .timerqueueCb

def run (limit : Nat) (isOpen : Nat → Bool) (maxConns : Int) (steps : List Step) :
    Except Fault Process := do
  let s ← start limit isOpen maxConns
  steps.foldlM step s

end Process

end EasyReactor.System
