import EasyReactor.Foundation.Descriptors
import EasyReactor.Foundation.Outcome
import EasyReactor.Thread.Queue

set_option autoImplicit false

/-!
# Acceptor: `tcp_server` and its workers

The thread that constructs the `tcp_server` and calls `do_accept`, the worker
threads of `thread_pool`, and the process's descriptor table that they share.
Each step below is one thread's stretch of code with at most one access to what
the threads share: a system call on the table, `_curr_conns` under its mutex, or a
message queue under its own.

What accepted connections *do* is modelled elsewhere; here they are descriptors
that are waiting in a queue, counted by `inc_conn`, or given back by `clean_conn`,
which calls `dec_conn` some time before it closes the descriptor.
-/

namespace EasyReactor.Acceptor

open EasyReactor.Foundation EasyReactor.Loop EasyReactor.Thread

/-- Who has opened a descriptor. -/
inductive Owner where
  /-- open before the server, or the eventfd, epoll fd or timerfd of a worker -/
  | other
  /-- `_sockfd` -/
  | listener
  /-- what the `k`-th successful `::open` of the acceptor returned -/
  | reserve (k : Nat)
  /-- `next_fd` -/
  | next
  /-- a connection -/
  | conn
  deriving DecidableEq

/-- A worker: its `thread_queue` with the descriptors of `NEW_CONN` messages, how many
of its epoll fd and its timerfd it has still to open, and the messages that
`msg_comming_cb` has taken out of the queue and not handled yet. -/
structure Worker where
  inbox : ThreadQueue Nat Unit
  toOpen : Nat
  msgs : List Nat

/-- What `::accept` can do. -/
inductive AcceptResult where
  | connection
  | emfile
  | eintr
  | eagain
  /-- any other error -/
  | failure
  deriving DecidableEq

/-- Where the acceptor's thread is. -/
inductive Pc where
  /-- `tcp_server::tcp_server`, before `::socket` -/
  | socket
  /-- before `::open` -/
  | openReserve
  /-- `thread_pool::thread_pool`, before the queue of thread `i` is made -/
  | thread (i : Nat)
  /-- before `::dup` -/
  | dup
  /-- before `::close(next_fd)` -/
  | closeNext (nextFd : Option Nat)
  /-- outside `do_accept` -/
  | idle
  /-- in `do_accept`, before `::accept` -/
  | accepting (connFull : Bool)
  /-- after `EMFILE`, before `::close(_reservfd)` -/
  | releasing
  /-- with a connection, before `get_conn_num` -/
  | accepted (connfd : Nat)
  /-- before the connection is given to a thread -/
  | handing (connfd : Nat)
  /-- before the connection is closed, as there are too many -/
  | rejecting (connfd : Nat)
  /-- before the connection is closed, as descriptors have run out -/
  | discarding (connfd : Nat)
  /-- before the reserve is opened again -/
  | reopening
  deriving DecidableEq

structure Server where
  fds : Descriptors Owner
  pc : Pc
  threadCnt : Nat
  maxConns : Int32
  connsSize : Int
  currConns : Int
  /-- `_reservfd`, `none` for `-1` -/
  reservfd : Option Nat
  /-- how many `::open`s of the reserve have succeeded -/
  reserves : Nat
  /-- for every `::close(_reservfd)`: the number, and who had opened it -/
  reserveCloses : List (Option Nat × Option Owner)
  workers : List Worker
  currIndex : Nat
  /-- the connections between `inc_conn` and `dec_conn` -/
  counted : List Nat
  /-- the connections between `dec_conn` and `::close` -/
  closing : List Nat

/-- What the system calls of the acceptor's next step return. -/
structure AcceptorSys where
  accept : AcceptResult
  /-- `::open` succeeds, if a descriptor is free -/
  opens : Bool
  deriving DecidableEq

/-- A step of one of the threads. -/
inductive Event where
  | acceptor (sys : AcceptorSys)
  /-- outside `do_accept`: the listening socket is readable, `do_accept` is called -/
  | doAccept
  /-- worker `i` opens its next descriptor; after the last one it calls `set_loop` -/
  | startWorker (i : Nat)
  /-- worker `i`, in `msg_comming_cb`: `recv_msg` -/
  | recvMsg (i : Nat)
  /-- worker `i`, in `msg_comming_cb`: one message -/
  | handleMsg (i : Nat)
  /-- `clean_conn` of connection `fd`, up to `dec_conn` -/
  | decConn (fd : Nat)
  /-- the rest of `clean_conn`: `::close` -/
  | closeConn (fd : Nat)

namespace Server

/-- The server before its constructor runs, in a process whose descriptor table has room
for `limit` descriptors, of which those with `isOpen` are open. -/
def start (limit : Nat) (isOpen : Nat → Bool) (threadCnt : Nat) (maxConns : Int32) : Server where
  fds := ⟨limit, fun n => if isOpen n then some .other else none⟩
  pc := .socket
  threadCnt := threadCnt
  maxConns := maxConns
  connsSize := 0
  currConns := 0
  reservfd := none
  reserves := 0
  reserveCloses := []
  workers := []
  currIndex := 0
  counted := []
  closing := []

/-- A system call that opens a descriptor, and `exit_if` it fails. -/
def openOrExit (s : Server) (w : Owner) : Except Fault (Nat × Server) :=
  match s.fds.alloc w with
  | none => .error .exit
  | some (n, fds) => .ok (n, { s with fds := fds })

/-- `_reservfd = ::open("/tmp/reactor_accepter", ...)` -/
def openReserve (s : Server) (opens : Bool) : Server :=
  match opens, s.fds.alloc (.reserve s.reserves) with
  | true, some (n, fds) => { s with fds := fds, reservfd := some n, reserves := s.reserves + 1 }
  | _, _ => { s with reservfd := none }

/-- `::close(_reservfd)` -/
def closeReserve (s : Server) : Server :=
  { s with
    fds := s.reservfd.elim s.fds s.fds.close
    reserveCloses := s.reserveCloses ++ [(s.reservfd, s.reservfd.bind s.fds.owner)] }

/-- `tcp_conn::init`, of the connection in `conns[connfd]`. -/
def initConn (s : Server) (connfd : Nat) : Except Fault Server :=
  if (connfd : Int) < s.connsSize then
    .ok { s with counted := s.counted ++ [connfd], currConns := s.currConns + 1 }
  else .error .undefined

/-- The index of `thread_pool::get_next_thread`. -/
def nextThread (s : Server) : Nat := if s.currIndex = s.threadCnt then 0 else s.currIndex

/-- The `NEW_CONN` message to the next thread, or the connection's `init` when there are no
threads. -/
def handOver (s : Server) (connfd : Nat) : Except Fault Server :=
  if s.threadCnt = 0 then s.initConn connfd
  else
    match s.workers[s.nextThread]? with
    | none => .error .undefined
    | some w =>
      .ok
        { s with
          workers := s.workers.set s.nextThread { w with inbox := w.inbox.sendMsg connfd }
          currIndex := s.nextThread + 1 }

/-- One result of `::accept`.  A result that the kernel cannot give changes nothing. -/
def accept (s : Server) (connFull : Bool) : AcceptResult → Except Fault Server
  | .eintr => .ok s
  | .eagain => .ok { s with pc := .idle }
  | .failure => .error .exit
  | .emfile =>
    match s.fds.alloc .conn with
    | some _ => .ok s
    | none => .ok { s with pc := .releasing }
  | .connection =>
    match s.fds.alloc .conn with
    | none => .ok s
    | some (connfd, fds) =>
      .ok
        { s with
          fds := fds
          pc := if connFull then .discarding connfd else .accepted connfd }

/-- The next step of the acceptor's thread. -/
def acceptor (s : Server) (sys : AcceptorSys) : Except Fault Server :=
  match s.pc with
  | .socket => do
    let (_, s) ← s.openOrExit .listener
    .ok { s with pc := .openReserve }
  | .openReserve =>
    if 30 < s.threadCnt then .error .exit
    else .ok { s.openReserve sys.opens with pc := if s.threadCnt = 0 then .dup else .thread 0 }
  | .thread i => do
    let (evfd, s) ← s.openOrExit .other
    .ok
      { s with
        workers := s.workers ++ [⟨.new evfd, 2, []⟩]
        pc := if i + 1 = s.threadCnt then .dup else .thread (i + 1) }
  | .dup => do
    let (nextFd, fds) :=
      match s.fds.owner 1, s.fds.alloc .next with
      | some _, some (n, fds) => (some n, fds)
      | _, _ => (none, s.fds)
    let size ← intResult (s.maxConns.toInt + nextFd.elim (-1) Nat.cast)
    -- `new tcp_conn*[_conns_size]` with a negative size ends the process
    if size < 0 then .error .exit
    else .ok { s with fds := fds, connsSize := size, pc := .closeNext nextFd }
  | .closeNext nextFd =>
    .ok { s with fds := nextFd.elim s.fds s.fds.close, pc := .idle }
  | .idle => .ok s
  | .accepting connFull => s.accept connFull sys.accept
  | .releasing => .ok { s.closeReserve with pc := .accepting true }
  | .accepted connfd =>
    if s.maxConns.toInt ≤ s.currConns then .ok { s with pc := .rejecting connfd }
    else if (connfd : Int) < s.connsSize then .ok { s with pc := .handing connfd }
    else .error (.assertion .connfdRange)
  | .handing connfd => do
    let s ← s.handOver connfd
    .ok { s with pc := .accepting false }
  | .rejecting connfd => .ok { s with fds := s.fds.close connfd, pc := .accepting false }
  | .discarding connfd => .ok { s with fds := s.fds.close connfd, pc := .reopening }
  | .reopening => .ok { s.openReserve sys.opens with pc := .accepting true }

/-- A step of worker `i`, if there is one. -/
def work (s : Server) (i : Nat) (f : Worker → Except Fault Server) : Except Fault Server :=
  match s.workers[i]? with
  | none => .ok s
  | some w => f w

def step (s : Server) : Event → Except Fault Server
  | .acceptor sys => s.acceptor sys
  | .doAccept => if s.pc = .idle then .ok { s with pc := .accepting false } else .ok s
  | .startWorker i => s.work i fun w =>
    match w.toOpen with
    | 0 => .ok s
    | k + 1 => do
      let (_, s) ← s.openOrExit .other
      let inbox := if k = 0 then w.inbox.setLoop (.empty Unit) () none else w.inbox
      .ok { s with workers := s.workers.set i { w with toOpen := k, inbox := inbox } }
  | .recvMsg i => s.work i fun w =>
    if w.toOpen = 0 ∧ w.msgs = [] then
      let (msgs, inbox) := w.inbox.recvMsg []
      .ok { s with workers := s.workers.set i { w with msgs := msgs, inbox := inbox } }
    else .ok s
  | .handleMsg i => s.work i fun w =>
    match w.msgs with
    | [] => .ok s
    | connfd :: msgs =>
      { s with workers := s.workers.set i { w with msgs := msgs } }.initConn connfd
  | .decConn fd =>
    if fd ∈ s.counted then
      .ok
        { s with
          counted := s.counted.erase fd
          closing := s.closing ++ [fd]
          currConns := s.currConns - 1 }
    else .ok s
  | .closeConn fd =>
    if fd ∈ s.closing then
      .ok { s with closing := s.closing.erase fd, fds := s.fds.close fd }
    else .ok s

def run (limit : Nat) (isOpen : Nat → Bool) (threadCnt : Nat) (maxConns : Int32)
    (evs : List Event) : Except Fault Server :=
  evs.foldlM step (start limit isOpen threadCnt maxConns)

end Server

end EasyReactor.Acceptor
