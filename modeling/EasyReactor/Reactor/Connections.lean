import EasyReactor.Foundation.Slots
import EasyReactor.Server.Neighbours

set_option autoImplicit false

/-!
# Reactor: the connections of a single-threaded `tcp_server`

One thread, one loop, one buffer pool and the table `conns`, an object for each descriptor
that was ever a connection.  `accept` returns a number that no open connection has; the
object of that number is made, or initialised again.  After that the connection is served
by `handle_read` and `handle_write` until it is cleaned, while the others are served
between its turns.
-/

namespace EasyReactor.Reactor

open EasyReactor.Foundation EasyReactor.Buffer EasyReactor.Loop EasyReactor.Wire
open EasyReactor.Server

/-- An object of `conns`, with what went through its latest connection. -/
structure Session where
  conn : TcpConn
  /-- the bytes that `read` returned -/
  arrived : List UInt8
  /-- the messages handed to the dispatcher -/
  dispatched : List Msg
  /-- the calls of `send_data` that returned 0 -/
  accepted : List Msg
  /-- how many calls of `send_data` returned -1 -/
  refused : Nat
  /-- the bytes the socket took -/
  sent : List UInt8

namespace Session

/-- A connection object before a call of `init`. -/
def start (conn : TcpConn) : Session := ⟨conn, [], [], [], 0, []⟩

def buffers (c : Session) : List BufId := c.conn.ibuf.toList ++ c.conn.obuf.toList

/-- Between `init` and `clean_conn`. -/
def isOpen (c : Session) : Bool := c.conn.connfd ≠ -1

end Session

/-- An entry of `conns` with an open connection. -/
def entryOpen (c : Option Session) : Bool := c.elim false Session.isOpen

/-- The buffers of an entry of `conns`. -/
def held (c : Option Session) : List BufId := c.elim [] Session.buffers

structure TcpReactor where
  pool : BufferPool
  evs : EventLoop ConnIo
  currConns : Int
  maxConns : Int
  /-- `conns`, with `none` for `NULL` -/
  conns : List (Option Session)
  /-- the arguments of `::close` -/
  closed : List Int

/-- What can happen: the kernel returns a descriptor from `accept`, or something happens to
the connection of a descriptor. -/
inductive Event where
  | accept (fd : Nat)
  /-- `bs` is there to read, or the end of the stream when it is empty -/
  | readable (fd : Nat) (bs : List UInt8)
  /-- `rn` bytes were announced, and `read` fails -/
  | broken (fd rn : Nat)
  | writable (fd : Nat) (ws : List WriteResult)
  /-- the user calls `send_data` outside a callback -/
  | sendData (fd : Nat) (data : List UInt8) (cmdid : Int32)

/-- The bytes to read fit the largest buffer with what is left of a frame, and a message to
send is no longer than its header can say, with the largest buffer full. -/
def Event.Modest : Event → Prop
  | .accept _ => True
  | .readable _ bs => bs.length ≤ 8388608 - 65536
  | .broken _ rn => rn ≤ 8388608 - 65536
  | .writable _ _ => True
  | .sendData _ data _ => data.length + 8388608 + 8 < 2147483648

namespace TcpReactor

/-- The server after its constructor: no connection yet, and room for `size` of them. -/
def start (raw : BufId → Nat → UInt8) (size : Nat) (maxConns : Int) : TcpReactor where
  pool := .init raw
  evs := .empty ConnIo
  currConns := 0
  maxConns := maxConns
  conns := .replicate size none
  closed := []

/-- The open connection with descriptor `fd`. -/
def live (r : TcpReactor) (fd : Nat) : Option Session :=
  match r.conns[fd]? with
  | some (some c) => if c.isOpen then some c else none
  | _ => none

/-- What the calls on connection `c` of descriptor `fd` work on. -/
def view (r : TcpReactor) (fd : Nat) (c : Session) : ConnState where
  conn := c.conn
  pool := r.pool
  others := (r.conns.eraseIdx fd).flatMap held
  evs := r.evs
  currConns := r.currConns
  dispatched := c.dispatched
  accepted := c.accepted
  refused := c.refused
  sent := c.sent
  closed := r.closed

/-- What is there after them. -/
def put (r : TcpReactor) (fd : Nat) (arrived : List UInt8) (s : ConnState) : TcpReactor :=
  { r with
    pool := s.pool
    evs := s.evs
    currConns := s.currConns
    conns := r.conns.set fd
      (some ⟨s.conn, arrived, s.dispatched, s.accepted, s.refused, s.sent⟩)
    closed := s.closed }

/-- `do_accept` with a connection. -/
def accept (srv : TcpServer) (loop : Nat) (r : TcpReactor) (fd : Nat) : Except Fault TcpReactor :=
  if r.maxConns ≤ r.currConns then
    -- connection exceeds the maximum connection count
    return { r with closed := r.closed ++ [(fd : Int)] }
  else
    match r.conns[fd]? with
    | none => .error (.assertion .connfdRange)
    | some c => do
      -- register in self thread
      let s ← (r.view fd (.start (c.elim .new Session.conn))).init srv fd loop
      return r.put fd [] s

/-- Something happens to the connection of descriptor `fd`, if it is open. -/
def serve (srv : TcpServer) (r : TcpReactor) (fd : Nat) (bs : List UInt8) (e : ConnEvent) :
    Except Fault TcpReactor :=
  match r.live fd with
  | none => return r
  | some c => do
    let s ← (r.view fd c).step srv e
    return r.put fd (c.arrived ++ bs) s

def step (srv : TcpServer) (loop : Nat) (r : TcpReactor) : Event → Except Fault TcpReactor
  | .accept fd =>
    match r.live fd with
    | some _ => return r
    | none => r.accept srv loop fd
  | .readable fd bs => r.serve srv fd bs (.readable (.chunk bs))
  | .broken fd rn => r.serve srv fd [] (.readable ⟨some rn, .error⟩)
  | .writable fd ws => r.serve srv fd [] (.writable ws)
  | .sendData fd data cmdid => r.serve srv fd [] (.sendData data cmdid)

/-- A server starts, and runs. -/
def run (srv : TcpServer) (raw : BufId → Nat → UInt8) (size : Nat) (maxConns : Int) (loop : Nat)
    (events : List Event) : Except Fault TcpReactor :=
  events.foldlM (step srv loop) (start raw size maxConns)

/-- How many connections are open. -/
def opened (r : TcpReactor) : Nat := r.conns.countP entryOpen

/-- The bytes that connection `c` has read and not consumed. -/
def Unread (r : TcpReactor) (c : Session) (bs : List UInt8) : Prop := Holds r.pool c.conn.ibuf 0 bs

/-- The bytes that connection `c` is still to send. -/
def Unsent (r : TcpReactor) (c : Session) (bs : List UInt8) : Prop := Holds r.pool c.conn.obuf 0 bs

variable {r : TcpReactor} {fd : Nat} {c : Session}

theorem live_eq_some : r.live fd = some c ↔ r.conns[fd]? = some (some c) ∧ c.isOpen = true := by
  unfold live
  split
  next c' hc' =>
    rw [hc']
    split
    next hopen =>
      constructor
      · intro h
        obtain rfl := Option.some.inj h
        exact ⟨rfl, hopen⟩
      · rintro ⟨h, -⟩
        rw [Option.some.inj (Option.some.inj h)]
    next hopen =>
      constructor
      · exact nofun
      · rintro ⟨h, hc⟩
        rw [Option.some.inj (Option.some.inj h)] at hopen
        exact absurd hc hopen
  next hno =>
    constructor
    · exact nofun
    · rintro ⟨h, -⟩
      exact absurd h (hno c)

end TcpReactor

end EasyReactor.Reactor
