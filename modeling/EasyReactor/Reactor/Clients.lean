import EasyReactor.Delivery.Duplex
import EasyReactor.Reactor.Isolation
import EasyReactor.Server.Answers

set_option autoImplicit false

/-!
# Reactor: the clients of a server

Any number of clients, each with one connection to the server, and the bytes under way in
both directions.  A step is one of a client, one of the server, or bytes that arrive, and
the steps come in any order.
-/

namespace EasyReactor.Reactor

open EasyReactor.Foundation EasyReactor.Buffer EasyReactor.Loop EasyReactor.Wire
open EasyReactor.Server EasyReactor.Delivery
open EasyReactor.Client (TcpClient ClientState SysCalls arrival)

/-- A server and its clients. -/
structure Net where
  clients : List ClientState
  server : TcpReactor
  /-- which client is at the other end of a connection -/
  peer : Nat → Option Nat
  /-- the clients whose connection was accepted or refused -/
  joined : List Nat

inductive NetEvent where
  /-- the kernel hands the connection of client `i` to `accept`, under the number `fd` -/
  | accept (i fd : Nat)
  /-- the user of client `i` calls `send_data` -/
  | send (i : Nat) (m : Msg)
  /-- the socket of client `i` is writable -/
  | write (i : Nat) (sys : SysCalls)
  /-- of the bytes under way to the server, `n` arrive at connection `fd` -/
  | deliver (fd n : Nat)
  /-- of the bytes under way to the client of connection `fd`, `n` arrive -/
  | answer (fd n : Nat) (sys : SysCalls)
  /-- connection `fd` is writable -/
  | writable (fd : Nat) (ws : List WriteResult)

namespace Net

/-- Clients that have called `do_connect`, and a server that accepted nothing yet. -/
def start (clients : List ClientState) (raw : BufId → Nat → UInt8) (size : Nat)
    (maxConns : Int) : Net :=
  ⟨clients, .start raw size maxConns, fun _ => none, []⟩

/-- The two ends of connection `fd`, open or closed. -/
def ends (n : Net) (fd : Nat) : Option (Nat × ClientState × Session) := do
  let i ← n.peer fd
  let s ← n.clients[i]?
  let c ← (n.server.conns[fd]?).join
  return (i, s, c)

/-- The next `k` bytes under way to the server. -/
def request (s : ClientState) (c : Session) (k : Nat) : List UInt8 :=
  (s.session.sent.drop c.arrived.length).take k

/-- The next `k` bytes under way to the client. -/
def response (s : ClientState) (c : Session) (k : Nat) : List UInt8 :=
  (c.sent.drop s.session.reads.flatten.length).take k

/-- Client `i` takes a step. -/
def atClient (n : Net) (i : Nat) (f : ClientState → Except Fault ClientState) : Except Fault Net :=
  match n.clients[i]? with
  | none => return n
  | some s => do
    let s ← f s
    return { n with clients := n.clients.set i s }

/-- The server takes a step. -/
def atServer (srv : TcpServer) (loop : Nat) (n : Net) (e : Event) : Except Fault Net := do
  let server ← n.server.step srv loop e
  return { n with server := server }

def step (cli : Nat → TcpClient) (srv : TcpServer) (loop : Nat) (n : Net) :
    NetEvent → Except Fault Net
  | .accept i fd =>
    if i ∈ n.joined ∨ (n.server.live fd).isSome then
      return n
    else do
      let server ← n.server.step srv loop (.accept fd)
      -- a connection over the limit was closed at once
      let peer := if (server.live fd).isSome then Function.update n.peer fd (some i) else n.peer
      return { n with server := server, peer := peer, joined := i :: n.joined }
  | .send i m => n.atClient i fun s => s.step (cli i) (.sendData m)
  | .write i sys => n.atClient i fun s => s.step (cli i) (.io .output sys)
  | .deliver fd k =>
    match n.ends fd with
    | none => return n
    | some (_, s, c) =>
      if request s c k = [] then return n else n.atServer srv loop (.readable fd (request s c k))
  | .answer fd k sys =>
    match n.ends fd with
    | none => return n
    | some (i, s, c) =>
      if response s c k = [] then
        return n
      else
        n.atClient i fun s' => s'.step (cli i) (arrival sys (response s c k))
  | .writable fd ws => n.atServer srv loop (.writable fd ws)

def run (cli : Nat → TcpClient) (srv : TcpServer) (loop : Nat) (n : Net) (events : List NetEvent) :
    Except Fault Net :=
  events.foldlM (step cli srv loop) n

theorem ends_eq_some {n : Net} {fd i : Nat} {s : ClientState} {c : Session} :
    n.ends fd = some (i, s, c) ↔
      n.peer fd = some i ∧ n.clients[i]? = some s ∧ n.server.conns[fd]? = some (some c) := by
  unfold ends
  constructor
  · intro h
    obtain ⟨i', hi, h⟩ := Option.bind_eq_some_iff.mp h
    obtain ⟨s', hs, h⟩ := Option.bind_eq_some_iff.mp h
    obtain ⟨c', hc, h⟩ := Option.bind_eq_some_iff.mp h
    obtain ⟨rfl, rfl, rfl⟩ : i' = i ∧ s' = s ∧ c' = c := by simpa using h
    exact ⟨hi, hs, Option.join_eq_some_iff.mp hc⟩
  · rintro ⟨hi, hs, hc⟩
    rw [hi, Option.bind_eq_bind, Option.bind_some, hs, Option.bind_eq_bind, Option.bind_some, hc]
    rfl

end Net

/-- Messages go out with a body and a command the server knows, no `write` of a client fails, and
what arrives at the server fits its largest buffer. -/
def NetEvent.Modest (srv : TcpServer) : NetEvent → Prop
  | .accept _ _ => True
  | .send _ m => Deliverable srv m
  | .write _ sys => .error ∉ sys.writes
  | .deliver _ k => k ≤ 8388608 - 65536
  | .answer _ _ _ => True
  | .writable _ _ => True

/-- What a client is sent on a connection that refused a message does not make it close the
connection. -/
def NetEvent.Heard (cli : Nat → TcpClient) (n : Net) : NetEvent → Prop
  | .answer fd k _ => ∀ x ∈ n.ends fd, x.2.2.refused ≠ 0 →
    Hears (cli x.1) x.2.1 (Net.response x.2.1 x.2.2 k)
  | .accept _ _ => True
  | .send _ _ => True
  | .write _ _ => True
  | .deliver _ _ => True
  | .writable _ _ => True

instance (cli : Nat → TcpClient) (n : Net) : ∀ e : NetEvent, Decidable (e.Heard cli n)
  | .answer _ _ _ => inferInstanceAs (Decidable (∀ _ ∈ _, _))
  | .accept _ _ => inferInstanceAs (Decidable True)
  | .send _ _ => inferInstanceAs (Decidable True)
  | .write _ _ => inferInstanceAs (Decidable True)
  | .deliver _ _ => inferInstanceAs (Decidable True)
  | .writable _ _ => inferInstanceAs (Decidable True)

/-- The two sides know each other's messages: what the server says to messages it can be sent is
known to every client, and no longer than the limit. -/
structure Agreed (cli : Nat → TcpClient) (srv : TcpServer) : Prop where
  own : srv.Private
  silent : srv.connCloseCb = none
  understood : ∀ i hist, (∀ m ∈ hist, Deliverable srv m) →
    ∀ m ∈ srv.out hist, m.Sendable (cli i).dispatcher.exist
  utters : ∀ i, Utters (cli i) (Deliverable srv)

end EasyReactor.Reactor
