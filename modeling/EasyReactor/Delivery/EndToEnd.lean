import EasyReactor.Client.Runs
import EasyReactor.Client.Writing
import EasyReactor.Server.Decoding

set_option autoImplicit false

/-!
# Delivery: from `send_data` to the dispatcher of the server

A client and the server's end of its connection, with the bytes under way between them.
The invariant ties the four places a message can be in: what the server dispatched and
holds, what is under way, and what is left in the client's `obuf` are together the frames
accepted.
-/

namespace EasyReactor.Delivery

open EasyReactor.Foundation EasyReactor.Buffer EasyReactor.Loop EasyReactor.Wire
open EasyReactor.Client

/-- A client, and the server's end of its connection. -/
structure Link where
  client : ClientState
  /-- the bytes that reached the server's socket -/
  arrived : List UInt8
  server : Server.ConnState

/-- What can happen on a connection while messages go from the client to the server. -/
inductive LinkEvent where
  | sendData (m : Msg)
  /-- the client's socket is writable -/
  | writable (sys : SysCalls)
  /-- of the bytes under way `n` reach the server, or all if they are fewer; it is called -/
  | deliver (n : Nat)
  /-- anything the rest of the server's process does -/
  | others (c : Server.PoolCommand)

namespace Link

/-- The bytes under way: the client's socket took them, and they did not arrive yet. -/
def transit (l : Link) : List UInt8 := l.client.session.sent.drop l.arrived.length

/-- One event. -/
def step (cli : TcpClient) (srv : Server.TcpServer) (l : Link) : LinkEvent → Except Fault Link
  | .sendData m => do
    let client ← l.client.step cli (.sendData m)
    return { l with client := client }
  | .writable sys => do
    let client ← l.client.step cli (.io .output sys)
    return { l with client := client }
  | .deliver n =>
    let chunk := l.transit.take n
    if chunk = [] then
      return l
    else do
      let server ← l.server.step srv (.readable (.chunk chunk))
      return { l with arrived := l.arrived ++ chunk, server := server }
  | .others c => do
    let server ← l.server.step srv (.others c)
    return { l with server := server }

/-- A client calls `do_connect`, a server accepts, and the connection runs. -/
def run (cli : TcpClient) (srv : Server.TcpServer) (rawIn rawOut : Nat → UInt8) (c : Connect)
    (raw : BufId → Nat → UInt8) (before : List Server.PoolCommand) (connfd loop : Nat)
    (events : List LinkEvent) : Except Fault Link := do
  let client ← ClientState.construct rawIn rawOut c
  let server ← Server.ConnState.start srv raw before connfd loop
  events.foldlM (step cli srv) ⟨client, [], server⟩

end Link

/-- A message with a body, that the server knows and takes. -/
structure Deliverable (srv : Server.TcpServer) (m : Msg) : Prop where
  sendable : m.Sendable srv.dispatcher.exist
  body : m.body ≠ []

/-- Every call of `send_data` passes a deliverable message, and no `write` fails. -/
structure Orderly (cli : TcpClient) (srv : Server.TcpServer) (events : List LinkEvent) : Prop where
  sends : ∀ m, .sendData m ∈ events → Deliverable srv m
  onConnection : ∀ f, cli.onConnection = some f → ∀ s args, ∀ m ∈ f s args, Deliverable srv m
  writes : ∀ sys, .writable sys ∈ events → .error ∉ sys.writes

/-! ## The client's end -/

/-- What the socket took, `arrived` first, and what `obuf` holds are the frames accepted. -/
structure Outgoing (D : Msg → Prop) (arrived : List UInt8) (s : ClientState) : Prop where
  accepts : Accepts D s
  queued : ∃ pending, Pending s pending ∧ s.session.sent ++ pending = frames s.accepted
  arrived : arrived <+: s.session.sent

section Client

variable {cli : TcpClient} {s s' : ClientState} {D : Msg → Prop} {arrived : List UInt8}

theorem Outgoing.extends (h : Outgoing D arrived s) (hacc : Accepts D s')
    (hsession : s'.session = s.session) (hout : Extends s s') : Outgoing D arrived s' := by
  obtain ⟨pending, w, hsum⟩ := h.queued
  obtain ⟨more, hmore, hpend⟩ := hout
  refine ⟨hacc, ⟨pending ++ frames more, hpend _ w, ?_⟩, ?_⟩
  · rw [hsession, hmore, frames_append, ← hsum, List.append_assoc]
  · rw [hsession]
    exact h.arrived

/-- What arrived is the start of the frames accepted. -/
theorem Outgoing.arrived_frames (h : Outgoing D arrived s) : arrived <+: frames s.accepted := by
  obtain ⟨pending, -, hsum⟩ := h.queued
  rw [← hsum]
  exact h.arrived.trans (List.prefix_append _ _)

/-- A `write` moves bytes from `obuf` to the socket. -/
theorem Outgoing.written (h : Outgoing D arrived s) {taken left : List UInt8} {x : IoBuffer}
    (w : Pending s (taken ++ left)) (wx : Window x 0 left) :
    Outgoing D arrived { s with
      obuf := x
      session := { s.session with sent := s.session.sent ++ taken } } := by
  obtain ⟨pending, w', hsum⟩ := h.queued
  obtain rfl := w.unique w'
  refine ⟨h.accepts, ⟨left, wx, ?_⟩, ?_⟩
  · change s.session.sent ++ taken ++ left = frames s.accepted
    rw [← hsum, List.append_assoc]
  · exact h.arrived.trans (List.prefix_append _ _)

/-- The bytes under way are the next to arrive. -/
theorem Outgoing.arrives (h : Outgoing D arrived s) (n : Nat) :
    Outgoing D (arrived ++ (s.session.sent.drop arrived.length).take n) s := by
  refine ⟨h.accepts, h.queued, ?_⟩
  obtain ⟨rest, hrest⟩ := h.arrived
  rw [← hrest, List.drop_left]
  exact (List.prefix_append_right_inj arrived).mpr (List.take_prefix n rest)

/-- A call of `send_data` appends a frame to `obuf`, or nothing. -/
theorem Outgoing.send (hphase : Phase s) (h : Outgoing D arrived s) {m : Msg} (hm : D m)
    (hbody : m.body.length < 2147483640) :
    Ends (s.step cli (.sendData m)) (fun s' => Phase s' ∧ Outgoing D arrived s')
      (fun _ => False) := by
  obtain ⟨pending, w, -⟩ := h.queued
  apply ((send_ends w m).and (send_accepts h.accepts hm)).imp
  · rintro s' ⟨hs, hacc⟩
    have hc := hs.called w
    exact ⟨hphase.called hc, h.extends hacc hc.session hc.output⟩
  · rintro e ⟨he, -⟩
    omega

/-- The end of `connect`, if it is still in progress, or a `handle_write`. -/
theorem Outgoing.writable (hphase : Phase s) (h : Outgoing D arrived s) (sys : SysCalls)
    (hcb : ∀ f, cli.onConnection = some f → ∀ s args, ∀ m ∈ f s args, D m)
    (hwrites : .error ∉ sys.writes) :
    Ends (s.step cli (.io .output sys)) (fun s' => Phase s' ∧ Outgoing D arrived s')
      (fun e => ∃ g, e = .callback g) := by
  obtain ⟨pending, w, -⟩ := h.queued
  unfold ClientState.step
  simp only
  cases hev : s.evs.processEv s.sockfd .output with
  | none => exact ⟨hphase, h⟩
  | some cb =>
    simp only
    cases hphase with
    | waiting hwait =>
      rw [hwait.bare.processEv] at hev
      cases hev
    | connecting hconn =>
      obtain rfl : cb = .connectionCb := by
        cases hconn.listens.processEv hev with
        | inl hread => cases hread
        | inr hcb => exact (Option.some.inj hcb).symm
      apply ((connectionCb_ends hconn w sys.soError).and
        (connectionCb_accepts h.accepts s.sockfd sys.soError hcb)).imp
      · rintro s' ⟨⟨-, hs⟩ | ⟨-, hs, heq⟩, hacc⟩
        · exact ⟨.connected hs.up hs.drained, h.extends hacc hs.session hs.output⟩
        · refine ⟨.waiting hs, ?_⟩
          rw [heq]
          exact ⟨h.accepts, h.queued, h.arrived⟩
      · rintro e ⟨he, -⟩
        exact he.1
    | connected hup hdrained =>
      simp only [EventLoop.processEv] at hev
      split at hev
      next hwatch =>
        obtain rfl := Option.some.inj (hup.listens.write cb hev)
        apply (handleWrite_ends (P := Outgoing D arrived) (Q := Outgoing D arrived)
          (E := fun _ => False) hup h w (fun ht => ht.written) (fun _ _ hE => hE.elim) _
          sys.writes sys.connect _).imp (fun _ hs => hs)
        · intro e he
          obtain ⟨⟨left, hE⟩, -⟩ := he (hdrained hwatch)
          exact hE.elim
        · exact fun ht => ⟨ht.accepts, ht.queued, ht.arrived⟩
        · intro left hleft
          rw [errorLeft_eq_none hwrites] at hleft
          cases hleft
      next => cases hev

end Client

/-! ## The server's end -/

/-- What `arrived` made of the server: it follows the stream, or it closed the connection,
which it does only if `big`. -/
inductive Incoming (srv : Server.TcpServer) (arrived : List UInt8) (big : Prop)
    (s : Server.ConnState) : Prop where
  | follows (h : Server.Tracks srv arrived s)
  | closed (h : Server.Cleaned s)
      (dispatched : s.dispatched <+: (refDecode srv.dispatcher.exist arrived).msgs) (hbig : big)

section Server

variable {srv : Server.TcpServer} {s : Server.ConnState} {arrived chunk : List UInt8}
  {ms : List Msg} {big : Prop}

theorem Incoming.dispatched (h : Incoming srv arrived big s) :
    s.dispatched <+: (refDecode srv.dispatcher.exist arrived).msgs := by
  cases h with
  | follows h =>
    rw [h.dispatched]
  | closed _ hd _ => exact hd

theorem Incoming.mono {big' : Prop} (h : Incoming srv arrived big s) (hbig : big → big') :
    Incoming srv arrived big' s := by
  cases h with
  | follows h => exact .follows h
  | closed h hd hb => exact .closed h hd (hbig hb)

/-- A chunk of the frames of deliverable messages arrives. -/
theorem Incoming.deliver (h : Incoming srv arrived big s) (hne : chunk ≠ [])
    (hms : ∀ m ∈ ms, Deliverable srv m) (hpre : arrived ++ chunk <+: frames ms) :
    Ends (s.step srv (.readable (.chunk chunk)))
      (Incoming srv (arrived ++ chunk) (big ∨ 8388608 - 65536 < chunk.length))
      (fun e => e = .exit ∨ (∃ g, e = .callback g) ∨
        e = .undefined ∧ 2147483648 - 65536 ≤ chunk.length) := by
  have hsendable : ∀ m ∈ ms, m.Sendable srv.dispatcher.exist := fun m hm => (hms m hm).sendable
  have hmono := Decoder.decode_msgs_prefix (D := reference srv.dispatcher.exist) arrived chunk
  cases h with
  | closed h hd hb =>
    rw [Server.step_cleaned h]
    exact .closed h (hd.trans hmono) (.inl hb)
  | follows h =>
    obtain ⟨r, hr⟩ := refDecode_prefix_rest hsendable ((List.prefix_append _ _).trans hpre)
    have hrlen : r.length < 65536 := parse_wait_length (Decoder.decode_rest hr).1
    apply (h.step_chunk hr chunk).imp
    · rintro s' (⟨-, -, htracks, -⟩ | ⟨hdrop, hcleaned, hd⟩)
      · exact .follows htracks
      · refine .closed hcleaned ?_ (.inr ?_)
        · rw [hd, h.dispatched]
          exact hmono
        · have := hdrop.resolve_left hne
          omega
    · intro e he
      cases he with
      | early he =>
        cases he.1 with
        | inl hexit => exact .inl hexit
        | inr hcallback => exact .inr (.inl hcallback)
      | overflow he hover => exact .inr (.inr ⟨he, by omega⟩)
      | empty _ _ _ hend =>
        -- every message of the stream has a body
        rw [← Server.endsEmpty_stream _ hr hne] at hend
        obtain ⟨m, hm, hnil⟩ := hend.mem
        exact absurd hnil (hms m ((refDecode_prefix_msgs hsendable hpre).subset hm)).body

theorem Incoming.others (h : Incoming srv arrived big s) (c : Server.PoolCommand) :
    Ends (s.step srv (.others c)) (Incoming srv arrived big) (fun e => e = .exit) := by
  cases h with
  | follows h => exact (h.step_others c).imp (fun _ hs => .follows hs) (fun _ he => he)
  | closed h hd hb =>
    apply (Server.step_others_cleaned h c).imp
    · rintro s' ⟨hs, hd'⟩
      refine .closed hs ?_ hb
      rw [hd']
      exact hd
    · exact fun e he => he

end Server

/-! ## Both ends -/

/-- A chunk of more than `limit` bytes can have arrived. -/
def Delivers (events : List LinkEvent) (limit : Nat) : Prop :=
  ∃ n, .deliver n ∈ events ∧ limit < n

theorem Delivers.append {done : List LinkEvent} {limit : Nat} (h : Delivers done limit)
    (events : List LinkEvent) : Delivers (done ++ events) limit := by
  obtain ⟨n, hn, hlt⟩ := h
  exact ⟨n, List.mem_append_left _ hn, hlt⟩

/-- The invariant. -/
structure Joined (srv : Server.TcpServer) (done : List LinkEvent) (l : Link) : Prop where
  phase : Phase l.client
  outgoing : Outgoing (Deliverable srv) l.arrived l.client
  incoming : Incoming srv l.arrived (Delivers done (8388608 - 65536)) l.server

/-- How a run can end before its last event: the server's process is at its memory limit,
a user callback failed, or a sum of two lengths was not an `int`. -/
def Stops (events : List LinkEvent) (e : Fault) : Prop :=
  e = .exit ∨ (∃ g, e = .callback g) ∨ e = .undefined ∧ Delivers events (2147483647 - 65536)

section

variable {cli : TcpClient} {srv : Server.TcpServer} {done : List LinkEvent} {l : Link}

/-- What one event of an orderly run does. -/
theorem Joined.step (h : Joined srv done l) (e : LinkEvent)
    (hcb : ∀ f, cli.onConnection = some f → ∀ s args, ∀ m ∈ f s args, Deliverable srv m)
    (hsend : ∀ m, e = .sendData m → Deliverable srv m)
    (hwrites : ∀ sys, e = .writable sys → .error ∉ sys.writes) :
    Ends (l.step cli srv e) (Joined srv (done ++ [e])) (Stops (done ++ [e])) := by
  have hincoming : Incoming srv l.arrived (Delivers (done ++ [e]) (8388608 - 65536)) l.server :=
    h.incoming.mono fun hb => hb.append [e]
  cases e with
  | sendData m =>
    have hm := hsend m rfl
    have hlength : m.body.length ≤ 65528 := hm.sendable.length
    apply ((h.outgoing.send h.phase hm (by omega)).imp (fun _ hs => hs)
      (fun _ he => he.elim)).bind
    rintro client ⟨hphase, hout⟩
    exact ⟨hphase, hout, hincoming⟩
  | writable sys =>
    apply ((h.outgoing.writable h.phase sys hcb (hwrites sys rfl)).imp (fun _ hs => hs)
      (fun _ he => .inr (.inl he))).bind
    rintro client ⟨hphase, hout⟩
    exact ⟨hphase, hout, hincoming⟩
  | deliver n =>
    unfold Link.step
    simp only
    split
    next => exact ⟨h.phase, h.outgoing, hincoming⟩
    next hne =>
      have hout : Outgoing (Deliverable srv) (l.arrived ++ l.transit.take n) l.client :=
        h.outgoing.arrives n
      have hlen : (l.transit.take n).length ≤ n := List.length_take_le _ _
      have hmem : LinkEvent.deliver n ∈ done ++ [.deliver n] := by simp
      apply ((h.incoming.deliver hne hout.accepts hout.arrived_frames).imp (fun _ hs => hs) _).bind
      · intro server hs
        refine ⟨h.phase, hout, hs.mono ?_⟩
        rintro (hb | hb)
        · exact hb.append _
        · exact ⟨n, hmem, by omega⟩
      · rintro e (he | he | ⟨he, hb⟩)
        · exact .inl he
        · exact .inr (.inl he)
        · exact .inr (.inr ⟨he, n, hmem, by omega⟩)
  | others c =>
    apply ((hincoming.others c).imp (fun _ hs => hs) (fun _ he => .inl he)).bind
    intro server hs
    exact ⟨h.phase, h.outgoing, hs⟩

theorem Stops.append {e : Fault} (h : Stops done e) (events : List LinkEvent) :
    Stops (done ++ events) e := by
  rcases h with he | he | ⟨he, hb⟩
  · exact .inl he
  · exact .inr (.inl he)
  · exact .inr (.inr ⟨he, hb.append events⟩)

/-- Both ends before the first event. -/
theorem joined_start (cli : TcpClient) (srv : Server.TcpServer) (rawIn rawOut : Nat → UInt8)
    (c : Connect) (raw : BufId → Nat → UInt8) (before : List Server.PoolCommand)
    (connfd loop : Nat) :
    Ends (Link.run cli srv rawIn rawOut c raw before connfd loop []) (Joined srv [])
      (Stops []) := by
  have w := pending_new rawIn rawOut
  unfold Link.run
  apply (((construct_ends rawIn rawOut c).and_post
    (construct_accepts (Deliverable srv) rawIn rawOut c)).imp (fun _ hs => hs) _).bind
  · rintro client ⟨hr, hacc⟩
    apply ((Server.start_ends srv raw before connfd loop).imp (fun _ hs => hs) _).bind
    · rintro server ⟨hlive, hd, -⟩
      obtain ⟨more, hmore, hpend⟩ := hr.output
      refine ⟨hr.phase, ⟨hacc, ⟨frames more, hpend [] w, ?_⟩, List.nil_prefix⟩, ?_⟩
      · rw [hr.session, hmore]
        rfl
      · exact .follows (hlive.tracks hd)
    · rintro e (⟨he, -⟩ | ⟨he, -⟩)
      · exact .inl he
      · exact .inr (.inl he)
  · exact fun e he => .inl he

/-- The invariant holds in every orderly run. -/
theorem run_joined (cli : TcpClient) (srv : Server.TcpServer) (rawIn rawOut : Nat → UInt8)
    (c : Connect) (raw : BufId → Nat → UInt8) (before : List Server.PoolCommand)
    (connfd loop : Nat) {events : List LinkEvent} (h : Orderly cli srv events) :
    Ends (Link.run cli srv rawIn rawOut c raw before connfd loop events) (Joined srv events)
      (Stops events) := by
  have hrun : Link.run cli srv rawIn rawOut c raw before connfd loop events =
      Link.run cli srv rawIn rawOut c raw before connfd loop [] >>=
        events.foldlM (Link.step cli srv) := by
    unfold Link.run
    simp
  rw [hrun]
  apply ((joined_start cli srv rawIn rawOut c raw before connfd loop).imp
    (fun _ hs => hs) (fun _ he => he.append events)).bind
  intro l hl
  apply Ends.foldlM (P := Joined srv) _ hl
  intro done e post l' hsplit hj
  have hmem : e ∈ events := by simp [hsplit]
  apply (hj.step e h.onConnection (fun m he => h.sends m (he ▸ hmem))
    (fun sys he => h.writes sys (he ▸ hmem))).imp (fun _ hs => hs)
  intro f hf
  have := hf.append post
  rw [List.append_assoc] at this
  rw [hsplit]
  exact this

/-- What the invariant says of the messages. -/
theorem Joined.dispatched_prefix (h : Joined srv done l) :
    l.server.dispatched <+: l.client.accepted :=
  h.incoming.dispatched.trans (refDecode_prefix_msgs
    (fun m hm => (h.outgoing.accepts m hm).sendable) h.outgoing.arrived_frames)

/-- Everything that was accepted was written, and arrived. -/
theorem Joined.arrived_all (h : Joined srv done l) (hobuf : l.client.obuf.length = 0)
    (htransit : l.transit = []) : l.arrived = frames l.client.accepted := by
  obtain ⟨pending, w, hsum⟩ := h.outgoing.queued
  obtain ⟨rest, hrest⟩ := h.outgoing.arrived
  have hpending : pending = [] := by
    rw [w.length] at hobuf
    exact List.eq_nil_of_length_eq_zero (by exact_mod_cast hobuf)
  have hnil : rest = [] := by
    unfold Link.transit at htransit
    rw [← hrest, List.drop_left] at htransit
    exact htransit
  rw [← hsum, ← hrest, hpending, hnil, List.append_nil, List.append_nil]

end

/-- In every order of sends, writes and arrivals: what the server dispatched is a prefix of
what `send_data` accepted, and all of it once every byte was written and read.  The server
reads what arrives until it closes the connection, which only a chunk that does not fit its
largest buffer makes it do. -/
theorem delivery_end_to_end (cli : TcpClient) (srv : Server.TcpServer) (rawIn rawOut : Nat → UInt8)
    (c : Connect) (raw : BufId → Nat → UInt8) (before : List Server.PoolCommand)
    (connfd loop : Nat) (events : List LinkEvent) (h : Orderly cli srv events) :
    Ends (Link.run cli srv rawIn rawOut c raw before connfd loop events)
      (fun l => l.server.dispatched <+: l.client.accepted ∧
        (l.client.obuf.length = 0 → l.transit = [] → l.server.conn.connfd ≠ -1 →
          l.server.dispatched = l.client.accepted) ∧
        (l.server.conn.connfd = -1 → Delivers events (8388608 - 65536)))
      (Stops events) := by
  apply (run_joined cli srv rawIn rawOut c raw before connfd loop h).imp _ (fun _ he => he)
  intro l hj
  have hsendable : ∀ m ∈ l.client.accepted, m.Sendable srv.dispatcher.exist :=
    fun m hm => (hj.outgoing.accepts m hm).sendable
  refine ⟨hj.dispatched_prefix, ?_, ?_⟩
  · intro hobuf htransit hopen
    have harrived := hj.arrived_all hobuf htransit
    cases hj.incoming with
    | closed hcleaned => exact absurd hcleaned.connfd hopen
    | follows htracks => rw [htracks.dispatched, harrived, refDecode_whole hsendable]
  · intro hclosed
    cases hj.incoming with
    | closed _ _ hbig => exact hbig
    | follows htracks =>
      obtain ⟨r, hr⟩ := refDecode_prefix_rest hsendable hj.outgoing.arrived_frames
      have hfd := (htracks.live hr).attached.fd
      omega

/-- A message is sent once the connection is there, is written in two parts, and arrives
in two others. -/
def sendOne : List LinkEvent :=
  [.writable noCalls, .sendData ⟨1, [7]⟩, .writable { noCalls with writes := [.wrote 5] },
    .deliver 3, .writable { noCalls with writes := [.eintr, .wrote 4] }, .deliver 100]

theorem delivery_end_to_end_one :
    Ends (Link.run (quietClient [1]) (Server.quietServer [1]) (fun _ => 0) (fun _ => 0)
        ⟨some 4, .inProgress⟩ (fun _ _ => 0) [] 7 1 sendOne)
      (fun l => l.server.dispatched <+: l.client.accepted ∧
        (l.client.obuf.length = 0 → l.transit = [] → l.server.conn.connfd ≠ -1 →
          l.server.dispatched = l.client.accepted) ∧
        (l.server.conn.connfd = -1 → Delivers sendOne (8388608 - 65536)))
      (Stops sendOne) := by
  refine delivery_end_to_end (quietClient [1]) (Server.quietServer [1]) (fun _ => 0) (fun _ => 0)
    ⟨some 4, .inProgress⟩ (fun _ _ => 0) [] 7 1 sendOne ⟨?_, ?_, ?_⟩
  · intro m hm
    have hm' : m = ⟨1, [7]⟩ := by simpa [sendOne] using hm
    subst hm'
    exact ⟨⟨by decide, by decide⟩, by decide⟩
  · intro f hf
    cases hf
  · intro sys hsys
    have hsys' : sys = noCalls ∨ sys = { noCalls with writes := [.wrote 5] } ∨
        sys = { noCalls with writes := [.eintr, .wrote 4] } := by
      simpa [sendOne] using hsys
    rcases hsys' with rfl | rfl | rfl
    · decide
    · decide
    · decide

end EasyReactor.Delivery
