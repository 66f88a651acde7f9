import EasyReactor.Client.Ledger
import EasyReactor.Reactor.Conversation

set_option autoImplicit false

/-!
# Reactor: a client that reconnects

A client whose connections end and are made again, at a server that has other connections
too.  What was written before a connection ended may arrive after the next connection was
accepted, and the object of an ended connection may serve another; `former` remembers what it
was.
-/

namespace EasyReactor.Reactor

open EasyReactor.Foundation EasyReactor.Buffer EasyReactor.Loop EasyReactor.Wire
open EasyReactor.Server
open EasyReactor.Client (TcpClient ClientState ClientEvent Connect Phase Graceful Portioned)

/-- A client with its sockets, and a server. -/
structure Line where
  client : ClientState
  server : TcpReactor
  /-- which socket of the client is at the other end of a connection -/
  peer : Nat → Option Nat
  /-- the sockets of the client that the server accepted or refused -/
  joined : List Nat
  /-- the sockets whose connection object serves another by now, with what it was -/
  former : List (Nat × Session)

inductive LineEvent where
  /-- anything that happens to the client -/
  | client (e : ClientEvent)
  /-- the kernel hands the connection of the client's `k`-th socket to `accept`, or that of
  another process -/
  | accept (k : Option Nat) (fd : Nat)
  /-- of the bytes under way, `n` arrive at connection `fd` -/
  | deliver (fd n : Nat)
  /-- anything else that happens at the server -/
  | server (e : Event)

namespace Line

def start (client : ClientState) (raw : BufId → Nat → UInt8) (size : Nat) (maxConns : Int) :
    Line :=
  ⟨client, .start raw size maxConns, fun _ => none, [], []⟩

/-- The next `m` bytes under way to connection `fd`. -/
def transit (n : Line) (fd m : Nat) : List UInt8 :=
  match n.peer fd, n.server.conns[fd]? with
  | some k, some (some c) =>
    match n.client.socket k with
    | some x => (x.sent.drop c.arrived.length).take m
    | none => []
  | _, _ => []

/-- Connection object `fd` is to serve another connection. -/
def leave (n : Line) (fd : Nat) : List (Nat × Session) :=
  match n.peer fd, n.server.conns[fd]? with
  | some k, some (some c) => (k, c) :: n.former
  | _, _ => n.former

/-- A connection that cannot come in: it came in before, or there is no such socket. -/
def Barred (n : Line) : Option Nat → Prop
  | none => False
  | some k => k ∈ n.joined ∨ n.client.socket k = none

instance (n : Line) : ∀ k, Decidable (n.Barred k)
  | none => inferInstanceAs (Decidable False)
  | some k => decidable_of_iff (k ∈ n.joined ∨ (n.client.socket k).isNone = true) (by
      simp [Barred])

/-- The event is one of those above, or brings bytes that nobody sent. -/
def Forged (n : Line) : Event → Prop
  | .accept _ => True
  | .readable fd bs => (n.peer fd).isSome ∧ bs ≠ []
  | _ => False

instance (n : Line) : ∀ e, Decidable (n.Forged e)
  | .accept _ => inferInstanceAs (Decidable True)
  | .readable _ _ => inferInstanceAs (Decidable (_ ∧ _))
  | .broken _ _ => inferInstanceAs (Decidable False)
  | .writable _ _ => inferInstanceAs (Decidable False)
  | .sendData _ _ _ => inferInstanceAs (Decidable False)

def atServer (srv : TcpServer) (loop : Nat) (n : Line) (e : Event) : Except Fault Line := do
  let server ← n.server.step srv loop e
  return { n with server := server }

def step (cli : TcpClient) (srv : TcpServer) (loop : Nat) (n : Line) :
    LineEvent → Except Fault Line
  | .client e => do
    let client ← n.client.step cli e
    return { n with client := client }
  | .accept k fd =>
    if n.Barred k ∨ (n.server.live fd).isSome then
      return n
    else do
      let server ← n.server.step srv loop (.accept fd)
      if (server.live fd).isSome then
        return { n with
          server := server
          peer := Function.update n.peer fd k
          joined := k.toList ++ n.joined
          former := n.leave fd }
      else
        -- a connection over the limit was closed at once
        return { n with server := server, joined := k.toList ++ n.joined }
  | .deliver fd m =>
    if n.transit fd m = [] then return n else n.atServer srv loop (.readable fd (n.transit fd m))
  | .server e => if n.Forged e then return n else n.atServer srv loop e

/-- A client is constructed, and runs. -/
def run (cli : TcpClient) (srv : TcpServer) (loop : Nat) (rawIn rawOut : Nat → UInt8)
    (c : Connect) (raw : BufId → Nat → UInt8) (size : Nat) (maxConns : Int)
    (events : List LineEvent) : Except Fault Line := do
  let client ← ClientState.construct rawIn rawOut c
  events.foldlM (step cli srv loop) (start client raw size maxConns)

/-- Connection `c` is, or was, that of the client's `k`-th socket. -/
def Joins (n : Line) (k : Nat) (c : Session) : Prop :=
  (k, c) ∈ n.former ∨ ∃ fd, n.peer fd = some k ∧ n.server.conns[fd]? = some (some c)

end Line

/-- The client's connections end at the start of a frame, and what happens at the server is
modest. -/
def LineEvent.Modest (cli : TcpClient) (n : Line) : LineEvent → Prop
  | .client e => Graceful cli n.client e
  | .accept _ _ => True
  | .deliver _ m => m ≤ 8388608 - 65536
  | .server e => e.Modest

/-! ## One step -/

section

variable {cli : TcpClient} {srv : TcpServer} {loop : Nat} {n n' : Line} {r r' : TcpReactor}
  {fd k : Nat} {bs : List UInt8} {c : Session}

/-- Every object that there is was there before; that of `fd` has read `bs`, if it is
another. -/
def Feeds (fd : Nat) (bs : List UInt8) (r r' : TcpReactor) : Prop :=
  ∀ (j : Nat) (c' : Session), r'.conns[j]? = some (some c') →
    ∃ c, r.conns[j]? = some (some c) ∧ (c' = c ∨ j = fd ∧ c'.arrived = c.arrived ++ bs)

theorem serve_feeds (r : TcpReactor) (fd : Nat) (bs : List UInt8) (e : ConnEvent) :
    Ends (r.serve srv fd bs e) (Feeds fd bs r) (fun _ => True) := by
  unfold TcpReactor.serve
  cases hlive : r.live fd with
  | none => exact fun j c' hc' => ⟨c', hc', .inl rfl⟩
  | some c =>
    have hget := (TcpReactor.live_eq_some.mp hlive).1
    apply (Ends.any _).bind
    intro s _ j c' hc'
    by_cases hj : j = fd
    · subst hj
      rw [put_conns_self hget] at hc'
      obtain rfl := Option.some.inj (Option.some.inj hc')
      exact ⟨c, hget, .inr ⟨rfl, rfl⟩⟩
    · rw [put_othersKept r fd _ s j hj] at hc'
      exact ⟨c', hc', .inl rfl⟩

/-- What an event brings to the server, and where. -/
def Event.brings : Event → Nat × List UInt8
  | .readable fd bs => (fd, bs)
  | .accept fd => (fd, [])
  | .broken fd _ => (fd, [])
  | .writable fd _ => (fd, [])
  | .sendData fd _ _ => (fd, [])

theorem step_feeds (r : TcpReactor) (loop : Nat) {e : Event} (he : ∀ fd, e ≠ .accept fd) :
    Ends (r.step srv loop e) (Feeds e.brings.1 e.brings.2 r) (fun _ => True) := by
  cases e with
  | accept fd => exact absurd rfl (he fd)
  | readable fd bs => exact serve_feeds r fd bs _
  | broken fd rn => exact serve_feeds r fd [] _
  | writable fd ws => exact serve_feeds r fd [] _
  | sendData fd data cmdid => exact serve_feeds r fd [] _

/-! ## The invariant -/

/-- Every connection has its own socket, and has read the start of what that took. -/
structure Attributed (srv : TcpServer) (n : Line) : Prop where
  server : Orderly srv n.server
  phase : Phase n.client
  portioned : Portioned n.client
  linked : ∀ k c, n.Joins k c → ∃ x, n.client.socket k = some x ∧ c.arrived <+: x.sent
  decoded : ∀ x ∈ n.former, x.2.dispatched = (refDecode srv.dispatcher.exist x.2.arrived).msgs
  joined : ∀ fd k, n.peer fd = some k → k ∈ n.joined
  gone : ∀ x ∈ n.former, x.1 ∈ n.joined
  apart : ∀ fd fd' k, n.peer fd = some k → n.peer fd' = some k → fd = fd'
  left : ∀ fd k, n.peer fd = some k → k ∉ n.former.map Prod.fst
  once : (n.former.map Prod.fst).Nodup

/-- A step of the client. -/
theorem Attributed.client (h : Attributed srv n) (e : ClientEvent)
    (hmodest : Graceful cli n.client e) :
    Ends (n.step cli srv loop (.client e)) (Attributed srv) (fun _ => True) := by
  obtain ⟨pending, w⟩ := Client.portioned_outputs.pending h.portioned
  have hkeeps : Client.Keeps cli _ _ := Client.portioned_outputs.keeps
  have hkeep := hkeeps.step h.phase h.portioned e hmodest
  unfold Line.step
  apply (hkeep.and_post (Client.step_grows h.phase w e)).bind
  rintro s ⟨⟨hphase, hportioned⟩, hgrows⟩
  refine ⟨h.server, hphase, hportioned, fun k c hjoins => ?_, h.decoded, h.joined, h.gone, h.apart,
    h.left, h.once⟩
  obtain ⟨x, hx, hpre⟩ := h.linked k c hjoins
  obtain ⟨y, hy, hxy⟩ := hgrows k x hx
  exact ⟨y, hy, hpre.trans hxy⟩

/-- A step of the server, at which only bytes arrive that are under way. -/
theorem Attributed.atServer (h : Attributed srv n) {e : Event} (he : ∀ fd, e ≠ .accept fd)
    (hsrv : srv.Private) (hmodest : e.Modest)
    (hbrings : ∀ k c x, n.peer e.brings.1 = some k →
      n.server.conns[e.brings.1]? = some (some c) → n.client.socket k = some x →
      c.arrived <+: x.sent → c.arrived ++ e.brings.2 <+: x.sent) :
    Ends (n.atServer srv loop e) (Attributed srv) (fun _ => True) := by
  have horderly := (h.server.step hsrv loop hmodest).imp (fun _ hr => hr) (fun _ _ => trivial)
  unfold Line.atServer
  apply (horderly.and_post (step_feeds n.server loop he)).bind
  rintro r ⟨hr, hfeeds⟩
  refine ⟨hr, h.phase, h.portioned, ?_, h.decoded, h.joined, h.gone, h.apart, h.left, h.once⟩
  rintro k c (hformer | ⟨fd, hpeer, hc⟩)
  · exact h.linked k c (.inl hformer)
  · obtain ⟨c₀, hc₀, hc₁⟩ := hfeeds fd c hc
    obtain ⟨x, hx, hpre⟩ := h.linked k c₀ (.inr ⟨fd, hpeer, hc₀⟩)
    refine ⟨x, hx, ?_⟩
    rcases hc₁ with rfl | ⟨rfl, harrived⟩
    · exact hpre
    · rw [harrived]
      exact hbrings k c₀ x hpeer hc₀ hx hpre

theorem transit_eq {x : Client.Session} (hpeer : n.peer fd = some k)
    (hc : n.server.conns[fd]? = some (some c)) (hx : n.client.socket k = some x) (m : Nat) :
    n.transit fd m = (x.sent.drop c.arrived.length).take m := by
  simp only [Line.transit, hpeer, hc, hx]

theorem length_transit_le (n : Line) (fd m : Nat) : (n.transit fd m).length ≤ m := by
  unfold Line.transit
  split
  next =>
    split
    next => exact List.length_take_le _ _
    next => exact Nat.zero_le _
  next => exact Nat.zero_le _

/-- Bytes under way arrive. -/
theorem Attributed.deliver (h : Attributed srv n) (hsrv : srv.Private) (fd : Nat) {m : Nat}
    (hmodest : m ≤ 8388608 - 65536) :
    Ends (n.step cli srv loop (.deliver fd m)) (Attributed srv) (fun _ => True) := by
  unfold Line.step
  simp only
  split
  next => exact h
  next =>
    refine h.atServer (fun _ he => by cases he) hsrv ((length_transit_le n fd m).trans hmodest) ?_
    intro k c x hpeer hc hx hpre
    show c.arrived ++ n.transit fd m <+: x.sent
    rw [show n.transit fd m = _ from transit_eq hpeer hc hx m]
    exact append_take_drop_prefix hpre m

/-- Anything else happens at the server. -/
theorem Attributed.others (h : Attributed srv n) (hsrv : srv.Private) {e : Event}
    (hmodest : e.Modest) :
    Ends (n.step cli srv loop (.server e)) (Attributed srv) (fun _ => True) := by
  unfold Line.step
  simp only
  split
  next => exact h
  next hforged =>
    refine h.atServer (fun fd he => hforged (by rw [he]; trivial)) hsrv hmodest ?_
    intro k c x hpeer hc hx hpre
    have hnone : e.brings.2 = [] := by
      cases e with
      | readable fd bs =>
        by_contra hne
        refine hforged ⟨?_, hne⟩
        rw [show n.peer fd = some k from hpeer]
        rfl
      | _ => rfl
    rw [hnone, List.append_nil]
    exact hpre

/-- The sockets whose objects serve another connection, with that of `fd` or without. -/
theorem leave_cases (n : Line) (fd : Nat) :
    n.leave fd = n.former ∨ ∃ k c, n.peer fd = some k ∧ n.server.conns[fd]? = some (some c) ∧
      n.leave fd = (k, c) :: n.former := by
  unfold Line.leave
  split
  next k c hpeer hc => exact .inr ⟨k, c, hpeer, hc, rfl⟩
  next => exact .inl rfl

/-- A connection object begins another connection. -/
theorem Attributed.begins (h : Attributed srv n) {k : Option Nat} (hbar : ¬ n.Barred k)
    (hr : Orderly srv r) (hothers : OthersKept fd n.server r)
    (hc : r.conns[fd]? = some (some c)) (harrived : c.arrived = []) :
    Attributed srv { n with
      server := r
      peer := Function.update n.peer fd k
      joined := k.toList ++ n.joined
      former := n.leave fd } := by
  have hself : Function.update n.peer fd k fd = k := Function.update_self ..
  have hother : ∀ {j : Nat}, j ≠ fd → Function.update n.peer fd k j = n.peer j :=
    fun hne => Function.update_of_ne hne ..
  -- what is left behind is a connection that the server had
  have hleave : ∀ x ∈ n.leave fd, x ∈ n.former ∨
      n.peer fd = some x.1 ∧ n.server.conns[fd]? = some (some x.2) := by
    intro x hx
    rcases leave_cases n fd with heq | ⟨k', c', hpeer, hc', heq⟩
    · exact .inl (heq ▸ hx)
    · rw [heq, List.mem_cons] at hx
      rcases hx with rfl | hold
      · exact .inr ⟨hpeer, hc'⟩
      · exact .inl hold
  have hgone : ∀ x ∈ n.leave fd, x.1 ∈ n.joined := by
    intro x hx
    rcases hleave x hx with hold | ⟨hpeer, -⟩
    · exact h.gone x hold
    · exact h.joined fd x.1 hpeer
  have hnew : ∀ k', k = some k' → k' ∉ n.joined ∧ ∃ x, n.client.socket k' = some x := by
    rintro k' rfl
    obtain ⟨hfresh, hsocket⟩ := not_or.mp hbar
    exact ⟨hfresh, Option.ne_none_iff_exists'.mp hsocket⟩
  refine ⟨hr, h.phase, h.portioned, ?_, ?_, ?_, ?_, ?_, ?_, ?_⟩
  · rintro k' x (hx | ⟨j, hj, hx⟩)
    · rcases hleave _ hx with hold | ⟨hpeer, hx⟩
      · exact h.linked k' x (.inl hold)
      · exact h.linked k' x (.inr ⟨fd, hpeer, hx⟩)
    · by_cases hne : j = fd
      · subst hne
        obtain ⟨y, hy⟩ := (hnew k' (hself.symm.trans hj)).2
        obtain rfl := Option.some.inj (Option.some.inj (hc.symm.trans hx))
        exact ⟨y, hy, harrived ▸ List.nil_prefix⟩
      · refine h.linked k' x (.inr ⟨j, (hother hne).symm.trans hj, ?_⟩)
        exact (hothers j hne).symm.trans hx
  · intro x hx
    rcases hleave x hx with hold | ⟨-, hx⟩
    · exact h.decoded x hold
    · exact (h.server.alone hx).dispatched
  · intro j k' hj
    by_cases hne : j = fd
    · subst hne
      exact List.mem_append_left _ (by rw [hself.symm.trans hj]; simp)
    · exact List.mem_append_right _ (h.joined j k' ((hother hne).symm.trans hj))
  · exact fun x hx => List.mem_append_right _ (hgone x hx)
  · intro j j' k' hj hj'
    by_cases hne : j = fd
    · by_cases hne' : j' = fd
      · rw [hne, hne']
      · subst hne
        have hfresh := (hnew k' (hself.symm.trans hj)).1
        exact absurd (h.joined j' k' ((hother hne').symm.trans hj')) hfresh
    · by_cases hne' : j' = fd
      · subst hne'
        have hfresh := (hnew k' (hself.symm.trans hj')).1
        exact absurd (h.joined j k' ((hother hne).symm.trans hj)) hfresh
      · exact h.apart j j' k' ((hother hne).symm.trans hj) ((hother hne').symm.trans hj')
  · intro j k' hj hmem
    obtain ⟨x, hx, rfl⟩ := List.mem_map.mp hmem
    by_cases hne : j = fd
    · subst hne
      exact (hnew x.1 (hself.symm.trans hj)).1 (hgone x hx)
    · rcases hleave x hx with hold | ⟨hpeer, -⟩
      · exact h.left j x.1 ((hother hne).symm.trans hj) (List.mem_map_of_mem hold)
      · exact hne (h.apart j fd x.1 ((hother hne).symm.trans hj) hpeer)
  · show ((n.leave fd).map Prod.fst).Nodup
    rcases leave_cases n fd with heq | ⟨k', c', hpeer, -, heq⟩
    · rw [heq]
      exact h.once
    · rw [heq, List.map_cons]
      exact List.nodup_cons.mpr ⟨h.left fd k' hpeer, h.once⟩

/-- A connection comes in. -/
theorem Attributed.accept (h : Attributed srv n) (hsrv : srv.Private) (k : Option Nat)
    (fd : Nat) :
    Ends (n.step cli srv loop (.accept k fd)) (Attributed srv) (fun _ => True) := by
  unfold Line.step
  simp only
  split
  next => exact h
  next hno =>
    obtain ⟨hbar, hfree⟩ := not_or.mp hno
    rw [Option.not_isSome_iff_eq_none] at hfree
    have horderly := (h.server.step (e := .accept fd) hsrv loop trivial).imp
      (fun _ hr => hr) (fun _ _ => trivial)
    apply (horderly.and_post (accept_begins hsrv h.server hfree loop)).bind
    rintro r ⟨hr, hbegins⟩
    split
    next hlive =>
      rcases hbegins with hsame | ⟨hothers, c, hc, hb⟩
      · -- an object that was refused stays closed
        have hfree' : r.live fd = none := by
          unfold TcpReactor.live at hfree ⊢
          rw [hsame]
          exact hfree
        rw [hfree'] at hlive
        cases hlive
      · exact h.begins hbar hr hothers hc hb.arrived
    next hlive =>
      rcases hbegins with hsame | ⟨-, c, hc, hb⟩
      · refine ⟨hr, h.phase, h.portioned, ?_, h.decoded, ?_, ?_, h.apart, h.left, h.once⟩
        · rintro k' x (hx | ⟨j, hj, hx⟩)
          · exact h.linked k' x (.inl hx)
          · exact h.linked k' x (.inr ⟨j, hj, by rwa [← hsame]⟩)
        · exact fun j k' hj => List.mem_append_right _ (h.joined j k' hj)
        · exact fun x hx => List.mem_append_right _ (h.gone x hx)
      · refine absurd (Option.isSome_iff_exists.mpr ⟨c, ?_⟩) hlive
        refine TcpReactor.live_eq_some.mpr ⟨hc, ?_⟩
        unfold Session.isOpen
        rw [hb.connfd]
        simp

/-- **Step.** -/
theorem Attributed.step (h : Attributed srv n) (hsrv : srv.Private) (e : LineEvent)
    (hmodest : e.Modest cli n) :
    Ends (n.step cli srv loop e) (Attributed srv) (fun _ => True) := by
  cases e with
  | client e => exact h.client e hmodest
  | accept k fd => exact h.accept hsrv k fd
  | deliver fd m => exact h.deliver hsrv fd hmodest
  | server e => exact h.others hsrv hmodest

/-! ## Every run -/

instance : ∀ e : Event, Decidable e.Modest
  | .accept _ => inferInstanceAs (Decidable True)
  | .readable _ _ => inferInstanceAs (Decidable (_ ≤ _))
  | .broken _ _ => inferInstanceAs (Decidable (_ ≤ _))
  | .writable _ _ => inferInstanceAs (Decidable True)
  | .sendData _ _ _ => inferInstanceAs (Decidable (_ < _))

instance (cli : TcpClient) (n : Line) : ∀ e : LineEvent, Decidable (e.Modest cli n)
  | .client _ => inferInstanceAs (Decidable (Graceful _ _ _))
  | .accept _ _ => inferInstanceAs (Decidable True)
  | .deliver _ _ => inferInstanceAs (Decidable (_ ≤ _))
  | .server _ => inferInstanceAs (Decidable (Event.Modest _))

/-- Every event of a run is modest where it happens. -/
def Line.RunsModestly (cli : TcpClient) (srv : TcpServer) (loop : Nat) (rawIn rawOut : Nat → UInt8)
    (c : Connect) (raw : BufId → Nat → UInt8) (size : Nat) (maxConns : Int)
    (events : List LineEvent) : Prop :=
  match ClientState.construct rawIn rawOut c with
  | .ok client =>
    Meets (Line.step cli srv loop) (fun n e => e.Modest cli n) (.start client raw size maxConns)
      events
  | .error _ => True

instance (cli : TcpClient) (srv : TcpServer) (loop : Nat) (rawIn rawOut : Nat → UInt8)
    (c : Connect) (raw : BufId → Nat → UInt8) (size : Nat) (maxConns : Int)
    (events : List LineEvent) :
    Decidable (Line.RunsModestly cli srv loop rawIn rawOut c raw size maxConns events) :=
  match h : ClientState.construct rawIn rawOut c with
  | .ok client =>
    have : Decidable (Meets (Line.step cli srv loop) (fun n e => LineEvent.Modest cli n e)
        (.start client raw size maxConns) events) := decidableMeets _ _ _
    decidable_of_iff _ (by rw [Line.RunsModestly, h])
  | .error _ => .isTrue (by rw [Line.RunsModestly, h]; trivial)

theorem start_attributed (srv : TcpServer) {rawIn rawOut : Nat → UInt8}
    {c : Connect} {client : ClientState}
    (hclient : ClientState.construct rawIn rawOut c = .ok client)
    (raw : BufId → Nat → UInt8) (size : Nat) (maxConns : Int) :
    Attributed srv (.start client raw size maxConns) := by
  have w := Client.pending_new rawIn rawOut
  have hr : Client.Renewed (.new rawIn rawOut) client :=
    (Client.construct_ends rawIn rawOut c).of_ok hclient
  have hnew : Portioned (.new rawIn rawOut) := ⟨[], [], [], rfl, rfl, w, rfl⟩
  have hidle := Client.portioned_outputs.idle hnew rfl
  refine ⟨start_orderly srv raw size maxConns, hr.phase, hnew.renewed hidle hr, ?_, ?_, ?_, ?_, ?_,
    ?_, List.nodup_nil⟩
  · rintro k c (hformer | ⟨fd, hpeer, -⟩)
    · cases hformer
    · cases hpeer
  · exact fun x hx => by cases hx
  · exact fun fd k hpeer => by cases hpeer
  · exact fun x hx => by cases hx
  · exact fun fd fd' k hpeer => by cases hpeer
  · exact fun fd k hpeer => by cases hpeer

theorem run_attributed (hsrv : srv.Private) {rawIn rawOut : Nat → UInt8} {c : Connect}
    {raw : BufId → Nat → UInt8} {size : Nat} {maxConns : Int} {events : List LineEvent}
    (hmodest : Line.RunsModestly cli srv loop rawIn rawOut c raw size maxConns events)
    (hrun : Line.run cli srv loop rawIn rawOut c raw size maxConns events = .ok n) :
    Attributed srv n := by
  obtain ⟨client, hclient, hevents⟩ := bind_eq_ok.mp hrun
  unfold Line.RunsModestly at hmodest
  rw [hclient] at hmodest
  refine (Ends.foldlM_meets (fun n e hn he => hn.step hsrv e he) events _ ?_ hmodest).of_ok hevents
  exact start_attributed srv hclient raw size maxConns

/-- The messages of each socket: what it took is the start of their frames, and all of them once
the socket was given up or nothing is pending. -/
theorem portions {s : ClientState} (h : Portioned s) :
    ∃ parts : List (List Msg), parts.flatten = s.accepted ∧ parts.length = s.past.length + 1 ∧
      ∀ k x, s.socket k = some x → ∃ ms, parts[k]? = some ms ∧ x.sent <+: frames ms ∧
        (k < s.past.length ∨ s.obuf.length = 0 → x.sent = frames ms) := by
  obtain ⟨parts, mine, pending, hsplit, hpast, w, hsum⟩ := h
  have hlen : parts.length = s.past.length := by simpa using (congrArg List.length hpast).symm
  refine ⟨parts ++ [mine], ?_, by simp [hlen], fun k x hx => ?_⟩
  · rw [hsplit, List.flatten_append, List.flatten_singleton]
  unfold ClientState.socket at hx
  rcases Nat.lt_trichotomy k s.past.length with hlt | rfl | hgt
  · rw [List.getElem?_append_left hlt] at hx
    have hparts : (parts.map frames)[k]? = some x.sent := by
      rw [← hpast, List.getElem?_map, hx]
      rfl
    rw [List.getElem?_map] at hparts
    obtain ⟨ms, hms, hsent⟩ := Option.map_eq_some_iff.mp hparts
    refine ⟨ms, ?_, hsent ▸ List.prefix_rfl, fun _ => hsent.symm⟩
    rw [List.getElem?_append_left (hlen ▸ hlt)]
    exact hms
  · rw [List.getElem?_concat_length] at hx
    obtain rfl := Option.some.inj hx
    refine ⟨mine, ?_, ⟨pending, hsum⟩, fun hend => ?_⟩
    · rw [← hlen, List.getElem?_concat_length]
    · have hzero := hend.resolve_left (Nat.lt_irrefl _)
      rw [w.length] at hzero
      have hnil : pending = [] := List.eq_nil_of_length_eq_zero (by exact_mod_cast hzero)
      rw [← hsum, hnil, List.append_nil]
  · have hout : (s.past ++ [s.session]).length ≤ k := by
      rw [List.length_append, List.length_singleton]
      exact hgt
    rw [List.getElem?_eq_none hout] at hx
    cases hx

theorem Attributed.decodes (h : Attributed srv n) (hjoins : n.Joins k c) :
    c.dispatched = (refDecode srv.dispatcher.exist c.arrived).msgs := by
  rcases hjoins with hformer | ⟨fd, -, hc⟩
  · exact h.decoded _ hformer
  · exact (h.server.alone hc).dispatched

/-- A socket has one connection. -/
theorem Attributed.unique (h : Attributed srv n) {c' : Session} (hjoins : n.Joins k c)
    (hjoins' : n.Joins k c') : c = c' := by
  rcases hjoins with hformer | ⟨fd, hpeer, hc⟩
  · rcases hjoins' with hformer' | ⟨fd', hpeer', -⟩
    · exact (Prod.mk.inj (List.inj_on_of_nodup_map h.once hformer hformer' rfl)).2
    · exact absurd (List.mem_map_of_mem hformer) (h.left fd' k hpeer')
  · rcases hjoins' with hformer' | ⟨fd', hpeer', hc'⟩
    · exact absurd (List.mem_map_of_mem hformer') (h.left fd k hpeer)
    · obtain rfl := h.apart fd fd' k hpeer hpeer'
      exact Option.some.inj (Option.some.inj (hc.symm.trans hc'))

/-- **At most once, across reconnects.**  In every run in which the client's connections end at
the start of a frame, the messages it accepted fall into parts, one for each of its sockets in
turn; every connection of the server belongs to one socket of the client, and no two to the
same; it has dispatched the first messages of its socket's part, in order, and all of them once
it has read what the socket took and nothing is left for it.  So no message is dispatched
twice, however often the client reconnects. -/
theorem dispatched_at_most_once (hsrv : srv.Private) {rawIn rawOut : Nat → UInt8} {c : Connect}
    {raw : BufId → Nat → UInt8} {size : Nat} {maxConns : Int} {events : List LineEvent}
    (hmodest : Line.RunsModestly cli srv loop rawIn rawOut c raw size maxConns events)
    (hrun : Line.run cli srv loop rawIn rawOut c raw size maxConns events = .ok n)
    (hknown : ∀ m ∈ n.client.accepted, m.Sendable srv.dispatcher.exist) :
    ∃ parts : List (List Msg), parts.flatten = n.client.accepted ∧
      parts.length = n.client.past.length + 1 ∧
      (∀ k c, n.Joins k c → ∃ ms x, parts[k]? = some ms ∧ n.client.socket k = some x ∧
        c.dispatched <+: ms ∧ (c.arrived = x.sent →
          k < n.client.past.length ∨ n.client.obuf.length = 0 → c.dispatched = ms)) ∧
      ∀ k c c', n.Joins k c → n.Joins k c' → c = c' := by
  have h := run_attributed hsrv hmodest hrun
  obtain ⟨parts, hflat, hlen, hparts⟩ := portions h.portioned
  refine ⟨parts, hflat, hlen, fun k c hjoins => ?_, fun k c c' => h.unique⟩
  obtain ⟨x, hx, hpre⟩ := h.linked k c hjoins
  obtain ⟨ms, hms, hstart, hwhole⟩ := hparts k x hx
  have hsendable : ∀ m ∈ ms, m.Sendable srv.dispatcher.exist := by
    intro m hm
    refine hknown m ?_
    rw [← hflat]
    exact List.mem_flatten_of_mem (List.mem_of_getElem? hms) hm
  refine ⟨ms, x, hms, hx, ?_, fun harrived hend => ?_⟩
  · rw [h.decodes hjoins]
    exact refDecode_prefix_msgs hsendable (hpre.trans hstart)
  · rw [h.decodes hjoins, harrived, hwhole hend, refDecode_whole hsendable]

/-- A message goes out on the first connection, which the server closes; another on the second.
The server reads the end of the first after it accepted the second. -/
def comesBack : List LineEvent :=
  [.client (.io .output Client.noCalls), .client (.sendData ⟨1, [7]⟩), .accept (some 1) 3,
    .client (.io .output { Client.noCalls with writes := [.wrote 9] }), .deliver 3 4,
    .client (.io .input { Client.noCalls with
      recv := .chunk [], connect := ⟨some 5, .inProgress⟩ }),
    .client (.io .output Client.noCalls), .client (.sendData ⟨1, [8]⟩), .accept (some 2) 4,
    .client (.io .output { Client.noCalls with writes := [.wrote 9] }), .deliver 4 9,
    .deliver 3 9, .server (.readable 3 []), .accept none 3]

theorem comesBack_runs : ∃ n,
    Line.run (Client.quietClient [1]) (quietServer [1]) 0 (fun _ => 0) (fun _ => 0)
      ⟨some 4, .inProgress⟩ (fun _ _ => 0) 8 5 comesBack = .ok n ∧
      (n.client.accepted, n.former.map fun x => (x.1, x.2.dispatched)) =
        ([⟨1, [7]⟩, ⟨1, [8]⟩], [(1, [⟨1, [7]⟩])]) :=
  ok_of_observed (by decide +kernel)

theorem dispatched_at_most_once_comesBack : ∃ n,
    Line.run (Client.quietClient [1]) (quietServer [1]) 0 (fun _ => 0) (fun _ => 0)
      ⟨some 4, .inProgress⟩ (fun _ _ => 0) 8 5 comesBack = .ok n ∧
    ∃ parts : List (List Msg), parts.flatten = n.client.accepted ∧
      parts.length = n.client.past.length + 1 ∧
      (∀ k c, n.Joins k c → ∃ ms x, parts[k]? = some ms ∧ n.client.socket k = some x ∧
        c.dispatched <+: ms ∧ (c.arrived = x.sent →
          k < n.client.past.length ∨ n.client.obuf.length = 0 → c.dispatched = ms)) ∧
      ∀ k c c', n.Joins k c → n.Joins k c' → c = c' := by
  obtain ⟨n, hrun, hobs⟩ := comesBack_runs
  refine ⟨n, hrun, dispatched_at_most_once (private_quiet [1]) (by decide +kernel) hrun ?_⟩
  rw [(Prod.mk.inj hobs).1]
  simp only [List.mem_cons, List.not_mem_nil, or_false, forall_eq_or_imp, forall_eq]
  exact ⟨⟨rfl, by decide⟩, rfl, by decide⟩

end

end EasyReactor.Reactor
