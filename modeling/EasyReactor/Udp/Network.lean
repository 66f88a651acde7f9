import Mathlib.Data.List.Induction
import EasyReactor.Udp.RoundTrip

set_option autoImplicit false

/-!
# Udp: one server, many clients

A datagram may be lost, or arrive late, out of order, or more than once, so any datagram
that was ever sent may arrive at any time.  The server has one `_srcaddr`, which every
`::recvfrom` overwrites.  A message callback runs before the next `::recvfrom`, so what it
sends goes to the client whose message it was called for.
-/

namespace EasyReactor.Udp

open EasyReactor.Foundation EasyReactor.Wire

variable {κ α : Type}

namespace UdpServer

/-- The `send_data` calls of a message callback, with what `::sendto` returns for each:
the datagrams sent, and where to. -/
def reply (s : UdpServer κ α) :
    List (Msg × Int) → Except Fault (UdpServer κ α × List (List UInt8 × α))
  | [] => .ok (s, [])
  | (m, ret) :: rest => do
    let (s, _, sent) ← s.sendData m.body m.cmdid ret
    let (s, sents) ← s.reply rest
    .ok (s, sent.toList ++ sents)

end UdpServer

/-- A server, its clients by their address, and what has happened so far. -/
structure Net (κ α : Type) where
  server : UdpServer κ α
  clients : α → UdpClient κ
  /-- every datagram a client sent -/
  requests : List (α × List UInt8)
  /-- every datagram the server sent -/
  responses : List (List UInt8 × α)
  /-- the messages that `::sendto` took from a client -/
  asked : List (α × Msg)
  /-- the datagrams that `::recvfrom` returned to the server -/
  received : List (α × List UInt8)
  /-- the callbacks that the server called, and for whom -/
  heard : List (α × Dispatch κ)
  /-- the datagrams that `::recvfrom` returned to a client -/
  returned : List (α × List UInt8)
  /-- the callbacks that a client called -/
  got : List (α × Dispatch κ)

inductive NetEvent (α : Type) where
  /-- the user of the client at `a` calls `send_data`, for which `::sendto` returns `ret` -/
  | ask (a : α) (m : Msg) (ret : Int)
  /-- the `i`-th request arrives, for the first time or again; `rets` are the results of
  `::sendto` in the callback -/
  | request (i : Nat) (rets : List Int)
  /-- the `i`-th response arrives, for the first time or again -/
  | response (i : Nat)

namespace Net

variable [DecidableEq α]

/-- Nothing has been sent yet. -/
def start (server : UdpServer κ α) (clients : α → UdpClient κ) : Net κ α :=
  ⟨server, clients, [], [], [], [], [], [], []⟩

/-- One event; a message callback of the server sends what `answer` says. -/
def step (answer : Dispatch κ → List Msg) (n : Net κ α) : NetEvent α → Except Fault (Net κ α)
  | .ask a m ret => do
    let (c, _, sent) ← (n.clients a).sendData m.body m.cmdid ret
    .ok
      { n with
        clients := Function.update n.clients a c
        requests := n.requests ++ sent.toList.map fun bytes => (a, bytes)
        asked := n.asked ++ sent.toList.map fun _ => (a, m) }
  | .request i rets =>
    match n.requests[i]? with
    | none => .ok n
    | some (a, bytes) => do
      let (s, ds) ← n.server.package bytes a
      let (s, sent) ← s.reply (ds.flatMap fun d => (answer d).zip rets)
      .ok
        { n with
          server := s
          responses := n.responses ++ sent
          received := n.received ++ [(a, bytes)]
          heard := n.heard ++ ds.map fun d => (a, d) }
  | .response i =>
    match n.responses[i]? with
    | none => .ok n
    | some (bytes, a) => do
      let (c, ds) ← (n.clients a).package bytes a
      .ok
        { n with
          clients := Function.update n.clients a c
          returned := n.returned ++ [(a, bytes)]
          got := n.got ++ ds.map fun d => (a, d) }

def run (answer : Dispatch κ → List Msg) (n : Net κ α) (events : List (NetEvent α)) :
    Except Fault (Net κ α) :=
  events.foldlM (step answer) n

end Net

/-! ## One datagram -/

/-- A message that goes over: its body fits, and the other side has a callback for it. -/
def Carried (disp : MsgDispatcher κ) (m : Msg) : Prop :=
  m.body.length ≤ bodyLimit ∧ disp.exist m.cmdid = true

instance (disp : MsgDispatcher κ) (m : Msg) : Decidable (Carried disp m) :=
  inferInstanceAs (Decidable (_ ∧ _))

theorem Endpoint.sendData_dispatcher {e e' : Endpoint κ} {data : List UInt8} {cmdid : Int32}
    {ret ret' : Int} {sent : Option (List UInt8)}
    (h : e.sendData data cmdid ret = .ok (e', ret', sent)) : e'.dispatcher = e.dispatcher := by
  unfold sendData at h
  split at h
  next =>
    obtain ⟨rfl, -⟩ := Prod.mk.inj (Except.ok.inj h)
    rfl
  next =>
    simp only at h
    split at h
    next =>
      obtain ⟨rfl, -⟩ := Prod.mk.inj (Except.ok.inj h)
      rfl
    next => cases h

theorem Endpoint.package_frame {mismatch : Int → Int → Bool} (e : Endpoint κ)
    (hm : Compares mismatch) {m : Msg} (h : Carried e.dispatcher m) :
    ∃ e' d, e.package mismatch m.frame = .ok (e', [d]) ∧ e'.dispatcher = e.dispatcher ∧
      dispatch e.dispatcher m = .ok d ∧ d.msg = m := by
  obtain ⟨d, hd, hmsg⟩ := dispatch_of_exist h.2
  refine ⟨(e.recv m.frame).1, d, ?_, rfl, hd, hmsg⟩
  rw [package_eq e hm, deliver, arrived_frame h.1]
  simp only [hd, ok_bind]
  rfl

theorem UdpServer.package_frame (s : UdpServer κ α) {m : Msg} (h : Carried s.dispatcher m)
    (a : α) :
    ∃ s' d, s.package m.frame a = .ok (s', [d]) ∧ s'.dispatcher = s.dispatcher ∧
      s'.srcaddr = a ∧ dispatch s.dispatcher m = .ok d ∧ d.msg = m := by
  have hcompares : Endpoint.Compares mismatch := fun length pkgLen => bne_iff_ne
  obtain ⟨e, d, hpackage, hdisp, hd, hmsg⟩ := s.toEndpoint.package_frame hcompares h
  exact ⟨⟨e, a⟩, d, by rw [package, hpackage, ok_bind], hdisp, rfl, hd, hmsg⟩

theorem UdpClient.package_frame (c : UdpClient κ) {m : Msg} (h : Carried c.dispatcher m)
    (a : α) :
    ∃ c' d, c.package m.frame a = .ok (c', [d]) ∧ c'.dispatcher = c.dispatcher ∧
      dispatch c.dispatcher m = .ok d ∧ d.msg = m := by
  have hcompares : Endpoint.Compares mismatch := by
    intro length pkgLen
    rw [mismatch, bne_iff_ne]
    omega
  obtain ⟨e, d, hpackage, hdisp, hd, hmsg⟩ := c.toEndpoint.package_frame hcompares h
  exact ⟨⟨e⟩, d, by rw [package, hpackage, ok_bind], hdisp, hd, hmsg⟩

/-- The datagram of one `send_data` of the server, unless `::sendto` fails. -/
def sentTo (a : α) (act : Msg × Int) : Option (List UInt8 × α) :=
  if act.2 = -1 then none else some (act.1.frame, a)

/-- What a callback sends goes to `_srcaddr`. -/
theorem UdpServer.reply_sends : ∀ (acts : List (Msg × Int)) (s : UdpServer κ α),
    (∀ act ∈ acts, act.1.body.length ≤ bodyLimit) →
    ∃ s', s.reply acts = .ok (s', acts.filterMap (sentTo s.srcaddr)) ∧
      s'.dispatcher = s.dispatcher := by
  intro acts
  induction acts with
  | nil => exact fun s _ => ⟨s, rfl, rfl⟩
  | cons act acts ih =>
    intro s hfits
    obtain ⟨hm, hacts⟩ := List.forall_mem_cons.mp hfits
    obtain ⟨e, he⟩ := s.toEndpoint.sendData_fits hm act.2
    obtain ⟨s', hreply, hdisp⟩ := ih { s with toEndpoint := e } hacts
    refine ⟨s', ?_, hdisp.trans (Endpoint.sendData_dispatcher he)⟩
    rw [reply, sendData, he, ok_bind]
    simp only [ok_bind]
    rw [hreply, ok_bind, List.filterMap_cons, sentTo]
    split <;> rfl

theorem mem_sentTo {a : α} {act : Msg × Int} {x : List UInt8 × α} (h : sentTo a act = some x) :
    x = (act.1.frame, a) := by
  unfold sentTo at h
  split at h
  next => cases h
  next => exact (Option.some.inj h).symm

/-! ## Whole runs -/

/-- What the callbacks of the server send to whoever asked, the clients can take. -/
def Understood (answer : Dispatch κ → List Msg) (server : MsgDispatcher κ)
    (client : α → MsgDispatcher κ) : Prop :=
  ∀ d, Carried server d.msg → ∀ m ∈ answer d, ∀ a, Carried (client a) m

/-- What a client sends, the server can take. -/
def NetEvent.Asks (server : MsgDispatcher κ) : NetEvent α → Prop
  | .ask _ m _ => Carried server m
  | .request _ _ => True
  | .response _ => True

instance (server : MsgDispatcher κ) : ∀ e : NetEvent α, Decidable (e.Asks server)
  | .ask _ m _ => inferInstanceAs (Decidable (Carried server m))
  | .request _ _ => .isTrue trivial
  | .response _ => .isTrue trivial

namespace Net

/-- Every datagram that arrives calls one callback with the message it carries.  A callback
of the server is for a message of that client; one of a client is for an answer to a message
of its own. -/
structure Answers (answer : Dispatch κ → List Msg) (n : Net κ α) : Prop where
  heard : n.heard.map (fun x => (x.1, x.2.msg.frame)) = n.received
  asked : ∀ x ∈ n.heard, (x.1, x.2.msg) ∈ n.asked
  got : n.got.map (fun x => (x.1, x.2.msg.frame)) = n.returned
  answered : ∀ x ∈ n.got, ∃ d, (x.1, d) ∈ n.heard ∧ x.2.msg ∈ answer d

/-- What is under way can be taken, and comes from where it should. -/
structure Exchanges (answer : Dispatch κ → List Msg) (server : MsgDispatcher κ)
    (client : α → MsgDispatcher κ) (n : Net κ α) : Prop where
  atServer : n.server.dispatcher = server
  atClient : ∀ a, (n.clients a).dispatcher = client a
  carried : ∀ x ∈ n.asked, Carried server x.2
  requests : n.requests = n.asked.map fun x => (x.1, x.2.frame)
  responses : ∀ x ∈ n.responses, ∃ d, (x.2, d) ∈ n.heard ∧ ∃ m ∈ answer d, x.1 = m.frame
  answers : Answers answer n

variable [DecidableEq α] {answer : Dispatch κ → List Msg} {server : MsgDispatcher κ}
  {client : α → MsgDispatcher κ} {n : Net κ α}

/-- Client `a` is left with the same callbacks. -/
theorem Exchanges.update (h : Exchanges answer server client n) {a : α} {c : UdpClient κ}
    (hc : c.dispatcher = (n.clients a).dispatcher) (b : α) :
    (Function.update n.clients a c b).dispatcher = client b := by
  by_cases hb : b = a
  · subst hb
    rw [Function.update_self, hc, h.atClient b]
  · rw [Function.update_of_ne hb, h.atClient b]

theorem Exchanges.ask (h : Exchanges answer server client n) (a : α) {m : Msg} (ret : Int)
    (hm : Carried server m) :
    ∃ n', n.step answer (.ask a m ret) = .ok n' ∧ Exchanges answer server client n' := by
  obtain ⟨e, he⟩ := (n.clients a).toEndpoint.sendData_fits hm.1 ret
  have hdisp := Endpoint.sendData_dispatcher he
  have hsend : (n.clients a).sendData m.body m.cmdid ret =
      .ok (⟨e⟩, ret, if ret = -1 then none else some m.frame) := by
    rw [UdpClient.sendData, he, ok_bind]
  refine ⟨_, by rw [step, hsend, ok_bind], ?_⟩
  refine ⟨h.atServer, fun b => h.update hdisp b, ?_, ?_, h.responses, ?_⟩
  · intro x hx
    rcases List.mem_append.mp hx with hold | hnew
    · exact h.carried x hold
    · obtain ⟨_, _, rfl⟩ := List.mem_map.mp hnew
      exact hm
  · show n.requests ++ _ = List.map _ (n.asked ++ _)
    rw [List.map_append, h.requests]
    split <;> rfl
  · refine ⟨h.answers.heard, fun x hx => ?_, h.answers.got, h.answers.answered⟩
    exact List.mem_append_left _ (h.answers.asked x hx)

theorem Exchanges.request (hu : Understood answer server client)
    (h : Exchanges answer server client n) (i : Nat) (rets : List Int) :
    ∃ n', n.step answer (.request i rets) = .ok n' ∧ Exchanges answer server client n' := by
  rw [step]
  cases hi : n.requests[i]? with
  | none => exact ⟨n, rfl, h⟩
  | some x =>
    -- the datagram carries a message of the client it comes from
    have hmem := List.mem_of_getElem? hi
    rw [h.requests] at hmem
    obtain ⟨⟨a, m⟩, hasked, rfl⟩ := List.mem_map.mp hmem
    have hm : Carried server m := h.carried _ hasked
    obtain ⟨s, d, hpackage, hdisp, hsrc, hd, hmsg⟩ :=
      n.server.package_frame (h.atServer ▸ hm) a
    have hfits : ∀ act ∈ (answer d).zip rets, act.1.body.length ≤ bodyLimit := fun act hact =>
      (hu d (hmsg ▸ hm) act.1 (List.of_mem_zip hact).1 a).1
    obtain ⟨s', hreply, hdisp'⟩ := s.reply_sends _ hfits
    rw [hsrc] at hreply
    refine ⟨_, by simp only [hpackage, ok_bind, List.flatMap_singleton, hreply]; rfl, ?_⟩
    refine ⟨hdisp'.trans (hdisp.trans h.atServer), h.atClient, h.carried, h.requests, ?_, ?_⟩
    · intro x hx
      rcases List.mem_append.mp hx with hold | hnew
      · obtain ⟨d', hd', hans⟩ := h.responses x hold
        exact ⟨d', List.mem_append_left _ hd', hans⟩
      · obtain ⟨act, hact, hsent⟩ := List.mem_filterMap.mp hnew
        obtain rfl := mem_sentTo hsent
        refine ⟨d, List.mem_append_right _ List.mem_cons_self, act.1, ?_, rfl⟩
        exact (List.of_mem_zip hact).1
    · refine ⟨?_, fun x hx => ?_, h.answers.got, fun x hx => ?_⟩
      · show List.map _ (n.heard ++ [(a, d)]) = n.received ++ [(a, m.frame)]
        rw [List.map_append, h.answers.heard, List.map_singleton, hmsg]
      · rcases List.mem_append.mp hx with hold | hnew
        · exact h.answers.asked x hold
        · obtain rfl := List.mem_singleton.mp hnew
          rw [hmsg]
          exact hasked
      · obtain ⟨d', hd', hans⟩ := h.answers.answered x hx
        exact ⟨d', List.mem_append_left _ hd', hans⟩

theorem Exchanges.response (hu : Understood answer server client)
    (h : Exchanges answer server client n) (i : Nat) :
    ∃ n', n.step answer (.response i) = .ok n' ∧ Exchanges answer server client n' := by
  rw [step]
  cases hi : n.responses[i]? with
  | none => exact ⟨n, rfl, h⟩
  | some x =>
    obtain ⟨d, hd, m, hans, hframe⟩ := h.responses x (List.mem_of_getElem? hi)
    obtain ⟨bytes, a⟩ := x
    obtain rfl : bytes = m.frame := hframe
    have hd' : Carried server d.msg := h.carried _ (h.answers.asked _ hd)
    have hm : Carried (n.clients a).dispatcher m := h.atClient a ▸ hu d hd' m hans a
    obtain ⟨c, d', hpackage, hdisp, hdispatch, hmsg⟩ := (n.clients a).package_frame hm a
    refine ⟨_, by simp only [hpackage, ok_bind]; rfl, ?_⟩
    refine ⟨h.atServer, fun b => h.update hdisp b, h.carried, h.requests, h.responses, ?_⟩
    refine ⟨h.answers.heard, h.answers.asked, ?_, fun x hx => ?_⟩
    · show List.map _ (n.got ++ [(a, d')]) = n.returned ++ [(a, m.frame)]
      rw [List.map_append, h.answers.got, List.map_singleton, hmsg]
    · rcases List.mem_append.mp hx with hold | hnew
      · exact h.answers.answered x hold
      · obtain rfl := List.mem_singleton.mp hnew
        exact ⟨d, hd, hmsg ▸ hans⟩

theorem Exchanges.step (hu : Understood answer server client)
    (h : Exchanges answer server client n) {e : NetEvent α} (he : e.Asks server) :
    ∃ n', n.step answer e = .ok n' ∧ Exchanges answer server client n' := by
  cases e with
  | ask a m ret => exact h.ask a ret he
  | request i rets => exact h.request hu i rets
  | response i => exact h.response hu i

/-- **An answer goes to whoever asked.**  Whatever is lost, duplicated or reordered: no
datagram ends the process or is dropped by `handle_read`, and every message a client
dispatches answers one that this client sent. -/
theorem answers_reach_their_client (s : UdpServer κ α) (clients : α → UdpClient κ)
    (hu : Understood answer s.dispatcher fun a => (clients a).dispatcher)
    (events : List (NetEvent α)) (hev : ∀ e ∈ events, e.Asks s.dispatcher) :
    ∃ n, run answer (start s clients) events = .ok n ∧ Answers answer n := by
  have hstart : Exchanges answer s.dispatcher (fun a => (clients a).dispatcher)
      (start s clients) := by
    refine ⟨rfl, fun _ => rfl, fun x hx => ?_, rfl, fun x hx => ?_, rfl, fun x hx => ?_, rfl,
      fun x hx => ?_⟩ <;> cases hx
  have hend : Ends (run answer (start s clients) events)
      (Exchanges answer s.dispatcher fun a => (clients a).dispatcher) fun _ => False := by
    refine Ends.foldlM (P := fun _ => Exchanges answer s.dispatcher _) ?_ hstart
    intro done e post n hts h
    have he : e ∈ events := hts ▸ List.mem_append_right done List.mem_cons_self
    obtain ⟨n', hn', h'⟩ := h.step hu (hev e he)
    rw [hn']
    exact h'
  cases hrun : run answer (start s clients) events with
  | ok n => exact ⟨n, rfl, (hend.of_ok hrun).answers⟩
  | error f => exact absurd (hend.of_error hrun) id

/-- The callback sends every message back. -/
def echo (d : Dispatch Unit) : List Msg := [d.msg]

/-- Two clients ask; the second request comes first, and its answer twice. -/
def crossing : List (NetEvent Bool) :=
  [.ask false ⟨7, [1]⟩ 9, .ask true ⟨7, [2]⟩ 9, .request 1 [9], .request 0 [9], .response 0,
    .response 1, .response 0]

theorem answers_reach_their_client_crossing :
    ∃ n, run echo (start ⟨sampleEndpoint, false⟩ fun _ => ⟨sampleEndpoint⟩) crossing = .ok n ∧
      Answers echo n := by
  have hu : Understood echo sampleEndpoint.dispatcher
      fun _ : Bool => sampleEndpoint.dispatcher := by
    intro d hd m hm a
    obtain rfl := List.mem_singleton.mp hm
    exact hd
  exact answers_reach_their_client ⟨sampleEndpoint, false⟩ (fun _ => ⟨sampleEndpoint⟩) hu
    crossing (by decide)

end Net

end EasyReactor.Udp
