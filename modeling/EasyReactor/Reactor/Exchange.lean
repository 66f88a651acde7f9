import EasyReactor.Client.Bounds
import EasyReactor.Client.Progress
import EasyReactor.Foundation.Leads
import EasyReactor.Reactor.Conversation
import EasyReactor.Reactor.Draining

set_option autoImplicit false

/-!
# Reactor: every request can be answered

Whatever state a run leaves a server and its clients in, the exchange on a connection can be
carried through: the client writes what it accepted, the bytes arrive, the server answers
and writes, and the answers arrive a frame at a time.  No other client has to take a step
for it.
-/

namespace EasyReactor.Reactor

open EasyReactor.Foundation EasyReactor.Buffer EasyReactor.Loop EasyReactor.Wire
open EasyReactor.Server EasyReactor.Delivery
open EasyReactor.Client (TcpClient ClientState SysCalls Awaits arrival noCalls turn turn_frame)

variable {cli : Nat → TcpClient} {srv : TcpServer} {loop : Nat} {n : Net} {i fd : Nat}
  {s s' : ClientState} {c : Session}

/-! ## Clients that are called -/

/-- No `connect` of a client returns 0. -/
def NetEvent.Defers : NetEvent → Prop
  | .accept _ _ => True
  | .send _ _ => True
  | .write _ sys => sys.connect.connect ≠ .connected
  | .deliver _ _ => True
  | .answer _ _ sys => sys.connect.connect ≠ .connected
  | .writable _ _ => True

/-- Every client is called for what it waits for. -/
def Alert (n : Net) : Prop :=
  ∀ (i : Nat) (s : ClientState), n.clients[i]? = some s → Client.Live s

theorem Alert.setClient (h : Alert n) (hlive : Client.Live s') :
    Alert { n with clients := n.clients.set i s' } := by
  intro j t ht
  have hmem := List.mem_of_getElem? ht
  cases List.mem_or_eq_of_mem_set hmem with
  | inl hold =>
    obtain ⟨k, hk⟩ := List.mem_iff_getElem?.mp hold
    exact h k t hk
  | inr heq =>
    rw [heq]
    exact hlive

theorem Alert.atClient (h : Alert n) {f : ClientState → Except Fault ClientState}
    (hf : ∀ s, Client.Live s → Ends (f s) Client.Live (fun _ => True)) :
    Ends (n.atClient i f) Alert (fun _ => True) := by
  unfold Net.atClient
  cases hs : n.clients[i]? with
  | none => exact h
  | some s => exact (hf s (h i s hs)).bind fun s' hs' => h.setClient hs'

theorem Alert.step (h : Alert n) {e : NetEvent} (hdefers : e.Defers) :
    Ends (n.step cli srv loop e) Alert (fun _ => True) := by
  cases e with
  | send i m => exact h.atClient fun s hs => Client.step_live (cli i) hs trivial
  | write i sys => exact h.atClient fun s hs => Client.step_live (cli i) hs hdefers
  | writable fd ws => exact (Ends.any _).bind fun _ _ => h
  | accept i fd =>
    unfold Net.step
    simp only
    split
    next => exact h
    next => exact (Ends.any _).bind fun _ _ => h
  | deliver fd k =>
    unfold Net.step
    simp only
    split
    next => exact h
    next =>
      split
      next => exact h
      next => exact (Ends.any _).bind fun _ _ => h
  | answer fd k sys =>
    unfold Net.step
    simp only
    split
    next => exact h
    next =>
      split
      next => exact h
      next => exact h.atClient fun s hs => Client.step_live (cli _) hs hdefers

theorem start_alert {clients : List ClientState} (hclients : Dialled clients)
    (hidle : ∀ s ∈ clients, s.netOk = false) (raw : BufId → Nat → UInt8) (size : Nat)
    (maxConns : Int) : Alert (.start clients raw size maxConns) := by
  intro i s hs
  obtain ⟨rawIn, rawOut, c, hc⟩ := hclients i s hs
  have w := Client.pending_new rawIn rawOut
  have hr := (Client.construct_ends rawIn rawOut c).of_ok hc
  have hoff := hidle s (List.mem_of_getElem? hs)
  exact ⟨hr.phase, .of_off (hr.output.window w) fun _ => hoff,
    (Client.doConnect_dials w c).of_ok hc⟩

/-! ## An exchange -/

/-- Steps of client `i` and of connection `fd`, and none of the users'. -/
def NetEvent.Within (i fd : Nat) : NetEvent → Prop
  | .accept _ _ => False
  | .send _ _ => False
  | .write j _ => j = i
  | .deliver fd' _ => fd' = fd
  | .answer fd' _ _ => fd' = fd
  | .writable fd' _ => fd' = fd

/-- What an event of the exchange must meet. -/
structure NetEvent.Fair (cli : Nat → TcpClient) (srv : TcpServer) (i fd : Nat) (n : Net)
    (e : NetEvent) : Prop where
  within : e.Within i fd
  modest : e.Modest srv
  defers : e.Defers
  heard : e.Heard cli n

/-- How the process can end on the way: at the memory limit of the pool, or in a callback. -/
def Breakdown (f : Fault) : Prop := f = .exit ∨ ∃ g, f = .callback g

/-- Events of the exchange take it on to `P`. -/
abbrev Proceed (cli : Nat → TcpClient) (srv : TcpServer) (loop i fd : Nat) (P : Net → Prop)
    (n : Net) : Prop :=
  Leads (Net.step cli srv loop) (NetEvent.Fair cli srv i fd) Breakdown P n

/-- An exchange of client `s` on connection `c`, with no frame behind another in `ibuf`. -/
structure Underway (srv : TcpServer) (i fd : Nat) (n : Net) (s : ClientState) (c : Session) :
    Prop where
  coherent : Coherent srv n
  alert : Alert n
  ends : n.ends fd = some (i, s, c)
  isOpen : c.isOpen = true
  short : (unread s).length < commuHeadLength

theorem Underway.live (h : Underway srv i fd n s c) : n.server.live fd = some c :=
  TcpReactor.live_eq_some.mpr ⟨(Net.ends_eq_some.mp h.ends).2.2, h.isOpen⟩

theorem Underway.joint (h : Underway srv i fd n s c) : Joint srv s c := by
  obtain ⟨hpeer, hs, hc⟩ := Net.ends_eq_some.mp h.ends
  exact h.coherent.linked fd i s c hpeer hs hc

theorem Underway.conversing (h : Underway srv i fd n s c) :
    Conversing (Deliverable srv) c.arrived s := by
  obtain ⟨-, hs, -⟩ := Net.ends_eq_some.mp h.ends
  exact conversing_arrived (h.coherent.client i s hs) h.joint.arrived

theorem Underway.clientLive (h : Underway srv i fd n s c) : Client.Live s :=
  h.alert i s (Net.ends_eq_some.mp h.ends).2.1

/-- The client takes a step. -/
theorem Underway.atClient (hagreed : Agreed cli srv) (h : Underway srv i fd n s c)
    {e : NetEvent} (hfair : e.Fair cli srv i fd n) {f : ClientState → Except Fault ClientState}
    (hstep : n.step cli srv loop e = n.atClient i f) (hs' : f s = .ok s')
    (hshort : (unread s').length < commuHeadLength) :
    n.step cli srv loop e = .ok { n with clients := n.clients.set i s' } ∧
      Underway srv i fd { n with clients := n.clients.set i s' } s' c := by
  obtain ⟨hpeer, hs, hc⟩ := Net.ends_eq_some.mp h.ends
  have hrun : n.step cli srv loop e = .ok { n with clients := n.clients.set i s' } := by
    rw [hstep]
    unfold Net.atClient
    rw [hs]
    simp only
    rw [hs', ok_bind]
    rfl
  refine ⟨hrun, ?_, (h.alert.step hfair.defers).of_ok hrun, ?_, h.isOpen, hshort⟩
  · exact (h.coherent.step hagreed e hfair.modest hfair.heard).of_ok hrun
  · exact Net.ends_eq_some.mpr
      ⟨hpeer, List.getElem?_set_self (List.getElem?_eq_some_iff.mp hs).1, hc⟩

/-! ## The client writes -/

/-- The socket of the client is writable, and takes `ws`. -/
theorem Underway.write (hagreed : Agreed cli srv) (h : Underway srv i fd n s c)
    {sys : SysCalls} (hs' : s.step (cli i) (.io .output sys) = .ok s')
    (hwrites : .error ∉ sys.writes) (hdefers : sys.connect.connect ≠ .connected) (loop : Nat) :
    NetEvent.Fair cli srv i fd n (.write i sys) ∧
      n.step cli srv loop (.write i sys) = .ok { n with clients := n.clients.set i s' } ∧
      Underway srv i fd { n with clients := n.clients.set i s' } s' c := by
  have hfair : NetEvent.Fair cli srv i fd n (.write i sys) := ⟨rfl, hwrites, hdefers, trivial⟩
  have hdeaf := ((h.conversing.writable (hagreed.utters i) hwrites).of_ok hs').2
  have hunread : unread s' = unread s := by
    unfold unread
    rw [hdeaf.ibuf]
  exact ⟨hfair, h.atClient hagreed hfair rfl hs' (hunread ▸ h.short)⟩

theorem modest_utters {D : Msg → Prop} {client : TcpClient} (h : Utters client D)
    (hD : ∀ m, D m → m.body.length < 2147483640) : client.Modest :=
  ⟨fun cmdid func hf s usrData m hm => hD m (h.message cmdid func hf s usrData m hm),
    fun f hf s args m hm => hD m (h.connection f hf s args m hm),
    fun f hf s args m hm => hD m (h.close f hf s args m hm)⟩

theorem Agreed.modest (h : Agreed cli srv) (i : Nat) : (cli i).Modest :=
  modest_utters (h.utters i) fun m hm => by
    have hlength : m.body.length ≤ 65528 := hm.sendable.length
    omega

/-- `connect` succeeds, if it is still in progress. -/
theorem Underway.connects (hagreed : Agreed cli srv) (h : Underway srv i fd n s c)
    (htimers : s.timers = 0) :
    Proceed cli srv loop i fd (fun n' => ∃ s', Underway srv i fd n' s' c ∧ s'.netOk = true ∧
      s.accepted <+: s'.accepted) n := by
  cases hnet : s.netOk with
  | true => exact .here ⟨s, h, hnet, List.prefix_rfl⟩
  | false =>
    obtain ⟨s', hs', -, hnet', hacc⟩ := h.clientLive.answers (hagreed.modest i) hnet htimers
    obtain ⟨hfair, hrun, h'⟩ := h.write hagreed hs' nofun nofun loop
    exact .next hfair hrun (.here ⟨s', h', hnet', hacc⟩)

/-- One `write` takes all that `obuf` holds. -/
theorem Underway.writes (hagreed : Agreed cli srv) (h : Underway srv i fd n s c)
    (hnet : s.netOk = true) :
    Proceed cli srv loop i fd (fun n' => ∃ s', Underway srv i fd n' s' c ∧ s'.netOk = true ∧
      s'.accepted = s.accepted ∧ Client.Pending s' []) n := by
  obtain ⟨pending, w⟩ := h.clientLive.served.output
  by_cases hne : pending = []
  · subst hne
    exact .here ⟨s, h, hnet, rfl, w⟩
  · obtain ⟨s', hs', hnet', w', hacc⟩ := h.clientLive.drains (cli i) hnet w hne
    obtain ⟨hfair, hrun, h'⟩ := h.write hagreed hs' (by simp) nofun loop
    exact .next hfair hrun (.here ⟨s', h', hnet', hacc, w'⟩)

/-! ## The server reads -/

/-- A chunk of deliverable messages arrives at an open connection, which stays open. -/
theorem Serving.reads {r : TcpReactor} (h : Serving srv r fd c) (hc : r.live fd = some c)
    {bs : List UInt8} {ms : List Msg} (hne : bs ≠ []) (hsmall : bs.length ≤ 8388608 - 65536)
    (hms : ∀ m ∈ ms, Deliverable srv m) (hpre : c.arrived ++ bs <+: frames ms) :
    Ends (r.serve srv fd bs (.readable (.chunk bs)))
      (fun r' => ∃ c', r'.live fd = some c' ∧ c'.arrived = c.arrived ++ bs) Breakdown := by
  have hget := (TcpReactor.live_eq_some.mp hc).1
  have hfollows : Incoming srv c.arrived False (r.view fd c) := .follows h.tracks
  unfold TcpReactor.serve
  rw [hc]
  simp only
  apply ((hfollows.deliver hne hms hpre).imp (fun _ hs => hs) _).bind
  · intro s' hs'
    cases hs' with
    | closed _ _ hbig =>
      rw [false_or] at hbig
      omega
    | follows htracks =>
      obtain ⟨rest, hrest⟩ := refDecode_prefix_rest (fun m hm => (hms m hm).sendable) hpre
      have hfd := (htracks.live hrest).attached.fd
      refine ⟨_, TcpReactor.live_eq_some.mpr ⟨put_conns_self hget _ s', ?_⟩, rfl⟩
      unfold Session.isOpen
      simp only [ne_eq, decide_not, Bool.not_eq_eq_eq_not, Bool.not_true, decide_eq_false_iff_not]
      omega
  · rintro f (rfl | hg | ⟨-, hbig⟩)
    · exact .inl rfl
    · exact .inr hg
    · omega

/-- The next bytes of the client arrive. -/
theorem Underway.deliver (hagreed : Agreed cli srv) (h : Underway srv i fd n s c) {k : Nat}
    (hk : k ≤ 8388608 - 65536) (hne : Net.request s c k ≠ []) :
    Ends (n.step cli srv loop (.deliver fd k))
      (fun n' => ∃ c', Underway srv i fd n' s c' ∧ c'.arrived = c.arrived ++ Net.request s c k)
      Breakdown := by
  obtain ⟨hpeer, hs, -⟩ := Net.ends_eq_some.mp h.ends
  have hkept : Ends (n.step cli srv loop (.deliver fd k)) (fun n' => Coherent srv n' ∧ Alert n')
      (fun _ => True) :=
    (h.coherent.step hagreed (.deliver fd k) hk trivial).and_post (h.alert.step trivial)
  have hout := h.conversing.outgoing
  have hreads := (h.coherent.server.serving h.live).reads h.live hne
    ((List.length_take_le k _).trans hk) hout.accepts (hout.arrives k).arrived_frames
  have hstep : n.step cli srv loop (.deliver fd k) =
      n.atServer srv loop (.readable fd (Net.request s c k)) := by
    unfold Net.step
    simp only [h.ends]
    rw [if_neg hne]
  have hends : Ends (n.step cli srv loop (.deliver fd k))
      (fun n' => n'.peer = n.peer ∧ n'.clients = n.clients ∧ ∃ c', n'.server.live fd = some c' ∧
        c'.arrived = c.arrived ++ Net.request s c k) Breakdown := by
    rw [hstep]
    unfold Net.atServer
    exact hreads.bind fun r' hr' => ⟨rfl, rfl, hr'⟩
  apply (hends.and_post hkept).imp _ (fun _ he => he)
  rintro n' ⟨⟨hpeer', hclients', c', hlive, harrived⟩, hcoherent, halert⟩
  obtain ⟨hget, hopen⟩ := TcpReactor.live_eq_some.mp hlive
  refine ⟨c', ⟨hcoherent, halert, ?_, hopen, h.short⟩, harrived⟩
  exact Net.ends_eq_some.mpr ⟨hpeer'.symm ▸ hpeer, hclients'.symm ▸ hs, hget⟩

/-- Where all arrived, all was dispatched. -/
theorem Underway.dispatched_all (h : Underway srv i fd n s c) (w : Client.Pending s [])
    (hall : c.arrived = s.session.sent) : c.dispatched = s.accepted := by
  have hout := h.conversing.outgoing
  obtain ⟨pending, w', hsum⟩ := hout.queued
  obtain rfl := w.unique w'
  rw [List.append_nil] at hsum
  have hc := (Net.ends_eq_some.mp h.ends).2.2
  rw [(h.coherent.server.alone hc).dispatched, hall, hsum,
    refDecode_whole fun m hm => (hout.accepts m hm).sendable]

/-- The bytes under way arrive, in chunks as large as the server can take. -/
theorem Underway.delivers (hagreed : Agreed cli srv) (h : Underway srv i fd n s c)
    (w : Client.Pending s []) :
    Proceed cli srv loop i fd (fun n' => ∃ c', Underway srv i fd n' s c' ∧
      c'.dispatched = s.accepted) n := by
  -- on the number of bytes under way
  obtain ⟨left, hleft⟩ : ∃ left, s.session.sent.length - c.arrived.length = left := ⟨_, rfl⟩
  induction left using Nat.strong_induction_on generalizing n c with
  | _ left ih =>
    have hpre := h.joint.arrived
    have hlen := hpre.length_le
    by_cases hall : c.arrived.length = s.session.sent.length
    · exact .here ⟨c, h, h.dispatched_all w (hpre.eq_of_length hall)⟩
    · have hrequest : (Net.request s c (8388608 - 65536)).length =
          min (8388608 - 65536) (s.session.sent.length - c.arrived.length) := by
        unfold Net.request
        rw [List.length_take, List.length_drop]
      have hne : Net.request s c (8388608 - 65536) ≠ [] := by
        refine List.ne_nil_of_length_pos ?_
        omega
      refine .of_ends (t := .deliver fd (8388608 - 65536)) ⟨rfl, Nat.le_refl _, trivial, trivial⟩
        (h.deliver hagreed (Nat.le_refl _) hne) ?_
      rintro n' ⟨c', h', harrived⟩
      refine ih _ ?_ h' rfl
      rw [harrived, List.length_append]
      omega

/-! ## The server writes -/

/-- One `write` takes all that the server has to say on the connection. -/
theorem Underway.answers (hagreed : Agreed cli srv) (h : Underway srv i fd n s c)
    (href : c.refused = 0) :
    Proceed cli srv loop i fd (fun n' => ∃ c', Underway srv i fd n' s c' ∧ c'.refused = 0 ∧
      c'.dispatched = c.dispatched ∧ c'.sent = frames (srv.speech c.dispatched)) n := by
  obtain ⟨hpeer, hs, -⟩ := Net.ends_eq_some.mp h.ends
  have hspoken := h.joint.spoken href
  by_cases hempty : c.conn.obuf.length n.server.pool = 0
  · have hsent := ((h.coherent.server.serving h.live).allSent href hempty).sent
    exact .here ⟨c, h, href, rfl, hspoken ▸ hsent⟩
  · obtain ⟨k, r', c', hstep, -, -, hlive, hall⟩ :=
      h.coherent.server.empties hagreed.own h.live href hempty loop
    have hfair : NetEvent.Fair cli srv i fd n (.writable fd [.wrote k]) :=
      ⟨rfl, trivial, trivial, trivial⟩
    have hrun : n.step cli srv loop (.writable fd [.wrote k]) = .ok { n with server := r' } := by
      unfold Net.step Net.atServer
      simp only
      rw [hstep, ok_bind]
      rfl
    obtain ⟨hget, hopen⟩ := TcpReactor.live_eq_some.mp hlive
    have hcoherent := (h.coherent.step hagreed _ hfair.modest hfair.heard).of_ok hrun
    have h' : Underway srv i fd { n with server := r' } s c' :=
      ⟨hcoherent, h.alert, Net.ends_eq_some.mpr ⟨hpeer, hs, hget⟩, hopen, h.short⟩
    exact .next hfair hrun (.here ⟨c', h', hall.refused, hall.dispatched, hspoken ▸ hall.sent⟩)

/-! ## The client reads -/

/-- What completes the frame at the front of a stream, of which `held` was read. -/
theorem append_take_frame {held : List UInt8} {m : Msg} {ms : List Msg}
    (hshort : held.length < commuHeadLength) (hpre : held <+: frames (m :: ms)) :
    held ++ ((frames (m :: ms)).drop held.length).take (m.frame.length - held.length) =
      m.frame := by
  have hframe := Msg.length_frame m
  have hin : held <+: m.frame :=
    List.prefix_of_prefix_length_le hpre (List.prefix_append m.frame (frames ms)) (by omega)
  obtain ⟨rest, hrest⟩ := hin
  have hlen := congrArg List.length hrest
  rw [List.length_append] at hlen
  rw [frames_cons, ← hrest, List.append_assoc, List.drop_left,
    List.take_left' (show rest.length = (held ++ rest).length - held.length by
      rw [List.length_append]; omega)]

/-- The rest of the next frame arrives at the client, which dispatches its message. -/
theorem Underway.answer (hagreed : Agreed cli srv) (h : Underway srv i fd n s c)
    (hnet : s.netOk = true) (href : c.refused = 0) {m : Msg} {todo : List Msg}
    (hsent : c.sent = frames (s.session.dispatched ++ m :: todo))
    (hm : m.Sendable (cli i).dispatcher.exist) (loop : Nat) :
    ∃ k s' n', NetEvent.Fair cli srv i fd n (.answer fd k noCalls) ∧
      n.step cli srv loop (.answer fd k noCalls) = .ok n' ∧ Underway srv i fd n' s' c ∧
      s'.netOk = true ∧ s'.session.dispatched = s.session.dispatched ++ [m] := by
  obtain ⟨held, wheld, hsum⟩ := h.conversing.hearing
  have hunread := unread_eq wheld
  have hshort := h.short
  rw [hunread] at hshort
  have hframe := Msg.length_frame m
  have hheard := h.joint.heard
  rw [hsum, hsent, frames_append, List.prefix_append_right_inj] at hheard
  -- the rest of the frame is under way
  have hresponse : held ++ Net.response s c (m.frame.length - held.length) = m.frame := by
    unfold Net.response
    rw [hsum, hsent, frames_append, List.length_append, List.drop_length_add_append]
    exact append_take_frame hshort hheard
  have hne : Net.response s c (m.frame.length - held.length) ≠ [] := by
    intro hnil
    rw [hnil, List.append_nil] at hresponse
    rw [hresponse] at hshort
    omega
  have hawaits : Awaits s s.session.dispatched held :=
    ⟨h.clientLive.phase.up hnet, h.clientLive.served.reading trivial hnet,
      h.clientLive.served.output, wheld, h.conversing.capacity, rfl⟩
  obtain ⟨s', hs', hawaits'⟩ :=
    hawaits.dispatches noCalls (hagreed.modest i) hne hm hresponse
  have hheard' : NetEvent.Heard cli n
      (.answer fd (m.frame.length - held.length) noCalls) := by
    intro x hx href'
    obtain rfl := Option.some.inj (h.ends.symm.trans hx)
    exact absurd href href'
  have hfair : NetEvent.Fair cli srv i fd n
      (.answer fd (m.frame.length - held.length) noCalls) := ⟨rfl, trivial, nofun, hheard'⟩
  have hstep : n.step cli srv loop (.answer fd (m.frame.length - held.length) noCalls) =
      n.atClient i fun t =>
        t.step (cli i) (arrival noCalls (Net.response s c (m.frame.length - held.length))) := by
    unfold Net.step
    simp only [h.ends]
    rw [if_neg hne]
  have hempty : (unread s').length < commuHeadLength := by
    rw [unread_eq hawaits'.held]
    decide
  obtain ⟨hrun, h'⟩ := h.atClient hagreed hfair hstep hs' hempty
  exact ⟨_, s', _, hfair, hrun, h', hawaits'.up.netOk, hawaits'.dispatched⟩

/-- The answers arrive, a frame at a time. -/
theorem Underway.hears (hagreed : Agreed cli srv) (h : Underway srv i fd n s c)
    (hnet : s.netOk = true) (href : c.refused = 0)
    (hsent : c.sent = frames (srv.speech c.dispatched)) :
    Proceed cli srv loop i fd (fun n' => ∃ s', Underway srv i fd n' s' c ∧
      s'.session.dispatched = srv.speech c.dispatched) n := by
  have hknown := h.coherent.said_sendable hagreed h.ends
  -- on the messages that the client has still to hear
  obtain ⟨todo, htodo⟩ := h.joint.understood href
  induction todo generalizing n s with
  | nil =>
    rw [List.append_nil] at htodo
    exact .here ⟨s, h, htodo⟩
  | cons m todo ih =>
    obtain ⟨k, s', n', hfair, hrun, h', hnet', hd⟩ := h.answer hagreed hnet href
      (hsent.trans (by rw [htodo])) (hknown m (htodo ▸ by simp)) loop
    refine .next hfair hrun (ih h' hnet' ?_)
    rw [hd, ← htodo, List.append_assoc, List.singleton_append]

/-! ## The whole exchange -/

/-- What the client accepted was dispatched, and so was what the server says to it. -/
structure Completed (srv : TcpServer) (ms : List Msg) (s : ClientState) (c : Session) : Prop where
  requests : ms <+: c.dispatched
  answers : srv.speech ms <+: s.session.dispatched

theorem Underway.completes (hagreed : Agreed cli srv) (h : Underway srv i fd n s c)
    (htimers : s.timers = 0) :
    Proceed cli srv loop i fd (fun n' => ∃ s' c', n'.ends fd = some (i, s', c') ∧
      (c'.refused = 0 → Completed srv s.accepted s' c')) n := by
  refine (h.connects hagreed htimers).trans ?_
  rintro n₁ ⟨s₁, h₁, hnet₁, hacc₁⟩
  refine (h₁.writes hagreed hnet₁).trans ?_
  rintro n₂ ⟨s₂, h₂, hnet₂, hacc₂, w⟩
  refine (h₂.delivers hagreed w).trans ?_
  rintro n₃ ⟨c₃, h₃, hd₃⟩
  by_cases href : c₃.refused = 0
  · refine (h₃.answers hagreed href).trans ?_
    rintro n₄ ⟨c₄, h₄, href₄, hd₄, hsent₄⟩
    refine (h₄.hears hagreed hnet₂ href₄ (hd₄ ▸ hsent₄)).trans ?_
    rintro n₅ ⟨s₅, h₅, hd₅⟩
    have hall : s.accepted <+: c₄.dispatched := by
      rw [hd₄, hd₃, hacc₂]
      exact hacc₁
    refine .here ⟨s₅, c₄, h₅.ends, fun _ => ⟨hall, ?_⟩⟩
    rw [hd₅]
    exact transcript_mono hall
  · exact .here ⟨s₂, c₃, h₃.ends, fun hzero => absurd hzero href⟩

/-- **Every request can be answered.**  From every state that a run reaches in which a connection
is open, and its client connects or is connected and has no frame behind another in `ibuf`:
events of this client and this connection alone, without a call of a user, lead to a state in
which the server dispatched all that the client had accepted and the client all that the server
says to it, unless the server refuses a `send_data` or its process ends at the memory limit or in
a callback. -/
theorem request_can_be_answered (hagreed : Agreed cli srv) {clients : List ClientState}
    (hclients : Dialled clients) (hidle : ∀ s ∈ clients, s.netOk = false)
    {raw : BufId → Nat → UInt8} {size : Nat} {maxConns : Int} {events : List NetEvent}
    (hproceeds : Proceeds cli srv loop (.start clients raw size maxConns) events)
    (hdefers : ∀ e ∈ events, e.Defers)
    (hrun : (Net.start clients raw size maxConns).run cli srv loop events = .ok n)
    (hends : n.ends fd = some (i, s, c)) (hopen : c.isOpen = true) (htimers : s.timers = 0)
    (hshort : (unread s).length < commuHeadLength) :
    ∃ more : List NetEvent, (∀ e ∈ more, e.Within i fd) ∧ Proceeds cli srv loop n more ∧
      Ends (n.run cli srv loop more)
        (fun n' => ∃ s' c', n'.ends fd = some (i, s', c') ∧
          (c'.refused = 0 → Completed srv s.accepted s' c')) Breakdown := by
  have hcoherent := (run_coherent hagreed (start_coherent srv hclients raw size maxConns)
    hproceeds).of_ok hrun
  have halert : Alert n := by
    have hstart := start_alert hclients hidle raw size maxConns
    have hsteps : Ends ((Net.start clients raw size maxConns).run cli srv loop events) Alert
        (fun _ => True) :=
      Ends.foldlM (P := fun _ => Alert) (fun _ e _ n hevents hn =>
        hn.step (hdefers e (by simp [hevents]))) hstart
    exact hsteps.of_ok hrun
  have h : Underway srv i fd n s c := ⟨hcoherent, halert, hends, hopen, hshort⟩
  obtain ⟨more, hfair, hmeets, hends'⟩ := (h.completes hagreed htimers).exists_run
  refine ⟨more, fun e he => ?_, ⟨fun e he => ?_, ?_⟩, hends'⟩
  · obtain ⟨n', hn'⟩ := hfair e he
    exact hn'.within
  · obtain ⟨n', hn'⟩ := hfair e he
    exact hn'.modest
  · exact hmeets.imp_mem fun n' e _ hn' => hn'.heard

/-- The socket of the first client took half of the header, and the other client wrote nothing. -/
def halfway : List NetEvent :=
  [.write 0 noCalls, .write 1 noCalls, .accept 0 3, .accept 1 4, .send 0 ⟨1, [7]⟩,
    .send 1 ⟨1, [8]⟩, .write 0 { noCalls with writes := [.wrote 4] }, .deliver 3 2]

theorem halfway_proceeds :
    Proceeds (fun _ => Client.quietClient [1]) echoServer 0 twoCalling halfway := by
  refine ⟨?_, by decide +kernel⟩
  intro e he
  simp only [halfway, List.mem_cons, List.not_mem_nil, or_false] at he
  have hm : ∀ b : UInt8, Deliverable echoServer ⟨1, [b]⟩ := fun b =>
    ⟨⟨rfl, show 1 ≤ 65528 by decide⟩, by simp⟩
  rcases he with rfl | rfl | rfl | rfl | rfl | rfl | rfl | rfl
  case inr.inr.inr.inr.inl => exact hm 7
  case inr.inr.inr.inr.inr.inl => exact hm 8
  all_goals simp [NetEvent.Modest, noCalls]

theorem request_can_be_answered_halfway : ∃ n i s c,
    twoCalling.run (fun _ => Client.quietClient [1]) echoServer 0 halfway = .ok n ∧
      n.ends 3 = some (i, s, c) ∧
      ∃ more : List NetEvent, (∀ e ∈ more, e.Within i 3) ∧
        Proceeds (fun _ => Client.quietClient [1]) echoServer 0 n more ∧
        Ends (n.run (fun _ => Client.quietClient [1]) echoServer 0 more)
          (fun n' => ∃ s' c', n'.ends 3 = some (i, s', c') ∧
            (c'.refused = 0 → Completed echoServer s.accepted s' c')) Breakdown := by
  have hobs : (twoCalling.run (fun _ => Client.quietClient [1]) echoServer 0
      halfway).toOption.map (fun n =>
        (n.ends 3).map fun x => (x.2.2.isOpen, x.2.1.timers, (unread x.2.1).length)) =
          some (some (true, 0, 0)) := by
    decide +kernel
  have hidle : ∀ s ∈ [dialling, dialling], s.netOk = false := by decide +kernel
  have hdefers : ∀ e ∈ halfway, e.Defers := by
    intro e he
    simp only [halfway, List.mem_cons, List.not_mem_nil, or_false] at he
    rcases he with rfl | rfl | rfl | rfl | rfl | rfl | rfl | rfl <;>
      simp [NetEvent.Defers, noCalls]
  obtain ⟨n, hrun, hseen⟩ := ok_of_observed hobs
  obtain ⟨⟨i, s, c⟩, hends, hx⟩ := Option.map_eq_some_iff.mp hseen
  obtain ⟨hopen, hrest⟩ := Prod.mk.inj hx
  obtain ⟨htimers, hlen⟩ := Prod.mk.inj hrest
  have hshort : (unread s).length < commuHeadLength := by
    rw [hlen]
    decide
  exact ⟨n, i, s, c, hrun, hends, request_can_be_answered agreed_echo dialled_two hidle
    halfway_proceeds hdefers hrun hends hopen htimers hshort⟩

end EasyReactor.Reactor
