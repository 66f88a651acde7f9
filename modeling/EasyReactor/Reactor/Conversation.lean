import EasyReactor.Reactor.Clients

set_option autoImplicit false

/-!
# Reactor: every client has its own conversation

The server is a machine that hears messages and says messages, one of it for each
connection.  In every run of a server with its clients, what a client dispatches is what
that machine says to the messages the client itself has sent.
-/

namespace EasyReactor.Reactor

open EasyReactor.Foundation EasyReactor.Buffer EasyReactor.Loop EasyReactor.Wire
open EasyReactor.Server EasyReactor.Delivery
open EasyReactor.Client (TcpClient ClientState SysCalls arrival turn)

/-! ## The logs of a connection -/

/-- A step of an object of `conns` on which `bs` arrived. -/
structure Session.Goes (srv : TcpServer) (bs : List UInt8) (c c' : Session) : Prop where
  arrived : c'.arrived = c.arrived ++ bs
  dispatched : c.dispatched <+: c'.dispatched
  sent : c.sent <+: c'.sent
  refused : c.refused ≤ c'.refused
  spoken : c'.refused = 0 → c.accepted = srv.speech c.dispatched →
    c'.accepted = srv.speech c'.dispatched

variable {cli : Nat → TcpClient} {srv : TcpServer} {r r' : TcpReactor} {fd : Nat}
  {bs : List UInt8} {loop : Nat}

/-- Something happens to a connection, or it is closed already. -/
theorem serve_goes (hclose : srv.connCloseCb = none) {e : ConnEvent} (he : e.Prompted)
    (r : TcpReactor) (fd : Nat) (bs : List UInt8) :
    Ends (r.serve srv fd bs e)
      (fun r' => OthersKept fd r r' ∧ ∀ x, r'.conns[fd]? = some (some x) →
        ∃ c, r.conns[fd]? = some (some c) ∧
          (x = c ∨ r.live fd = some c ∧ Session.Goes srv bs c x)) (fun _ => True) := by
  unfold TcpReactor.serve
  cases hlive : r.live fd with
  | none => exact ⟨fun _ _ => rfl, fun x hx => ⟨x, hx, .inl rfl⟩⟩
  | some c =>
    have hget := (TcpReactor.live_eq_some.mp hlive).1
    apply (step_converses hclose (r.view fd c) he).bind
    intro s' hs'
    refine ⟨put_othersKept r fd _ s', fun x hx => ⟨c, hget, .inr ⟨rfl, ?_⟩⟩⟩
    rw [put_conns_self hget] at hx
    obtain rfl := Option.some.inj (Option.some.inj hx)
    exact ⟨rfl, hs'.dispatched, hs'.sent, hs'.refused, hs'.spoken⟩

/-- A new connection, on which nothing was heard, and the greeting said. -/
structure Session.Begins (srv : TcpServer) (fd : Nat) (c : Session) : Prop where
  connfd : c.conn.connfd = fd
  arrived : c.arrived = []
  dispatched : c.dispatched = []
  sent : c.sent = []
  spoken : c.refused = 0 → c.accepted = srv.speech c.dispatched

/-- A connection comes in, and is refused, or begins. -/
theorem accept_begins (hsrv : srv.Private) (h : Orderly srv r) (hfree : r.live fd = none)
    (loop : Nat) :
    Ends (r.step srv loop (.accept fd))
      (fun r' => r'.conns = r.conns ∨ OthersKept fd r r' ∧
        ∃ c, r'.conns[fd]? = some (some c) ∧ Session.Begins srv fd c) (fun _ => True) := by
  unfold TcpReactor.step
  simp only [hfree]
  unfold TcpReactor.accept
  split
  next => exact .inl rfl
  next =>
    cases hget : r.conns[fd]? with
    | none => trivial
    | some c =>
      have hjoins := (init_joins hsrv (h.blank hfree hget) fd loop).imp (fun _ hs => hs)
        (fun _ _ => trivial)
      have hspeaks := init_speaks srv
        (s := r.view fd (.start (c.elim .new Session.conn))) rfl rfl fd loop
      apply (hjoins.and_post hspeaks).bind
      rintro s' ⟨hj, hd, hsent, hspoken⟩
      exact .inr ⟨put_othersKept r fd [] s', _, put_conns_self hget [] s',
        ⟨hj.connfd, rfl, hd, hsent, hspoken⟩⟩

/-! ## The invariant -/

/-- The two ends of a connection: what was read at one end was written at the other, the server
said what it was to say, and the client dispatched the start of it. -/
structure Joint (srv : TcpServer) (s : ClientState) (c : Session) : Prop where
  arrived : c.arrived <+: s.session.sent
  heard : s.session.reads.flatten <+: c.sent
  spoken : c.refused = 0 → c.accepted = srv.speech c.dispatched
  understood : c.refused = 0 → s.session.dispatched <+: srv.speech c.dispatched

structure Coherent (srv : TcpServer) (n : Net) : Prop where
  server : Orderly srv n.server
  client : ∀ (i : Nat) (s : ClientState), n.clients[i]? = some s →
    Conversing (Deliverable srv) [] s
  fresh : ∀ (i : Nat) (s : ClientState), n.clients[i]? = some s → i ∉ n.joined →
    s.session.reads = [] ∧ s.session.dispatched = []
  joined : ∀ fd i, n.peer fd = some i → i ∈ n.joined
  apart : ∀ fd fd' i, n.peer fd = some i → n.peer fd' = some i → fd = fd'
  linked : ∀ (fd i : Nat) (s : ClientState) (c : Session), n.peer fd = some i →
    n.clients[i]? = some s → n.server.conns[fd]? = some (some c) → Joint srv s c

variable {n : Net} {i : Nat} {s s' : ClientState} {c c' : Session}

/-- What the server has read of a client can be put in. -/
theorem conversing_arrived {D : Msg → Prop} {arrived arrived' : List UInt8}
    (h : Conversing D arrived s) (hpre : arrived' <+: s.session.sent) : Conversing D arrived' s :=
  ⟨h.phase, ⟨h.outgoing.accepts, h.outgoing.queued, hpre⟩, h.hearing, h.capacity⟩

/-- A client that takes a step. -/
theorem Coherent.setClient (h : Coherent srv n) (hs : n.clients[i]? = some s)
    (hconv : ∀ arrived, Conversing (Deliverable srv) arrived s →
      Conversing (Deliverable srv) arrived s')
    (hfresh : i ∉ n.joined → s'.session.reads = s.session.reads ∧
      s'.session.dispatched = s.session.dispatched)
    (hlink : ∀ (fd : Nat) (c : Session), n.peer fd = some i →
      n.server.conns[fd]? = some (some c) → Joint srv s c → c.arrived <+: s'.session.sent →
        Joint srv s' c) :
    Coherent srv { n with clients := n.clients.set i s' } := by
  have hlt := (List.getElem?_eq_some_iff.mp hs).1
  have hself : (n.clients.set i s')[i]? = some s' := List.getElem?_set_self hlt
  have hother : ∀ {j : Nat}, j ≠ i → (n.clients.set i s')[j]? = n.clients[j]? := fun hne =>
    List.getElem?_set_ne (Ne.symm hne)
  refine ⟨h.server, fun j t ht => ?_, fun j t ht hj => ?_, h.joined, h.apart, ?_⟩
  · by_cases hne : j = i
    · subst hne
      obtain rfl := Option.some.inj (hself.symm.trans ht)
      exact hconv [] (h.client j s hs)
    · exact h.client j t ((hother hne).symm.trans ht)
  · by_cases hne : j = i
    · subst hne
      obtain rfl := Option.some.inj (hself.symm.trans ht)
      obtain ⟨hreads, hd⟩ := h.fresh j s hs hj
      obtain ⟨hreads', hd'⟩ := hfresh hj
      exact ⟨hreads'.trans hreads, hd'.trans hd⟩
    · exact h.fresh j t ((hother hne).symm.trans ht) hj
  · intro fd j t c hpeer ht hc
    by_cases hne : j = i
    · subst hne
      obtain rfl := Option.some.inj (hself.symm.trans ht)
      have hold := h.linked fd j s c hpeer hs hc
      have harrived :=
        (hconv _ (conversing_arrived (h.client j s hs) hold.arrived)).outgoing.arrived
      exact hlink fd c hpeer hc hold harrived
    · exact h.linked fd j t c hpeer ((hother hne).symm.trans ht) hc

/-- A step in which nothing comes in at the client. -/
theorem Coherent.setDeaf (h : Coherent srv n) (hs : n.clients[i]? = some s)
    (hconv : ∀ arrived, Conversing (Deliverable srv) arrived s →
      Conversing (Deliverable srv) arrived s') (hdeaf : Deaf s s') :
    Coherent srv { n with clients := n.clients.set i s' } := by
  refine h.setClient hs hconv (fun _ => ⟨hdeaf.reads, hdeaf.dispatched⟩) ?_
  intro fd c _ _ hold harrived
  refine ⟨harrived, ?_, hold.spoken, ?_⟩
  · rw [hdeaf.reads]
    exact hold.heard
  · rw [hdeaf.dispatched]
    exact hold.understood

/-- A step of the server on connection `fd`. -/
theorem Coherent.setServer (h : Coherent srv n) (hserver : Orderly srv r')
    (hothers : OthersKept fd n.server r')
    (hself : ∀ (i : Nat) (s : ClientState) (x : Session), n.peer fd = some i →
      n.clients[i]? = some s → r'.conns[fd]? = some (some x) → Joint srv s x) :
    Coherent srv { n with server := r' } := by
  refine ⟨hserver, h.client, h.fresh, h.joined, h.apart, ?_⟩
  intro j i s x hpeer hs hx
  by_cases hne : j = fd
  · subst hne
    exact hself i s x hpeer hs hx
  · exact h.linked j i s x hpeer hs ((hothers j hne).symm.trans hx)

/-- The connection goes on: `bs` are the next bytes of the client. -/
theorem Joint.goes (h : Joint srv s c) (hgoes : Session.Goes srv bs c c')
    (hpre : c.arrived ++ bs <+: s.session.sent) : Joint srv s c' := by
  have hzero : c'.refused = 0 → c.refused = 0 := fun href =>
    Nat.eq_zero_of_le_zero (href ▸ hgoes.refused)
  refine ⟨?_, h.heard.trans hgoes.sent, fun href => hgoes.spoken href (h.spoken (hzero href)), ?_⟩
  · rw [hgoes.arrived]
    exact hpre
  · exact fun href => (h.understood (hzero href)).trans (transcript_mono hgoes.dispatched)

/-- Everything that the client accepted arrived at the server. -/
structure Arrived (s : ClientState) (c : Session) : Prop where
  obuf : s.obuf.length = 0
  arrived : c.arrived = s.session.sent

/-- And everything that the server said arrived at the client, which was left no part of a
frame and no frame behind another: `ibuf` is empty. -/
structure Settled (n : Net) (s : ClientState) (c : Session) : Prop extends Arrived s c where
  isOpen : c.isOpen = true
  unsent : n.server.Unsent c []
  heard : s.session.reads.flatten = c.sent
  ibuf : s.ibuf.length = 0

/-- What the server heard is the start of what the client sent. -/
theorem Coherent.requests (h : Coherent srv n) (hends : n.ends fd = some (i, s, c)) :
    c.dispatched <+: s.accepted ∧ (Arrived s c → c.dispatched = s.accepted) := by
  obtain ⟨hpeer, hs, hc⟩ := Net.ends_eq_some.mp hends
  have hjoint := h.linked fd i s c hpeer hs hc
  have hout := (conversing_arrived (h.client i s hs) hjoint.arrived).outgoing
  have hsendable : ∀ m ∈ s.accepted, m.Sendable srv.dispatcher.exist := fun m hm =>
    (hout.accepts m hm).sendable
  rw [(h.server.alone hc).dispatched]
  refine ⟨refDecode_prefix_msgs hsendable hout.arrived_frames, fun hall => ?_⟩
  obtain ⟨pending, w, hsum⟩ := hout.queued
  have hlen := w.length
  rw [hall.obuf] at hlen
  have hnil : pending = [] := List.eq_nil_of_length_eq_zero (by exact_mod_cast hlen.symm)
  rw [hnil, List.append_nil] at hsum
  rw [hall.arrived, hsum, refDecode_whole hsendable]

/-- What the server says to a client, the client can be sent. -/
theorem Coherent.said_sendable (hagreed : Agreed cli srv) (h : Coherent srv n)
    (hends : n.ends fd = some (i, s, c)) :
    ∀ m ∈ srv.speech c.dispatched, m.Sendable (cli i).dispatcher.exist := by
  intro m hm
  obtain ⟨-, hs, -⟩ := Net.ends_eq_some.mp hends
  obtain ⟨hist, hhist, hm⟩ := mem_transcript.mp hm
  refine hagreed.understood i hist (fun m' hm' => ?_) m hm
  exact (h.client i s hs).outgoing.accepts m' ((hhist.trans (h.requests hends).1).subset hm')

/-- The next bytes under way. -/
theorem append_take_drop_prefix {xs ys : List UInt8} (h : xs <+: ys) (k : Nat) :
    xs ++ (ys.drop xs.length).take k <+: ys := by
  obtain ⟨rest, rfl⟩ := h
  rw [List.drop_left]
  exact (List.prefix_append_right_inj xs).mpr (List.take_prefix k rest)

/-! ## The steps -/

/-- The server takes a step on a connection, on which `bs` arrive if it is open. -/
theorem Coherent.atServer (hagreed : Agreed cli srv) (h : Coherent srv n) {e : Event}
    (ce : ConnEvent) (bs : List UInt8) (hce : ce.Prompted)
    (hstep : n.server.step srv loop e = n.server.serve srv fd bs ce) (hmodest : e.Modest)
    (hpre : ∀ (i : Nat) (s : ClientState) (c : Session), n.peer fd = some i →
      n.clients[i]? = some s → n.server.conns[fd]? = some (some c) →
        c.arrived ++ bs <+: s.session.sent) :
    Ends (n.atServer srv loop e) (Coherent srv) (fun _ => True) := by
  unfold Net.atServer
  have horderly := (h.server.step hagreed.own loop hmodest).imp (fun _ hr => hr)
    (fun _ _ => trivial)
  have hgoes := serve_goes hagreed.silent hce n.server fd bs
  rw [← hstep] at hgoes
  apply (horderly.and_post hgoes).bind
  rintro r' ⟨hr', hothers, hself⟩
  refine h.setServer hr' hothers fun i s x hpeer hs hx => ?_
  obtain ⟨c, hc, hx⟩ := hself x hx
  have hold := h.linked fd i s c hpeer hs hc
  rcases hx with rfl | ⟨-, hgoes⟩
  · exact hold
  · exact hold.goes hgoes (hpre i s c hpeer hs hc)

/-- The connection of a client comes in. -/
theorem Coherent.accept (hagreed : Agreed cli srv) (h : Coherent srv n) (i fd : Nat) :
    Ends (n.step cli srv loop (.accept i fd)) (Coherent srv) (fun _ => True) := by
  unfold Net.step
  simp only
  split
  next => exact h
  next hno =>
    rw [not_or, Option.not_isSome_iff_eq_none] at hno
    obtain ⟨hi, hfree⟩ := hno
    have horderly := (h.server.step (e := .accept fd) hagreed.own loop trivial).imp
      (fun _ hr => hr) (fun _ _ => trivial)
    apply (horderly.and_post (accept_begins hagreed.own h.server hfree loop)).bind
    rintro r' ⟨hr', hbegins⟩
    have hjoined : ∀ {peer : Nat → Option Nat},
        (∀ fd j, peer fd = some j → n.peer fd = some j ∨ j = i) →
          ∀ fd j, peer fd = some j → j ∈ i :: n.joined := by
      intro peer hpeer j k hk
      cases hpeer j k hk with
      | inl hold => exact List.mem_cons_of_mem _ (h.joined j k hold)
      | inr hnew =>
        subst hnew
        exact List.mem_cons_self ..
    have hfresh : ∀ (j : Nat) (s : ClientState), n.clients[j]? = some s → j ∉ i :: n.joined →
        s.session.reads = [] ∧ s.session.dispatched = [] := fun j s hs hj =>
      h.fresh j s hs fun hmem => hj (List.mem_cons_of_mem _ hmem)
    cases hbegins with
    | inl hsame =>
      have hlive : r'.live fd = none := by
        unfold TcpReactor.live at hfree ⊢
        rw [hsame]
        exact hfree
      simp only [hlive, Option.isSome_none, Bool.false_eq_true, if_false]
      refine ⟨hr', h.client, hfresh, hjoined fun _ _ hk => .inl hk, h.apart, ?_⟩
      intro j k s c hpeer hs hc
      exact h.linked j k s c hpeer hs (by rwa [← hsame])
    | inr hnew =>
      obtain ⟨hothers, c, hc, hb⟩ := hnew
      have hlive : r'.live fd = some c := by
        refine TcpReactor.live_eq_some.mpr ⟨hc, ?_⟩
        unfold Session.isOpen
        rw [hb.connfd]
        simp
      simp only [hlive, Option.isSome_some, if_true]
      -- a client that comes in has no other connection
      have hunused : ∀ j, n.peer j ≠ some i := fun j hj => hi (h.joined j i hj)
      have hself : Function.update n.peer fd (some i) fd = some i := Function.update_self ..
      have hother : ∀ {j : Nat}, j ≠ fd → Function.update n.peer fd (some i) j = n.peer j :=
        fun hne => Function.update_of_ne hne ..
      refine ⟨hr', h.client, hfresh, hjoined ?_, ?_, ?_⟩
      · intro j k hk
        by_cases hne : j = fd
        · subst hne
          exact .inr (Option.some.inj (hself.symm.trans hk)).symm
        · exact .inl ((hother hne).symm.trans hk)
      · intro j j' k hj hj'
        by_cases hne : j = fd
        · by_cases hne' : j' = fd
          · rw [hne, hne']
          · subst hne
            obtain rfl := Option.some.inj (hself.symm.trans hj)
            exact absurd ((hother hne').symm.trans hj') (hunused j')
        · by_cases hne' : j' = fd
          · subst hne'
            obtain rfl := Option.some.inj (hself.symm.trans hj')
            exact absurd ((hother hne).symm.trans hj) (hunused j)
          · exact h.apart j j' k ((hother hne).symm.trans hj) ((hother hne').symm.trans hj')
      · intro j k s x hk hs hx
        by_cases hne : j = fd
        · subst hne
          obtain rfl := Option.some.inj (hself.symm.trans hk)
          obtain rfl := Option.some.inj (Option.some.inj (hc.symm.trans hx))
          obtain ⟨hreads, hd⟩ := h.fresh i s hs hi
          refine ⟨?_, ?_, hb.spoken, fun _ => ?_⟩
          · rw [hb.arrived]
            exact List.nil_prefix
          · rw [hreads]
            exact List.nil_prefix
          · rw [hd]
            exact List.nil_prefix
        · exact h.linked j k s x ((hother hne).symm.trans hk) hs ((hothers j hne).symm.trans hx)

/-- A client takes a step in which nothing comes in. -/
theorem Coherent.atClient (h : Coherent srv n) {f : ClientState → Except Fault ClientState}
    (hf : ∀ s arrived, Conversing (Deliverable srv) arrived s →
      Ends (f s) (fun s' => Conversing (Deliverable srv) arrived s' ∧ Deaf s s')
        (fun _ => True)) : Ends (n.atClient i f) (Coherent srv) (fun _ => True) := by
  unfold Net.atClient
  cases hs : n.clients[i]? with
  | none => exact h
  | some s =>
    apply (Ends.any (f s)).bind_eq (fun _ _ => trivial)
    intro s' hs' _
    have hconv : ∀ arrived, Conversing (Deliverable srv) arrived s →
        Conversing (Deliverable srv) arrived s' ∧ Deaf s s' := fun arrived ha =>
      (hf s arrived ha).of_ok hs'
    exact h.setDeaf hs (fun arrived ha => (hconv arrived ha).1) (hconv [] (h.client i s hs)).2

/-- What the server says on a connection that refused nothing, the client knows. -/
theorem Coherent.hears (hagreed : Agreed cli srv) (h : Coherent srv n)
    (hends : n.ends fd = some (i, s, c)) (href : c.refused = 0) (k : Nat) :
    Hears (cli i) s (Net.response s c k) := by
  obtain ⟨hpeer, hs, hc⟩ := Net.ends_eq_some.mp hends
  have hjoint := h.linked fd i s c hpeer hs hc
  obtain ⟨held, w, hsum⟩ := (h.client i s hs).hearing
  have hsent := (h.server.alone hc).sent href
  rw [hjoint.spoken href] at hsent
  have hnext : s.session.reads.flatten ++ Net.response s c k <+: c.sent :=
    append_take_drop_prefix hjoint.heard k
  rw [hsum, List.append_assoc] at hnext
  unfold Hears
  rw [unread_eq w]
  exact turn_ne_unknown _ (h.said_sendable hagreed hends) (hjoint.understood href)
    (hnext.trans hsent)

/-- Bytes of the server arrive at a client, and are heard. -/
theorem Coherent.answer (hagreed : Agreed cli srv) (h : Coherent srv n) {fd k : Nat}
    {sys : SysCalls} (hloud : NetEvent.Heard cli n (.answer fd k sys)) :
    Ends (n.step cli srv loop (.answer fd k sys)) (Coherent srv) (fun _ => True) := by
  unfold Net.step
  simp only
  cases hends : n.ends fd with
  | none => exact h
  | some x =>
    obtain ⟨i, s, c⟩ := x
    have hhears : Hears (cli i) s (Net.response s c k) := by
      by_cases href : c.refused = 0
      · exact h.hears hagreed hends href k
      · exact hloud _ hends href
    obtain ⟨hpeer, hs, hc⟩ := Net.ends_eq_some.mp hends
    simp only
    split
    next => exact h
    next hne =>
      unfold Net.atClient
      rw [hs]
      apply (Ends.any _).bind_eq (fun _ _ => trivial)
      intro s' hs' _
      have hstep : ∀ arrived, Conversing (Deliverable srv) arrived s →
          Conversing (Deliverable srv) arrived s' ∧ Heard (cli i) s (Net.response s c k) s' :=
        fun arrived ha => (ha.hears (hagreed.utters i) hne hhears sys).of_ok hs'
      have hheard := (hstep [] (h.client i s hs)).2
      refine h.setClient hs (fun arrived ha => (hstep arrived ha).1)
        (fun hi => absurd (h.joined fd i hpeer) hi) ?_
      intro fd' c' hpeer' hc' hold harrived
      obtain rfl := h.apart fd' fd i hpeer' hpeer
      obtain rfl := Option.some.inj (Option.some.inj (hc.symm.trans hc'))
      have hnext : s.session.reads.flatten ++ Net.response s c k <+: c.sent :=
        append_take_drop_prefix hold.heard k
      have hread : s'.session.reads = s.session.reads ++ [Net.response s c k] →
          s'.session.reads.flatten <+: c.sent := by
        intro hreads
        rw [hreads]
        simpa using hnext
      cases hheard with
      | early => exact hold
      | waits hreads hd =>
        refine ⟨harrived, hread hreads, hold.spoken, ?_⟩
        rw [hd]
        exact hold.understood
      | message m hturn hreads hd =>
        refine ⟨harrived, hread hreads, hold.spoken, fun href => ?_⟩
        -- the server's output is the frames of what it says, and the client is at one of them
        have hsent := (h.server.alone hc).sent href
        rw [hold.spoken href] at hsent
        obtain ⟨held, w, hsum⟩ := (h.client i s hs).hearing
        rw [hd]
        refine next_of_turn (cli i).dispatcher.exist (h.said_sendable hagreed hends)
          (hold.understood href) ?_ hturn
        rw [unread_eq w, ← List.append_assoc, ← hsum]
        exact hnext.trans hsent

theorem Coherent.step (hagreed : Agreed cli srv) (h : Coherent srv n) (e : NetEvent)
    (hmodest : e.Modest srv) (hheard : e.Heard cli n) :
    Ends (n.step cli srv loop e) (Coherent srv) (fun _ => True) := by
  cases e with
  | accept i fd => exact h.accept hagreed i fd
  | answer fd k sys => exact h.answer hagreed hheard
  | send i m =>
    have hm : Deliverable srv m := hmodest
    have hlength : m.body.length ≤ 65528 := hm.sendable.length
    exact h.atClient fun s arrived ha =>
      (ha.send hm (by omega)).imp (fun _ hs => hs) (fun _ _ => trivial)
  | write i sys =>
    exact h.atClient fun s arrived ha =>
      (ha.writable (hagreed.utters i) hmodest).imp (fun _ hs => hs) (fun _ _ => trivial)
  | writable fd ws =>
    refine h.atServer hagreed (.writable ws) [] trivial rfl trivial ?_
    intro i s c hpeer hs hc
    rw [List.append_nil]
    exact (h.linked fd i s c hpeer hs hc).arrived
  | deliver fd k =>
    unfold Net.step
    simp only
    cases hends : n.ends fd with
    | none => exact h
    | some x =>
      obtain ⟨i, s, c⟩ := x
      obtain ⟨hpeer, hs, hc⟩ := Net.ends_eq_some.mp hends
      simp only
      split
      next => exact h
      next =>
        refine h.atServer hagreed (.readable (.chunk (Net.request s c k))) _ trivial rfl ?_ ?_
        · exact (List.length_take_le k _).trans hmodest
        · intro i' s' c' hpeer' hs' hc'
          obtain rfl := Option.some.inj (hpeer.symm.trans hpeer')
          obtain rfl := Option.some.inj (hs.symm.trans hs')
          obtain rfl := Option.some.inj (Option.some.inj (hc.symm.trans hc'))
          exact append_take_drop_prefix (h.linked fd i s c hpeer hs hc).arrived k

/-! ## Runs -/

/-- Every client was constructed and has called `do_connect`. -/
def Dialled (clients : List ClientState) : Prop :=
  ∀ (i : Nat) (s : ClientState), clients[i]? = some s → ∃ rawIn rawOut c,
    ClientState.construct rawIn rawOut c = .ok s

theorem start_coherent (srv : TcpServer) {clients : List ClientState}
    (hclients : Dialled clients) (raw : BufId → Nat → UInt8) (size : Nat) (maxConns : Int) :
    Coherent srv (.start clients raw size maxConns) := by
  have hnew : ∀ (i : Nat) (s : ClientState), clients[i]? = some s →
      Conversing (Deliverable srv) [] s ∧ s.session.reads = [] ∧ s.session.dispatched = [] := by
    intro i s hs
    obtain ⟨rawIn, rawOut, c, hc⟩ := hclients i s hs
    have w := Client.pending_new rawIn rawOut
    have hr := (Client.construct_ends rawIn rawOut c).of_ok hc
    have hacc := (Client.construct_accepts (Deliverable srv) rawIn rawOut c).of_ok hc
    have hreads : s.session.reads = [] := by
      rw [hr.session]
      rfl
    have hd : s.session.dispatched = [] := by
      rw [hr.session]
      rfl
    obtain ⟨more, hmore, hpend⟩ := hr.output
    refine ⟨⟨hr.phase, ⟨hacc, ⟨frames more, hpend [] w, ?_⟩, List.nil_prefix⟩, ⟨[], ?_, ?_⟩, ?_⟩,
      hreads, hd⟩
    · rw [hr.session, hmore]
      rfl
    · rw [hr.ibuf]
      exact .of_new (by decide) (by decide) rawIn
    · rw [hreads, hd]
      rfl
    · rw [hr.ibuf]
      rfl
  refine ⟨start_orderly srv raw size maxConns, fun i s hs => (hnew i s hs).1,
    fun i s hs _ => (hnew i s hs).2, ?_, ?_, ?_⟩
  · intro fd i hpeer
    cases hpeer
  · intro fd fd' i hpeer
    cases hpeer
  · intro fd i s c hpeer
    cases hpeer

/-- The run of a server with its clients: what goes out is modest, and what comes in heard. -/
structure Proceeds (cli : Nat → TcpClient) (srv : TcpServer) (loop : Nat) (n : Net)
    (events : List NetEvent) : Prop where
  modest : ∀ e ∈ events, e.Modest srv
  heard : Meets (Net.step cli srv loop) (fun n e => e.Heard cli n) n events

theorem run_coherent (hagreed : Agreed cli srv) (h : Coherent srv n) {events : List NetEvent}
    (hproceeds : Proceeds cli srv loop n events) :
    Ends (n.run cli srv loop events) (Coherent srv) (fun _ => True) := by
  refine Ends.foldlM_meets (C := fun n e => e.Modest srv ∧ e.Heard cli n) ?_ events n h ?_
  · exact fun n e hn he => hn.step hagreed e he.1 he.2
  · exact hproceeds.heard.imp_mem fun n e he hp => ⟨hproceeds.modest e he, hp⟩

/-- Frames are counted by their bytes. -/
theorem eq_of_prefix_frames {ms ns : List Msg} (h : ms <+: ns) (hframes : frames ms = frames ns) :
    ms = ns := by
  obtain ⟨rest, rfl⟩ := h
  have hlen := congrArg List.length hframes
  rw [frames_append, List.length_append] at hlen
  have hnil : rest = [] := eq_nil_of_frames (by omega)
  rw [hnil, List.append_nil]

/-- What the client heard is the start of what the server says to what the client sent. -/
theorem Coherent.answers (h : Coherent srv n) (hends : n.ends fd = some (i, s, c))
    (href : c.refused = 0) :
    s.session.dispatched <+: srv.speech s.accepted ∧
      (Settled n s c → s.session.dispatched = srv.speech s.accepted) := by
  obtain ⟨hpeer, hs, hc⟩ := Net.ends_eq_some.mp hends
  have hjoint := h.linked fd i s c hpeer hs hc
  obtain ⟨hpre, hwhole⟩ := h.requests hends
  have hunderstood := hjoint.understood href
  refine ⟨hunderstood.trans (transcript_mono hpre), fun hsettled => ?_⟩
  rw [← hwhole hsettled.toArrived]
  refine eq_of_prefix_frames hunderstood ?_
  obtain ⟨held, w, hsum⟩ := (h.client i s hs).hearing
  have hlen := w.length
  rw [hsettled.ibuf] at hlen
  have hnil : held = [] := List.eq_nil_of_length_eq_zero (by exact_mod_cast hlen.symm)
  obtain ⟨pending, hpending, hsent⟩ := (h.server.alone hc).unsent hsettled.isOpen href
  have hpendlen := (Holds.length hpending).symm.trans (Holds.length hsettled.unsent)
  have hpendnil : pending = [] := List.eq_nil_of_length_eq_zero (by exact_mod_cast hpendlen)
  rw [hnil, List.append_nil] at hsum
  rw [hpendnil, List.append_nil, hjoint.spoken href] at hsent
  rw [← hsum, hsettled.heard, hsent]

/-- **Requests.**  However the steps of a server and its clients are interleaved, and the bytes
cut: on each connection the server dispatches what that client sent, in order, and all of it
once it has read everything. -/
theorem requests_in_order (hagreed : Agreed cli srv) {clients : List ClientState}
    (hclients : Dialled clients) {raw : BufId → Nat → UInt8} {size : Nat} {maxConns : Int}
    {events : List NetEvent}
    (hproceeds : Proceeds cli srv loop (.start clients raw size maxConns) events)
    (hrun : (Net.start clients raw size maxConns).run cli srv loop events = .ok n)
    (hends : n.ends fd = some (i, s, c)) :
    c.dispatched <+: s.accepted ∧ (Arrived s c → c.dispatched = s.accepted) :=
  ((run_coherent hagreed (start_coherent srv hclients raw size maxConns) hproceeds).of_ok
    hrun).requests hends

/-! ## A server that sends every message back -/

def echoServer : TcpServer where
  dispatcher :=
    ⟨[(1, fun hist _ => hist.getLast?.toList.map fun m => .sendData m.body m.cmdid)], []⟩
  connBuildCb := none
  connCloseCb := none

theorem lookup_one {α : Type} {f g : α} {cmdid : Int32}
    (h : ([(1, f)] : List (Int32 × α)).lookup cmdid = some g) : cmdid = 1 ∧ g = f := by
  rw [List.lookup_cons] at h
  cases hc : cmdid == 1 with
  | true =>
    rw [hc] at h
    exact ⟨by simpa using hc, (Option.some.inj h).symm⟩
  | false =>
    rw [hc] at h
    cases h

theorem agreed_echo : Agreed (fun _ => Client.quietClient [1]) echoServer := by
  refine ⟨⟨?_, nofun, nofun⟩, rfl, ?_, fun _ => ⟨?_, nofun, nofun⟩⟩
  · intro cmdid func hfunc hist usrData act hact
    obtain ⟨-, rfl⟩ := lookup_one hfunc
    obtain ⟨m, -, rfl⟩ := List.mem_map.mp hact
    trivial
  · intro i hist hhist m hm
    unfold TcpServer.out at hm
    cases hlast : hist.getLast? with
    | none => simp [hlast, echoServer] at hm
    | some m' =>
      have hm' := hhist m' (List.mem_of_getLast? hlast)
      have hone : m'.cmdid = 1 := by
        have hreg := hm'.sendable.registered
        unfold MsgDispatcher.exist at hreg
        obtain ⟨func, hfunc⟩ := Option.isSome_iff_exists.mp hreg
        exact (lookup_one hfunc).1
      have hcb : echoServer.dispatcher.cb m'.cmdid = .ok (fun hist _ =>
          hist.getLast?.toList.map fun m => .sendData m.body m.cmdid, none) := by
        rw [hone]
        rfl
      simp only [hlast, hcb, Option.toList_some, List.map_cons, List.map_nil, List.filterMap_cons,
        List.filterMap_nil, UserAct.message, List.mem_singleton] at hm
      subst hm
      refine ⟨?_, hm'.sendable.length⟩
      rw [hone]
      rfl
  · intro cmdid func hfunc s usrData m hm
    obtain ⟨-, rfl⟩ := lookup_one hfunc
    cases hm

/-- A client that has called `do_connect`. -/
def dialling : ClientState :=
  (ClientState.construct (fun _ => 0) (fun _ => 0) ⟨some 4, .inProgress⟩).toOption.getD
    (.new (fun _ => 0) (fun _ => 0))

theorem dialled_two : Dialled [dialling, dialling] := by
  intro i s hs
  obtain rfl : s = dialling := by
    have hmem := List.mem_of_getElem? hs
    simpa using hmem
  exact ⟨fun _ => 0, fun _ => 0, ⟨some 4, .inProgress⟩, rfl⟩

/-- Two clients each send a message; the frame of the first arrives in two parts, before and
after that of the second. -/
def twoCallers : List NetEvent :=
  [.write 0 Client.noCalls, .write 1 Client.noCalls, .accept 0 3, .accept 1 4,
    .send 0 ⟨1, [7]⟩, .send 1 ⟨1, [8]⟩,
    .write 0 { Client.noCalls with writes := [.wrote 9] },
    .write 1 { Client.noCalls with writes := [.wrote 9] },
    .deliver 3 4, .deliver 4 9, .deliver 3 5, .writable 4 [.wrote 9], .writable 3 [.wrote 9],
    .answer 3 9 Client.noCalls, .answer 4 9 Client.noCalls]

/-- The server, the two clients, and nothing done. -/
abbrev twoCalling : Net := .start [dialling, dialling] (fun _ _ => 0) 8 5

theorem twoCallers_proceed :
    Proceeds (fun _ => Client.quietClient [1]) echoServer 0 twoCalling twoCallers := by
  refine ⟨?_, by decide +kernel⟩
  intro e he
  simp only [twoCallers, List.mem_cons, List.not_mem_nil, or_false] at he
  have hm : ∀ b : UInt8, Deliverable echoServer ⟨1, [b]⟩ := fun b =>
    ⟨⟨rfl, show 1 ≤ 65528 by decide⟩, by simp⟩
  rcases he with rfl | rfl | rfl | rfl | rfl | rfl | rfl | rfl | rfl | rfl | rfl | rfl | rfl |
    rfl | rfl
  case inr.inr.inr.inr.inl => exact hm 7
  case inr.inr.inr.inr.inr.inl => exact hm 8
  all_goals simp [NetEvent.Modest, Client.noCalls]

theorem twoCallers_run : ∃ n,
    twoCalling.run (fun _ => Client.quietClient [1]) echoServer 0 twoCallers = .ok n ∧
      (n.ends 3).map (fun x => (x.2.2.refused, x.2.1.session.dispatched)) =
        some (0, [⟨1, [7]⟩]) := by
  have hobs : (twoCalling.run (fun _ => Client.quietClient [1]) echoServer 0
      twoCallers).toOption.map (fun n =>
        (n.ends 3).map (fun x => (x.2.2.refused, x.2.1.session.dispatched))) =
          some (some (0, [⟨1, [7]⟩])) := by
    decide +kernel
  exact ok_of_observed hobs

theorem requests_in_order_twoCallers : ∃ n i s c,
    twoCalling.run (fun _ => Client.quietClient [1]) echoServer 0 twoCallers = .ok n ∧
      n.ends 3 = some (i, s, c) ∧ c.dispatched <+: s.accepted ∧
        (Arrived s c → c.dispatched = s.accepted) := by
  obtain ⟨n, hrun, hobs⟩ := twoCallers_run
  obtain ⟨⟨i, s, c⟩, hends, -⟩ := Option.map_eq_some_iff.mp hobs
  exact ⟨n, i, s, c, hrun, hends,
    requests_in_order agreed_echo dialled_two twoCallers_proceed hrun hends⟩

/-- **Answers.**  And on a connection that refused no message the client dispatches what the
server says to its own messages, in order, and all of it once everything has arrived and
nothing is left in its `ibuf`. -/
theorem answers_in_order (hagreed : Agreed cli srv) {clients : List ClientState}
    (hclients : Dialled clients) {raw : BufId → Nat → UInt8} {size : Nat} {maxConns : Int}
    {events : List NetEvent}
    (hproceeds : Proceeds cli srv loop (.start clients raw size maxConns) events)
    (hrun : (Net.start clients raw size maxConns).run cli srv loop events = .ok n)
    (hends : n.ends fd = some (i, s, c)) (href : c.refused = 0) :
    s.session.dispatched <+: srv.speech s.accepted ∧
      (Settled n s c → s.session.dispatched = srv.speech s.accepted) :=
  ((run_coherent hagreed (start_coherent srv hclients raw size maxConns) hproceeds).of_ok
    hrun).answers hends href

theorem answers_in_order_twoCallers : ∃ n i s c,
    twoCalling.run (fun _ => Client.quietClient [1]) echoServer 0 twoCallers = .ok n ∧
      n.ends 3 = some (i, s, c) ∧ s.session.dispatched <+: echoServer.speech s.accepted ∧
        (Settled n s c → s.session.dispatched = echoServer.speech s.accepted) := by
  obtain ⟨n, hrun, hobs⟩ := twoCallers_run
  obtain ⟨⟨i, s, c⟩, hends, hx⟩ := Option.map_eq_some_iff.mp hobs
  exact ⟨n, i, s, c, hrun, hends, answers_in_order agreed_echo dialled_two twoCallers_proceed hrun
    hends (Prod.mk.inj hx).1⟩

end EasyReactor.Reactor
