import EasyReactor.Reactor.Isolation

set_option autoImplicit false

/-!
# Reactor: what is accepted can be sent

Whatever state a run leaves the connections in, the loop calls each that has something to
write, and one `write` that takes everything empties its `obuf`, without another connection
noticing.  So one event for each of them sends all that was accepted, unless a `send_data`
was refused on the connection before.
-/

namespace EasyReactor.Reactor

open EasyReactor.Foundation EasyReactor.Buffer EasyReactor.Loop EasyReactor.Wire
open EasyReactor.Server

variable {srv : TcpServer} {r r' : TcpReactor} {fd : Nat} {c c' : Session}

/-- Connection `c` is still there as `c'`, and its socket took every message it accepted. -/
structure AllSent (c c' : Session) : Prop where
  arrived : c'.arrived = c.arrived
  dispatched : c'.dispatched = c.dispatched
  accepted : c'.accepted = c.accepted
  refused : c'.refused = 0
  sent : c'.sent = frames c.accepted

/-- A connection with nothing to write. -/
theorem Serving.allSent (h : Serving srv r fd c) (href : c.refused = 0)
    (hempty : c.conn.obuf.length r.pool = 0) : AllSent c c := by
  obtain ⟨pending, hheld, hsent⟩ := h.output.outflow href
  have hlen : c.conn.obuf.length r.pool = pending.length := hheld.length
  have hnil : pending = [] := List.eq_nil_of_length_eq_zero (by omega)
  rw [hnil, List.append_nil] at hsent
  exact ⟨rfl, rfl, rfl, href, hsent⟩

/-- One event for a connection with something to write. -/
theorem Orderly.empties (hsrv : srv.Private) (h : Orderly srv r) (hc : r.live fd = some c)
    (href : c.refused = 0) (hne : c.conn.obuf.length r.pool ≠ 0) (loop : Nat) :
    ∃ n r' c', r.step srv loop (.writable fd [.wrote n]) = .ok r' ∧ Orderly srv r' ∧
      OthersKept fd r r' ∧ r'.live fd = some c' ∧ AllSent c c' := by
  have hserv := h.serving hc
  obtain ⟨hget, hopen⟩ := TcpReactor.live_eq_some.mp hc
  obtain ⟨pending, hheld, -⟩ := hserv.output.outflow href
  have hpending : c.conn.obuf.length r.pool = pending.length := hheld.length
  cases hb : c.conn.obuf with
  | none =>
    rw [hb] at hne
    exact absurd rfl hne
  | some b =>
    have hbuf : (r.view fd c).conn.obuf = some b := hb
    rw [hbuf] at hheld
    have hall : drains pending.length [.wrote pending.length] = true := by
      rw [drains_of_wrote (k := pending.length) (by omega) rfl, Nat.sub_self, drains_zero]
      simpa using fun hnil : pending = [] => hne (by rw [hpending, hnil]; rfl)
    -- the loop calls `handle_write`, which drains `obuf`
    have hwatch := hserv.eager.interest.mpr hne
    have hcall : (r.view fd c).step srv (.writable [.wrote pending.length]) =
        (r.view fd c).handleWrite srv [.wrote pending.length] := if_pos hwatch
    have hdrained : ∃ s', (r.view fd c).handleWrite srv [.wrote pending.length] = .ok s' ∧
        s'.conn = c.conn ∧ s'.refused = c.refused ∧ s'.conn.obuf.length s'.pool = 0 :=
      handleWrite_drained hserv.output.attached hbuf hheld hall
    obtain ⟨s', hs', hconn, hrefused, hzero⟩ := hdrained
    obtain ⟨haccepted, hdispatched⟩ : s'.accepted = c.accepted ∧ s'.dispatched = c.dispatched := by
      rcases (handleWrite_rests hsrv hserv.output _).of_ok hs' with hw | ⟨hl, -⟩
      · exact ⟨hw.accepted, hw.dispatched⟩
      · have hneg := hl.cleaned.connfd
        have hfd := hserv.connfd
        rw [hconn, hfd] at hneg
        omega
    have hstep : r.step srv loop (.writable fd [.wrote pending.length]) =
        .ok (r.put fd (c.arrived ++ []) s') := by
      unfold TcpReactor.step TcpReactor.serve
      simp only
      rw [hc]
      simp only
      rw [hcall, hs', ok_bind]
      rfl
    have hr' := (h.step (e := .writable fd [.wrote pending.length]) hsrv loop trivial).of_ok hstep
    have hself := put_conns_self hget (c.arrived ++ []) s'
    have hlive := TcpReactor.live_eq_some.mpr ⟨hself, show Session.isOpen _ = true by
      unfold Session.isOpen at hopen ⊢
      rw [hconn]
      exact hopen⟩
    have hsent := (hr'.serving hlive).allSent (hrefused.trans href) hzero
    refine ⟨_, _, _, hstep, hr', put_othersKept r fd _ s', hlive, ?_⟩
    refine ⟨List.append_nil _, hdispatched, haccepted, hrefused.trans href, ?_⟩
    rw [hsent.sent, haccepted]

/-- `fds` were dealt with: where nothing was refused, all that was accepted was sent. -/
structure Drained (fds : List Nat) (r r' : TcpReactor) : Prop where
  others : ∀ fd, fd ∉ fds → r'.conns[fd]? = r.conns[fd]?
  sent : ∀ fd ∈ fds, ∀ c, r.live fd = some c → c.refused = 0 →
    ∃ c', r'.live fd = some c' ∧ AllSent c c'

/-- The descriptor was dealt with, and then the rest were. -/
theorem Drained.cons {r₁ : TcpReactor} {fds : List Nat} (hnot : fd ∉ fds)
    (hothers : OthersKept fd r r₁)
    (hfirst : ∀ c, r.live fd = some c → c.refused = 0 →
      ∃ c', r₁.live fd = some c' ∧ AllSent c c')
    (h : Drained fds r₁ r') : Drained (fd :: fds) r r' := by
  refine ⟨fun j hj => ?_, fun j hj c hc href => ?_⟩
  · rw [List.mem_cons, not_or] at hj
    obtain ⟨hne, hj⟩ := hj
    rw [h.others j hj, hothers j hne]
  · cases List.mem_cons.mp hj with
    | inl heq =>
      subst heq
      rw [live_congr (h.others j hnot)]
      exact hfirst c hc href
    | inr hmem =>
      have hne : j ≠ fd := fun heq => hnot (heq ▸ hmem)
      rw [← live_congr (hothers j hne)] at hc
      exact h.sent j hmem c hc href

/-- One event for each descriptor of the list that has something to write, at most. -/
theorem Orderly.drained (hsrv : srv.Private) (loop : Nat) (fds : List Nat) (hnodup : fds.Nodup) :
    ∀ {r : TcpReactor}, Orderly srv r → ∃ (writes : List (Nat × Nat)) (r' : TcpReactor),
      (writes.map Prod.fst).Sublist fds ∧ (∀ w ∈ writes, (r.live w.1).isSome) ∧
      (writes.map fun w => Event.writable w.1 [.wrote w.2]).foldlM
        (TcpReactor.step srv loop) r = .ok r' ∧ Drained fds r r' := by
  induction fds with
  | nil =>
    intro r _
    exact ⟨[], r, .slnil, nofun, rfl, fun _ _ => rfl, nofun⟩
  | cons fd fds ih =>
    intro r h
    obtain ⟨hnot, hrest⟩ := List.nodup_cons.mp hnodup
    by_cases hwrites : ∃ c, r.live fd = some c ∧ c.refused = 0 ∧ c.conn.obuf.length r.pool ≠ 0
    · obtain ⟨c, hc, href, hne⟩ := hwrites
      obtain ⟨n, r₁, c₁, hstep, h₁, hothers, hc₁, hsent⟩ := h.empties hsrv hc href hne loop
      obtain ⟨writes, r', hsub, hlive, hrun, hdrained⟩ := ih hrest h₁
      refine ⟨(fd, n) :: writes, r', hsub.cons_cons fd, fun w hw => ?_, ?_, ?_⟩
      · cases List.mem_cons.mp hw with
        | inl heq => rw [heq, hc, Option.isSome_some]
        | inr hmem =>
          have hin : w.1 ∈ fds := hsub.subset (List.mem_map_of_mem hmem)
          have hne : w.1 ≠ fd := fun heq => hnot (heq ▸ hin)
          rw [← live_congr (hothers w.1 hne)]
          exact hlive w hmem
      · rw [List.map_cons, List.foldlM_cons, hstep, ok_bind, hrun]
      · refine hdrained.cons hnot hothers fun c' hc' _ => ⟨c₁, hc₁, ?_⟩
        obtain rfl := Option.some.inj (hc.symm.trans hc')
        exact hsent
    · -- nothing to do for this one
      obtain ⟨writes, r', hsub, hlive, hrun, hdrained⟩ := ih hrest h
      refine ⟨writes, r', hsub.cons fd, hlive, hrun, ?_⟩
      refine hdrained.cons hnot (fun _ _ => rfl) fun c hc href => ⟨c, hc, ?_⟩
      refine (h.serving hc).allSent href ?_
      by_contra hne
      exact hwrites ⟨c, hc, href, hne⟩

/-- **What is accepted can be sent.**  From every state that a run reaches, whatever was
interleaved in it: at most one `write` for each open connection, of which each takes what it is
offered, leads to a state in which every connection on which no `send_data` was refused is
still open, and its socket took the frames of every message accepted on it. -/
theorem accepted_can_be_sent (hsrv : srv.Private) {raw : BufId → Nat → UInt8} {size : Nat}
    {maxConns : Int} {loop : Nat} {events : List Event} (hmodest : ∀ e ∈ events, e.Modest)
    {r : TcpReactor} (hrun : TcpReactor.run srv raw size maxConns loop events = .ok r) :
    ∃ (writes : List (Nat × Nat)) (r' : TcpReactor), (writes.map Prod.fst).Nodup ∧
      (∀ w ∈ writes, (r.live w.1).isSome) ∧
      TcpReactor.run srv raw size maxConns loop
        (events ++ writes.map fun w => .writable w.1 [.wrote w.2]) = .ok r' ∧
      ∀ fd c, r.live fd = some c → c.refused = 0 →
        ∃ c', r'.live fd = some c' ∧ AllSent c c' := by
  have h := (run_orderly hsrv raw size maxConns loop events hmodest).of_ok hrun
  have hnodup : (List.range r.conns.length).Nodup := List.nodup_range
  obtain ⟨writes, r', hsub, hlive, hwrites, hdrained⟩ := h.drained hsrv loop _ hnodup
  refine ⟨writes, r', hsub.nodup hnodup, hlive, ?_, fun fd c hc href => ?_⟩
  · unfold TcpReactor.run at hrun ⊢
    rw [List.foldlM_append, hrun, ok_bind, hwrites]
  · have hlt := (List.getElem?_eq_some_iff.mp (TcpReactor.live_eq_some.mp hc).1).1
    exact hdrained.sent fd (List.mem_range.mpr hlt) c hc href

/-- Two connections with something to write, one of which wrote two bytes of it. -/
def twoWaiting : List Event :=
  [.accept 3, .accept 4, .sendData 3 [5] 1, .sendData 4 [6] 1, .writable 3 [.wrote 2]]

theorem accepted_can_be_sent_twoWaiting : ∃ r,
    TcpReactor.run (quietServer [1]) (fun _ _ => 0) 8 5 0 twoWaiting = .ok r ∧
    ∃ (writes : List (Nat × Nat)) (r' : TcpReactor), (writes.map Prod.fst).Nodup ∧
      (∀ w ∈ writes, (r.live w.1).isSome) ∧
      TcpReactor.run (quietServer [1]) (fun _ _ => 0) 8 5 0
        (twoWaiting ++ writes.map fun w => .writable w.1 [.wrote w.2]) = .ok r' ∧
      ∀ fd c, r.live fd = some c → c.refused = 0 →
        ∃ c', r'.live fd = some c' ∧ AllSent c c' := by
  have hmodest : ∀ e ∈ twoWaiting, e.Modest := by
    intro e he
    simp only [twoWaiting, List.mem_cons, List.not_mem_nil, or_false] at he
    rcases he with rfl | rfl | rfl | rfl | rfl <;> simp [Event.Modest]
  have hobs : (TcpReactor.run (quietServer [1]) (fun _ _ => 0) 8 5 0 twoWaiting).toOption.map
      (fun r => r.opened) = some 2 := by
    decide +kernel
  obtain ⟨r, hrun, -⟩ := ok_of_observed hobs
  exact ⟨r, hrun, accepted_can_be_sent (private_quiet [1]) hmodest hrun⟩

end EasyReactor.Reactor
