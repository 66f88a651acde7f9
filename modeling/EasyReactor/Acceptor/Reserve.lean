import EasyReactor.Acceptor.Numbers

set_option autoImplicit false

/-!
# Acceptor: the reserve descriptor

`do_accept` closes `_reservfd` when descriptors have run out, and opens it again when it
has turned the next connection away.  Nothing remembers whether it is open: not the call
that ends before that connection comes, and not the second `EMFILE` of a row.
-/

namespace EasyReactor.Acceptor

open EasyReactor.Foundation EasyReactor.Loop EasyReactor.Thread

/-- The books about the reserve: what has been closed, in the order in which it was opened,
and who holds the descriptor that was opened last. -/
structure Kept (owner : Nat → Option Owner) (reservfd : Option Nat) (reserves : Nat)
    (closes : List (Option Nat × Option Owner)) : Prop where
  closed : closes.map Prod.snd =
    (List.range closes.length).map fun k => some (Owner.reserve k)
  named : ∀ c ∈ closes, c.1 ≠ none
  held_or_closed :
    reserves = closes.length ∧ (∀ n k, owner n ≠ some (.reserve k)) ∨
    reserves = closes.length + 1 ∧ ∃ n, reservfd = some n ∧
      owner n = some (.reserve closes.length) ∧ ∀ m k, owner m = some (.reserve k) → m = n

section Table

variable {t t' : Descriptors Owner} {conns conns' : List Nat} {n : Nat} {w : Owner}
  {reservfd : Option Nat} {reserves : Nat} {closes : List (Option Nat × Option Owner)}

theorem Kept.alloc (h : Kept t.owner reservfd reserves closes)
    (halloc : t.alloc w = some (n, t')) (hw : ∀ k, w ≠ .reserve k) :
    Kept t'.owner reservfd reserves closes where
  closed := h.closed
  named := h.named
  held_or_closed := by
    have hold : ∀ m k, t'.owner m = some (.reserve k) → t.owner m = some (.reserve k) := by
      intro m k hm
      obtain ⟨_, _, _, _, hnew⟩ := Descriptors.alloc_eq_some halloc
      rw [hnew] at hm
      split at hm
      · exact absurd (Option.some.inj hm) (hw k)
      · exact hm
    rcases h.held_or_closed with ⟨hcount, hno⟩ | ⟨hcount, r, hr, howner, honly⟩
    · exact .inl ⟨hcount, fun m k hm => hno m k (hold m k hm)⟩
    · exact .inr ⟨hcount, r, hr, alloc_owner halloc howner, fun m k hm => honly m k (hold m k hm)⟩

theorem close_owner_old {m : Nat} {v : Owner} (hm : (t.close n).owner m = some v) :
    m ≠ n ∧ t.owner m = some v := by
  rw [Descriptors.owner_close] at hm
  split at hm
  · cases hm
  · rename_i hne
    exact ⟨hne, hm⟩

theorem Kept.close (h : Kept t.owner reservfd reserves closes)
    (hn : ∀ k, t.owner n ≠ some (.reserve k)) :
    Kept (t.close n).owner reservfd reserves closes where
  closed := h.closed
  named := h.named
  held_or_closed := by
    rcases h.held_or_closed with ⟨hcount, hno⟩ | ⟨hcount, r, hr, howner, honly⟩
    · exact .inl ⟨hcount, fun m k hm => hno m k (close_owner_old hm).2⟩
    · exact .inr ⟨hcount, r, hr, close_owner howner (hn _),
        fun m k hm => honly m k (close_owner_old hm).2⟩

/-- The reserve is opened when the one before it is closed. -/
theorem Kept.open_reserve (h : Kept t.owner reservfd reserves closes)
    (hcount : reserves = closes.length) (halloc : t.alloc (.reserve reserves) = some (n, t')) :
    Kept t'.owner (some n) (reserves + 1) closes where
  closed := h.closed
  named := h.named
  held_or_closed := by
    obtain ⟨_, _, _, _, howner⟩ := Descriptors.alloc_eq_some halloc
    have hno : ∀ m k, t.owner m ≠ some (.reserve k) := by
      rcases h.held_or_closed with ⟨_, hno⟩ | ⟨hheld, _⟩
      · exact hno
      · omega
    refine .inr ⟨by rw [hcount], n, rfl, ?_, fun m k hm => ?_⟩
    · rw [howner, if_pos rfl, hcount]
    · rw [howner] at hm
      split at hm
      · assumption
      · exact absurd hm (hno m k)

theorem Kept.open_fails (h : Kept t.owner reservfd reserves closes)
    (hcount : reserves = closes.length) : Kept t.owner none reserves closes where
  closed := h.closed
  named := h.named
  held_or_closed := by
    rcases h.held_or_closed with hclosed | ⟨hheld, _⟩
    · exact .inl hclosed
    · omega

/-- The reserve is closed when it is held. -/
theorem Kept.close_reserve (h : Kept t.owner reservfd reserves closes)
    (hcount : reserves = closes.length + 1) :
    Kept (reservfd.elim t t.close).owner reservfd reserves
      (closes ++ [(reservfd, reservfd.bind t.owner)]) := by
  rcases h.held_or_closed with ⟨hclosed, _⟩ | ⟨_, n, rfl, hn, honly⟩
  · omega
  have hlen : (closes ++ [(some n, (some n).bind t.owner)]).length = closes.length + 1 := by
    rw [List.length_append, List.length_singleton]
  refine ⟨?_, ?_, .inl ⟨by rw [hlen, hcount], fun m k hm => ?_⟩⟩
  · rw [hlen, List.range_succ, List.map_append, List.map_append, h.closed]
    show _ ++ [t.owner n] = _
    rw [hn]
    rfl
  · intro c hc
    rcases List.mem_append.mp hc with hold | hnew
    · exact h.named c hold
    · obtain rfl := List.mem_singleton.mp hnew
      exact Option.some_ne_none n
  · obtain ⟨hne, hm⟩ := close_owner_old hm
    exact hne (honly m k hm)

end Table

/-! ## Steps -/

/-- The system calls of a step of the acceptor's thread. -/
def Event.acceptorSys : Event → Option AcceptorSys
  | .acceptor sys => some sys
  | _ => none

/-- In `do_accept`, before `::accept`. -/
def Pc.accepts : Pc → Bool
  | .accepting _ => true
  | _ => false

namespace Server

variable {s s' : Server}

/-- The reserve has been opened once more than closed. -/
def Held (s : Server) : Prop := s.reserves = s.reserveCloses.length + 1

instance (s : Server) : Decidable s.Held := inferInstanceAs (Decidable (_ = _))

/-- `EMFILE` comes when the reserve is open, the connection that it was closed for comes
when it is closed, and the call does not end in between. -/
def Orderly (s : Server) (e : Event) : Prop :=
  ∀ sys ∈ e.acceptorSys,
    (s.pc.accepts → sys.accept = .emfile → s.fds.lowestFree = none → s.Held) ∧
    (s.pc.accepts → sys.accept = .eagain → s.reservfd = none ∨ s.Held) ∧
    (s.pc = .reopening → ¬s.Held)

instance (s : Server) (e : Event) : Decidable (Orderly s e) :=
  inferInstanceAs (Decidable (∀ sys ∈ e.acceptorSys, _))

/-- What is known of the descriptors where the acceptor's thread is. -/
def Place (s : Server) : Pc → Prop
  | .socket => s.reserves = s.reserveCloses.length
  | .openReserve => s.reserves = s.reserveCloses.length
  | .thread _ => s.reservfd = none ∨ s.Held
  | .dup => s.reservfd = none ∨ s.Held
  | .closeNext nextFd =>
    (s.reservfd = none ∨ s.Held) ∧ ∀ n ∈ nextFd, s.fds.owner n = some .next
  | .idle => s.reservfd = none ∨ s.Held
  | .releasing => s.Held
  | _ => True

/-- Every descriptor is where the server thinks it is. -/
structure Balanced (s : Server) : Prop where
  conns : Owned s.fds.owner s.conns
  reserve : Kept s.fds.owner s.reservfd s.reserves s.reserveCloses
  place : s.Place s.pc

theorem Balanced.closed_of_not_held (h : Balanced s) (hheld : ¬s.Held) :
    s.reserves = s.reserveCloses.length := by
  rcases h.reserve.held_or_closed with ⟨hcount, _⟩ | ⟨hcount, _⟩
  · exact hcount
  · exact absurd hcount hheld

theorem Balanced.numbered (h : Balanced s) : Numbered s where
  conns := h.conns
  next n hn := by
    have hplace := h.place
    rw [hn] at hplace
    exact hplace.2 n rfl

/-- What is closed as the reserve is the reserve. -/
theorem Balanced.spares (h : Balanced s) (e : Event) : s.SparesConns e := by
  cases e with
  | acceptor sys =>
    intro hc n hn
    have hplace := h.place
    rw [hc] at hplace
    have hheld : s.reserves = s.reserveCloses.length + 1 := hplace
    rcases h.reserve.held_or_closed with ⟨hcount, _⟩ | ⟨_, m, hm, howner, _⟩
    · omega
    · obtain rfl := Option.some.inj (hm.symm.trans hn)
      rw [howner]
      nofun
  | _ => trivial

/-- What is known of the reserve, and where the acceptor's thread is with it. -/
def Reserved (s : Server) : Prop :=
  Kept s.fds.owner s.reservfd s.reserves s.reserveCloses ∧ s.Place s.pc

/-- `::open` of the reserve, when it is not open. -/
theorem Balanced.openReserve (h : Balanced s) (opens : Bool)
    (hcount : s.reserves = s.reserveCloses.length) {pc : Pc}
    (hplace : ∀ t : Server, t.reservfd = none ∨ t.Held → t.Place pc) :
    Reserved { s.openReserve opens with pc := pc } := by
  rcases openReserve_cases s opens with ⟨n, fds, halloc, hs⟩ | hs
  · rw [hs]
    refine ⟨h.reserve.open_reserve hcount halloc, hplace _ (.inr ?_)⟩
    show s.reserves + 1 = s.reserveCloses.length + 1
    rw [hcount]
  · rw [hs]
    exact ⟨h.reserve.open_fails hcount, hplace _ (.inl rfl)⟩

theorem Balanced.reserved (h : Balanced s) {sys : AcceptorSys}
    (horder : s.Orderly (.acceptor sys)) (hstep : s.acceptor sys = .ok s') : Reserved s' := by
  have hconns := h.conns
  have hreserve := h.reserve
  have hplace := h.place
  obtain ⟨hemfile, heagain, hreopen⟩ := horder sys rfl
  unfold Server.conns at hconns
  cases acceptor_turn hstep with
  | socket hc halloc =>
    rw [hc] at hplace
    exact ⟨hreserve.alloc halloc nofun, hplace⟩
  | openReserve hc =>
    rw [hc] at hplace
    refine h.openReserve sys.opens hplace fun t ht => ?_
    split <;> exact ht
  | thread hc halloc =>
    rw [hc] at hplace
    refine ⟨hreserve.alloc halloc nofun, ?_⟩
    show Place _ (if _ then _ else _)
    split <;> exact hplace
  | dupFails hc _ _ =>
    rw [hc] at hplace
    exact ⟨hreserve, hplace, fun n hn => nomatch hn⟩
  | @dup _ n fds hc halloc _ _ =>
    rw [hc] at hplace
    refine ⟨hreserve.alloc halloc nofun, hplace, fun m hm => ?_⟩
    obtain rfl := Option.some.inj hm
    obtain ⟨_, _, _, _, howner⟩ := Descriptors.alloc_eq_some halloc
    exact (howner n).trans (if_pos rfl)
  | @closeNext nextFd hc =>
    rw [hc] at hplace
    obtain ⟨hheld, hnext⟩ := hplace
    cases nextFd with
    | none => exact ⟨hreserve, hheld⟩
    | some n =>
      refine ⟨hreserve.close fun k => ?_, hheld⟩
      rw [hnext n rfl]
      nofun
  | idle _ | again _ => exact ⟨hreserve, hplace⟩
  | eagain hc hr => exact ⟨hreserve, heagain (by rw [hc]; rfl) hr⟩
  | emfile hc hr hfull =>
    exact ⟨hreserve, hemfile (by rw [hc]; rfl) hr (Option.map_eq_none_iff.mp hfull)⟩
  | releasing hc =>
    rw [hc] at hplace
    exact ⟨hreserve.close_reserve hplace, trivial⟩
  | connFull _ _ halloc | connection _ _ halloc => exact ⟨hreserve.alloc halloc nofun, trivial⟩
  | reject _ _ | take _ _ _ => exact ⟨hreserve, trivial⟩
  | hand _ hhand =>
    rcases handOver_cases hhand with rfl | ⟨workers, i, rfl, _⟩
    · exact ⟨hreserve, trivial⟩
    · exact ⟨hreserve, trivial⟩
  | rejecting hc | discarding hc =>
    rw [hc] at hconns
    refine ⟨hreserve.close fun k => ?_, trivial⟩
    rw [hconns.isConn _ List.mem_cons_self]
    nofun
  | reopening hc =>
    exact h.openReserve sys.opens (h.closed_of_not_held (hreopen hc)) fun _ _ => trivial

/-- Other threads leave the acceptor's thread where it is. -/
theorem place_of_others (hsame : SameServer s s')
    (hnext : ∀ n, s.fds.owner n = some .next → s'.fds.owner n = some .next)
    (hplace : s.Place s.pc) : s'.Place s'.pc := by
  have hcounts : s.reserves = s.reserveCloses.length → s'.reserves = s'.reserveCloses.length := by
    intro hcount
    rw [hsame.reserves, hsame.reserveCloses, hcount]
  have hlacks : s.reservfd = none ∨ s.Held → s'.reservfd = none ∨ s'.Held := by
    intro hlack
    unfold Held at hlack ⊢
    rwa [hsame.reservfd, hsame.reserves, hsame.reserveCloses]
  rcases hsame.pc with hpc | ⟨_, hpc⟩
  · rw [hpc]
    cases hc : s.pc with
    | socket | openReserve =>
      rw [hc] at hplace
      exact hcounts hplace
    | releasing =>
      rw [hc] at hplace
      show s'.reserves = s'.reserveCloses.length + 1
      rw [hsame.reserves, hsame.reserveCloses]
      exact hplace
    | thread _ | dup | idle =>
      rw [hc] at hplace
      exact hlacks hplace
    | closeNext nextFd =>
      rw [hc] at hplace
      exact ⟨hlacks hplace.1, fun n hn => hnext n (hplace.2 n hn)⟩
    | _ => trivial
  · rw [hpc]
    trivial

theorem Balanced.step (h : Balanced s) {e : Event} (horder : s.Orderly e)
    (hstep : s.step e = .ok s') : Balanced s' := by
  have hnumbered := h.numbered.step (h.spares e) hstep
  cases he : e.byAcceptor with
  | true =>
    obtain ⟨sys, rfl⟩ := byAcceptor_eq he
    obtain ⟨hreserve, hplace⟩ := h.reserved horder hstep
    exact ⟨hnumbered.conns, hreserve, hplace⟩
  | false =>
    have hsame := step_sameServer he hstep
    cases step_moves he hstep with
    | keep hfds _ _ _ _ | init hfds _ _ _ _ | dec _ hfds _ _ _ _ =>
      refine ⟨hnumbered.conns, ?_, place_of_others hsame (fun n hn => by rwa [hfds]) h.place⟩
      rw [hfds, hsame.reservfd, hsame.reserves, hsame.reserveCloses]
      exact h.reserve
    | opens halloc hfds _ _ _ _ =>
      refine ⟨hnumbered.conns, ?_, place_of_others hsame (fun n hn => ?_) h.place⟩
      · rw [hfds, hsame.reservfd, hsame.reserves, hsame.reserveCloses]
        exact h.reserve.alloc halloc fun k hk => by cases hk
      · rw [hfds]
        exact alloc_owner halloc hn
    | @close fd hmem hfds _ _ _ _ =>
      have howner := h.conns.isConn fd (List.mem_append_right _ (List.mem_append_right _ hmem))
      refine ⟨hnumbered.conns, ?_, place_of_others hsame (fun n hn => ?_) h.place⟩
      · rw [hfds, hsame.reservfd, hsame.reserves, hsame.reserveCloses]
        refine h.reserve.close fun k heq => ?_
        rw [howner] at heq
        cases heq
      · rw [hfds]
        refine close_owner hn fun heq => ?_
        rw [howner] at heq
        cases heq

/-! ## Runs -/

/-- The reserve is closed and opened as it should be. -/
structure ReserveSafe (s : Server) : Prop where
  /-- what was closed was a descriptor that the acceptor had opened as its reserve -/
  closes_own : ∀ c ∈ s.reserveCloses, ∃ n k, c = (some n, some (.reserve k))
  /-- and none of these twice -/
  closes_once : (s.reserveCloses.map Prod.snd).Nodup
  /-- every reserve is the current one or closed -/
  no_leak : ∀ k < s.reserves,
    (∃ n, s.reservfd = some n ∧ s.fds.owner n = some (.reserve k)) ∨
      some (.reserve k) ∈ s.reserveCloses.map Prod.snd
  /-- outside `do_accept` the reserve is open, unless the last `::open` failed -/
  returned : s.pc = .idle →
    s.reservfd = none ∨ ∃ n k, s.reservfd = some n ∧ s.fds.owner n = some (.reserve k)

theorem Balanced.safe (h : Balanced s) : ReserveSafe s where
  closes_own c hc := by
    obtain ⟨n, hn⟩ := Option.ne_none_iff_exists'.mp (h.reserve.named c hc)
    have hmem := List.mem_map_of_mem (f := Prod.snd) hc
    rw [h.reserve.closed] at hmem
    obtain ⟨k, _, hk⟩ := List.mem_map.mp hmem
    exact ⟨n, k, Prod.ext hn hk.symm⟩
  closes_once := by
    rw [h.reserve.closed]
    refine List.nodup_range.map fun i j hij => ?_
    exact Owner.reserve.inj (Option.some.inj hij)
  no_leak k hk := by
    rw [h.reserve.closed]
    by_cases hclosed : k < s.reserveCloses.length
    · exact .inr (List.mem_map.mpr ⟨k, List.mem_range.mpr hclosed, rfl⟩)
    · rcases h.reserve.held_or_closed with ⟨hcount, _⟩ | ⟨hcount, n, hn, howner, _⟩
      · omega
      · obtain rfl : k = s.reserveCloses.length := by omega
        exact .inl ⟨n, hn, howner⟩
  returned hidle := by
    have hplace := h.place
    rw [hidle] at hplace
    refine hplace.imp_right fun hheld => ?_
    rcases h.reserve.held_or_closed with ⟨hcount, _⟩ | ⟨_, n, hn, howner, _⟩
    · unfold Held at hheld
      omega
    · exact ⟨n, _, hn, howner⟩

theorem start_balanced (limit : Nat) (isOpen : Nat → Bool) (threadCnt : Nat) (maxConns : Int32) :
    Balanced (start limit isOpen threadCnt maxConns) := by
  refine ⟨⟨List.nodup_nil, List.forall_mem_nil _⟩, ⟨rfl, List.forall_mem_nil _, ?_⟩, rfl⟩
  refine .inl ⟨rfl, fun n k howner => ?_⟩
  have howner : (if isOpen n then some Owner.other else none) = some (.reserve k) := howner
  split at howner <;> cases howner

/-- **The reserve.**  In every run in which each `EMFILE` comes when the reserve is open,
each connection that is turned away for it comes when the reserve is closed, and no call of
`do_accept` ends in between, `::close(_reservfd)` closes the reserve, once, every reserve
opened is current or closed, and between two calls the reserve is open unless it could not
be opened. -/
theorem reserve_safe (limit : Nat) (isOpen : Nat → Bool) (threadCnt : Nat) (maxConns : Int32)
    (evs : List Event) (horder : Meets step Orderly (start limit isOpen threadCnt maxConns) evs) :
    Ends (run limit isOpen threadCnt maxConns evs) ReserveSafe (fun _ => True) := by
  have hend : Ends (run limit isOpen threadCnt maxConns evs) Balanced (fun _ => True) := by
    refine Ends.foldlM_meets (fun s e h hc => ?_) evs _
      (start_balanced limit isOpen threadCnt maxConns) horder
    exact .intro (fun s' hs' => h.step hc hs') (fun _ _ => trivial)
  exact hend.imp (fun s h => h.safe) fun _ h => h

/-- The table is full after one connection; the next is turned away. -/
def turnAway : List Event :=
  noThreads ++ takeConnection ++
    [acceptorStep .emfile, acceptorStep .eagain, acceptorStep .connection] ++
    List.replicate 3 (acceptorStep .eagain)

theorem reserve_safe_turnAway : Ends (run 6 (· < 3) 0 3 turnAway) ReserveSafe (fun _ => True) :=
  reserve_safe 6 (· < 3) 0 3 turnAway (by decide +kernel)

/-- The table is full after one connection, and the next does not come before the call ends;
then it gets the number of the reserve, which is closed once more. -/
def lostReserve : List Event :=
  noThreads ++ takeConnection ++
    [acceptorStep .emfile, acceptorStep .eagain, acceptorStep .eagain, .doAccept] ++
    takeConnection ++ [acceptorStep .emfile, acceptorStep .eagain]

theorem reserve_safe_lostReserve :
    ¬ ∀ (limit : Nat) (isOpen : Nat → Bool) (threadCnt : Nat) (maxConns : Int32) (evs : List Event),
      Ends (run limit isOpen threadCnt maxConns evs) ReserveSafe (fun _ => True) := by
  intro hall
  have hobs : (run 6 (· < 3) 0 3 lostReserve).toOption.map reserveCloses =
      some [(some 4, some (.reserve 0)), (some 4, some .conn)] := by decide +kernel
  have hsafe := hall 6 (· < 3) 0 3 lostReserve
  obtain ⟨s, hrun, hcloses⟩ := ok_of_observed hobs
  -- the second close is that of a connection
  obtain ⟨n, k, hclose⟩ := (hsafe.of_ok hrun).closes_own (some 4, some .conn)
    (by rw [hcloses]; exact List.mem_cons_of_mem _ List.mem_cons_self)
  cases hclose

end Server

end EasyReactor.Acceptor
