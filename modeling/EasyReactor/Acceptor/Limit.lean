import EasyReactor.Acceptor.Range

set_option autoImplicit false

/-!
# Acceptor: the connection limit

`do_accept` compares `_curr_conns` with `_max_conns`, but `_curr_conns` is raised by
the worker, when it gets to the `NEW_CONN` message.  The acceptor does not see how many
messages are waiting.  As long as the connections have different numbers from `next_fd`
on, the assertion on the number keeps them within the limit; when the number of a lost
reserve is given to a connection, nothing does.
-/

namespace EasyReactor.Acceptor

open EasyReactor.Foundation EasyReactor.Loop EasyReactor.Thread

/-- The connection that is about to be handed over. -/
def Pc.hands : Pc → Option Nat
  | .handing connfd => some connfd
  | _ => none

namespace Server

variable {s s' : Server}

/-- The connections handed over and not given back by `clean_conn`. -/
def live (s : Server) : List Nat := s.waiting ++ s.counted

/-- There is room for one more connection, the messages waiting taken into account. -/
def HasRoom (s : Server) : Prop := (s.waiting.length : Int) + s.currConns < s.maxConns.toInt

/-- The connections have different numbers, none below the `next_fd` of the constructor. -/
def Regular (s : Server) (conns : List Nat) : Prop :=
  conns.Nodup ∧ ∀ fd ∈ conns, s.connsSize - s.maxConns.toInt ≤ fd

/-- A connection is handed over when there is room, or when it and the live ones are
regular.  Regular numbers in the table leave room (`LimitInv.hasRoom`), so that `HasRoom`
alone asks for no more; it is what the count gives, the other what the numbers give. -/
def HandsWithin (s : Server) (e : Event) : Prop :=
  e.byAcceptor → ∀ connfd ∈ s.pc.hands, s.HasRoom ∨ s.Regular (connfd :: s.live)

instance (s : Server) : Decidable s.HasRoom := inferInstanceAs (Decidable (_ < _))

instance (s : Server) (conns : List Nat) : Decidable (s.Regular conns) :=
  inferInstanceAs (Decidable (_ ∧ _))

instance (s : Server) (e : Event) : Decidable (HandsWithin s e) :=
  inferInstanceAs (Decidable (_ → _))

/-- The number of live connections, and how the code counts them. -/
structure LimitInv (maxConns : Int32) (s : Server) : Prop where
  maxConns_eq : s.maxConns = maxConns
  count : s.currConns = s.counted.length
  within : (s.waiting.length : Int) + s.counted.length ≤ maxConns.toInt

theorem LimitInv.sameConns {m : Int32} (h : LimitInv m s) (hs : SameConns s s') :
    LimitInv m s' where
  maxConns_eq := hs.maxConns.trans h.maxConns_eq
  count := by rw [hs.currConns, hs.counted, h.count]
  within := by
    rw [hs.waiting, hs.counted]
    exact h.within

/-- A step of another thread makes no connection live. -/
theorem LimitInv.moves {m : Int32} (h : LimitInv m s) (hmax : s'.maxConns = s.maxConns)
    (hmoves : Moves s s') : LimitInv m s' := by
  have hmax := hmax.trans h.maxConns_eq
  have hcount := h.count
  have hwithin := h.within
  cases hmoves with
  | keep _ hwait hcounted _ hcurr | opens _ _ hwait hcounted _ hcurr =>
    have hlen := hwait.length_eq
    refine ⟨hmax, by rw [hcurr, hcounted, hcount], ?_⟩
    rw [hcounted]
    omega
  | init _ hwait hcounted _ hcurr =>
    -- one connection less waits, one more is counted
    have hlen := hwait.length_eq
    rw [List.length_cons] at hlen
    have hcounted := congrArg List.length hcounted
    rw [List.length_append, List.length_singleton] at hcounted
    exact ⟨hmax, by omega, by omega⟩
  | dec hmem _ hwait hcounted _ hcurr =>
    have hlen := List.length_erase_of_mem hmem
    have hpos := List.length_pos_of_mem hmem
    refine ⟨hmax, ?_, ?_⟩
    · rw [hcurr, hcounted]
      omega
    · rw [hwait, hcounted]
      omega
  | close _ _ hwait hcounted _ hcurr =>
    refine ⟨hmax, by rw [hcurr, hcounted, hcount], ?_⟩
    rw [hwait, hcounted]
    exact hwithin

theorem LimitInv.handOver {m : Int32} (h : LimitInv m s) {connfd : Nat}
    (hroom : s.HasRoom) (hhand : s.handOver connfd = .ok s') : LimitInv m s' := by
  have hcount := h.count
  have hmax := h.maxConns_eq
  unfold HasRoom at hroom
  rcases handOver_cases hhand with hs' | ⟨workers, i, hs', hperm⟩
  · have hcounted : s'.counted.length = s.counted.length + 1 := by
      rw [hs', List.length_append, List.length_singleton]
    have hwait : s'.waiting = s.waiting := by rw [hs']; rfl
    refine ⟨by rw [hs', ← hmax], ?_, ?_⟩
    · rw [hcounted, hs', hcount]
      rfl
    · rw [hcounted, hwait, ← hmax]
      omega
  · have hcounted : s'.counted = s.counted := by rw [hs']
    have hwait := hperm.length_eq
    rw [List.length_cons] at hwait
    refine ⟨by rw [hs', ← hmax], ?_, ?_⟩
    · rw [hcounted, hs', hcount]
    · rw [hcounted, ← hmax]
      omega

/-- Connections with regular numbers in range leave room for the one among them that has
not been handed over. -/
theorem LimitInv.hasRoom {m : Int32} (h : LimitInv m s) (htable : InTable s) {connfd : Nat}
    (hpc : s.pc = .handing connfd) (hmax : 1 ≤ m.toInt)
    (hregular : s.Regular (connfd :: s.live)) : s.HasRoom := by
  obtain ⟨hnodup, hlow⟩ := hregular
  have hplace := htable.place
  rw [hpc] at hplace
  have hrange : ∀ fd ∈ connfd :: s.live, (fd : Int) < s.connsSize := by
    intro fd hfd
    rcases List.mem_cons.mp hfd with rfl | hfd
    · exact hplace
    · exact htable.conns fd hfd
  have hwindow : ∀ fd ∈ connfd :: s.live, s.connsSize - s.maxConns.toInt ≤ fd ∧
      (fd : Int) < s.connsSize - s.maxConns.toInt + s.maxConns.toInt.toNat := by
    intro fd hfd
    have hlt := hrange fd hfd
    refine ⟨hlow fd hfd, ?_⟩
    rw [h.maxConns_eq]
    omega
  have hlen := length_le_of_window hnodup hwindow
  rw [List.length_cons, live, List.length_append] at hlen
  unfold HasRoom
  rw [h.count]
  rw [h.maxConns_eq] at hlen ⊢
  omega

/-- A step of any thread keeps the limit. -/
theorem LimitInv.step {m : Int32} (h : LimitInv m s) (htable : InTable s) (hmax : 1 ≤ m.toInt)
    {e : Event} (hroom : HandsWithin s e) (hstep : s.step e = .ok s') : LimitInv m s' := by
  cases he : e.byAcceptor with
  | true =>
    obtain ⟨sys, rfl⟩ := byAcceptor_eq he
    by_cases hpc : ∃ connfd, s.pc = .handing connfd
    · obtain ⟨connfd, hpc⟩ := hpc
      obtain ⟨s₁, hhand, rfl⟩ := acceptor_handing hpc hstep
      have hfits : s.HasRoom := by
        rcases hroom rfl connfd (by rw [hpc]; rfl) with hroom | hregular
        · exact hroom
        · exact h.hasRoom htable hpc hmax hregular
      have h₁ := h.handOver hfits hhand
      exact ⟨h₁.maxConns_eq, h₁.count, h₁.within⟩
    · exact h.sameConns ((acceptor_turn hstep).sameConns fun connfd hc => hpc ⟨connfd, hc⟩)
  | false => exact h.moves (step_sameServer he hstep).maxConns (step_moves he hstep)

/-- **The connection limit.**  In every run in which each connection is handed over when
there is room, the messages waiting taken into account, or when its number and those of the
live connections are different and from `next_fd` on, the connections handed over and not
given back are never more than `_max_conns`, and neither is `_curr_conns`. -/
theorem connection_limit (limit : Nat) (isOpen : Nat → Bool) (threadCnt : Nat)
    (maxConns : Int32) (hmax : 1 ≤ maxConns.toInt) (evs : List Event)
    (hhands : Meets step HandsWithin (start limit isOpen threadCnt maxConns) evs) :
    Ends (run limit isOpen threadCnt maxConns evs)
      (fun s => (s.live.length : Int) ≤ maxConns.toInt ∧ s.currConns ≤ maxConns.toInt)
      (fun _ => True) := by
  have hstart : InTable (start limit isOpen threadCnt maxConns) ∧
      LimitInv maxConns (start limit isOpen threadCnt maxConns) := by
    refine ⟨⟨rfl, List.forall_mem_nil _⟩, rfl, rfl, ?_⟩
    show ((0 : Nat) : Int) + (0 : Nat) ≤ maxConns.toInt
    omega
  have hend : Ends (run limit isOpen threadCnt maxConns evs)
      (fun s => InTable s ∧ LimitInv maxConns s) (fun _ => True) := by
    refine Ends.foldlM_meets (fun s e h hc => ?_) evs _ hstart hhands
    refine .intro (fun s' hs' => ?_) (fun _ _ => trivial)
    exact ⟨h.1.step hs', h.2.step h.1 hmax hc hs'⟩
  refine hend.imp (fun s h => ?_) fun _ h => h
  have hwithin := h.2.within
  have hcount := h.2.count
  rw [live, List.length_append]
  omega

theorem connection_limit_oneThread :
    Ends (run 20 (· < 3) 1 1 (oneThread ++ takeConnection ++ serve 8 ++ takeConnection))
      (fun s => (s.live.length : Int) ≤ (1 : Int32).toInt ∧ s.currConns ≤ (1 : Int32).toInt)
      (fun _ => True) :=
  connection_limit 20 (· < 3) 1 1 (by decide) _ (by decide +kernel)

/-- A connection is handed over; descriptors run out, the reserve is closed and not opened
again, and the next connection gets its number before the worker has seen the first. -/
def burst : List Event :=
  oneThread ++ takeConnection ++
    [acceptorStep .emfile, acceptorStep .eagain, acceptorStep .eagain, .doAccept] ++
    takeConnection

theorem connection_limit_burst :
    ¬ ∀ (limit : Nat) (isOpen : Nat → Bool) (threadCnt : Nat) (maxConns : Int32) (evs : List Event),
      1 ≤ threadCnt → 1 ≤ maxConns.toInt →
        Ends (run limit isOpen threadCnt maxConns evs)
          (fun s => (s.live.length : Int) ≤ maxConns.toInt ∧ s.currConns ≤ maxConns.toInt)
          (fun _ => True) := by
  intro hall
  have hobs : (run 9 (· < 3) 1 1 burst).toOption.map live = some [8, 4] := by decide +kernel
  have hlimit := hall 9 (· < 3) 1 1 burst (by decide) (by decide)
  obtain ⟨s, hrun, hlive⟩ := ok_of_observed hobs
  have hle := (hlimit.of_ok hrun).1
  rw [hlive] at hle
  exact absurd hle (by decide)

end Server

end EasyReactor.Acceptor
