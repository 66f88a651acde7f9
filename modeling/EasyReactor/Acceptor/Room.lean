import EasyReactor.Acceptor.Numbers

set_option autoImplicit false

/-!
# Acceptor: room for a connection's number

`_conns_size = _max_conns + next_fd` counts on the numbers below `next_fd` to be taken by
others, and on the `_max_conns` numbers from there on for connections.  The second half is
off by what else has them: what was open above `next_fd` when the server was constructed,
what the threads open afterwards, and the connections that `_curr_conns` does not count.
-/

namespace EasyReactor.Acceptor

open EasyReactor.Foundation EasyReactor.Loop EasyReactor.Thread

/-- The connection that is about to be checked. -/
def Pc.checks : Pc → Option Nat
  | .accepted connfd => some connfd
  | _ => none

/-- Counting by a second predicate. -/
theorem countP_split {α : Type} (p q : α → Bool) (l : List α) :
    l.countP p = l.countP (fun a => p a && q a) + l.countP (fun a => p a && !q a) := by
  rw [List.countP_eq_countP_filter_add l p q, List.countP_filter, List.countP_filter]

/-- The numbers below `k` among the first `m`. -/
theorem countP_lt_range (k m : Nat) : (List.range m).countP (· < k) = min k m := by
  induction m with
  | zero => simp
  | succ m ih =>
    rw [List.range_succ, List.countP_append, ih, List.countP_singleton]
    split
    · rename_i hlt
      have hlt := of_decide_eq_true hlt
      omega
    · rename_i hge
      have hge := of_decide_eq_false (Bool.eq_false_iff.mpr hge)
      omega

namespace Server

variable {s s' : Server}

/-! ## What is counted -/

/-- Descriptor `n` is open, and no connection's. -/
def foreign (s : Server) (n : Nat) : Bool :=
  match s.fds.owner n with
  | none => false
  | some .conn => false
  | some _ => true

/-- What `::dup` returned in the constructor. -/
def nextFd (s : Server) : Int := s.connsSize - s.maxConns.toInt

/-- The numbers of the table that were counted on for connections and were open when the
server was constructed. -/
def gaps (isOpen : Nat → Bool) (s : Server) : Nat :=
  (List.range s.connsSize.toNat).countP fun n => s.nextFd.toNat ≤ n && isOpen n

/-- Those that something else than a connection has got since: a worker, which opens its
epoll fd and its timerfd after `::dup`, or the reserve, when it is opened again. -/
def late (isOpen : Nat → Bool) (s : Server) : Nat :=
  (List.range s.connsSize.toNat).countP fun n => s.nextFd.toNat ≤ n && s.foreign n && !isOpen n

/-- The numbers below `next_fd` that have been given back: that of a reserve. -/
def vacated (s : Server) : Nat :=
  (List.range s.connsSize.toNat).countP fun n => n < s.nextFd.toNat && !s.foreign n

/-- `next_fd` is `-1` when `::dup` fails, and the table is one entry short. -/
def short (s : Server) : Nat := (-s.nextFd).toNat

/-- The connections handed over and not closed: those that wait for a worker, those that are
initialised, and those between `dec_conn` and `::close`. -/
def unclosed (s : Server) : Nat := s.waiting.length + s.counted.length + s.closing.length

/-- There is room for the number of one more connection. -/
def Room (isOpen : Nat → Bool) (s : Server) : Prop :=
  ((s.unclosed + s.gaps isOpen + s.late isOpen + s.short : Nat) : Int) <
    s.maxConns.toInt + s.vacated

instance (isOpen : Nat → Bool) (s : Server) : Decidable (s.Room isOpen) :=
  inferInstanceAs (Decidable (_ < _))

/-! ## Counting -/

/-- A number of the table is a connection's, or somebody else's: below `next_fd`, where all
but the vacated ones are, or from there on. -/
theorem crowd_add_vacated (s : Server) :
    s.fds.crowd s.connsSize.toNat + s.vacated =
      (List.range s.connsSize.toNat).countP (fun n => s.fds.owner n == some .conn) +
        (List.range s.connsSize.toNat).countP (fun n => s.nextFd.toNat ≤ n && s.foreign n) +
        min s.nextFd.toNat s.connsSize.toNat := by
  unfold Descriptors.crowd vacated
  generalize s.nextFd.toNat = k
  generalize hl : List.range s.connsSize.toNat = l
  have hcrowd := countP_split (fun n => (s.fds.owner n).isSome) s.foreign l
  have hforeign := countP_split s.foreign (fun n => decide (n < k)) l
  have hlow := countP_split (fun n => decide (n < k)) s.foreign l
  have hmin := countP_lt_range k s.connsSize.toNat
  rw [hl] at hmin
  have hconn : l.countP (fun n => (s.fds.owner n).isSome && !s.foreign n) =
      l.countP (fun n => s.fds.owner n == some .conn) := by
    refine List.countP_congr fun n _ => ?_
    unfold foreign
    split <;> simp_all
  have hother : l.countP (fun n => (s.fds.owner n).isSome && s.foreign n) =
      l.countP s.foreign := by
    refine List.countP_congr fun n _ => ?_
    unfold foreign
    split <;> simp_all
  have hbelow : l.countP (fun n => s.foreign n && decide (n < k)) =
      l.countP (fun n => decide (n < k) && s.foreign n) := by
    refine List.countP_congr fun n _ => ?_
    rw [Bool.and_comm]
  have habove : l.countP (fun n => s.foreign n && !decide (n < k)) =
      l.countP (fun n => decide (k ≤ n) && s.foreign n) := by
    refine List.countP_congr fun n _ => ?_
    rw [Bool.and_comm, ← decide_not]
    simp only [Nat.not_lt]
  omega

/-- What has the numbers from `next_fd` on and is no connection was there at construction, or
has come later. -/
theorem strays_le (isOpen : Nat → Bool) (s : Server) :
    (List.range s.connsSize.toNat).countP (fun n => s.nextFd.toNat ≤ n && s.foreign n) ≤
      s.gaps isOpen + s.late isOpen := by
  have hsplit := countP_split (fun n => decide (s.nextFd.toNat ≤ n) && s.foreign n) isOpen
    (List.range s.connsSize.toNat)
  have hgaps : (List.range s.connsSize.toNat).countP
      (fun n => decide (s.nextFd.toNat ≤ n) && s.foreign n && isOpen n) ≤ s.gaps isOpen := by
    refine List.countP_mono_left fun n _ hn => ?_
    simp only [Bool.and_eq_true] at hn ⊢
    exact ⟨hn.1.1, hn.2⟩
  unfold late
  omega

/-! ## Every connection's descriptor is known -/

/-- No descriptor is a connection's, but those of the connections that are not closed. -/
def Complete (s : Server) : Prop := ∀ n, s.fds.owner n = some .conn → n ∈ s.conns

theorem alloc_owner_conn {t t' : Descriptors Owner} {n m : Nat} {w : Owner}
    (halloc : t.alloc w = some (n, t')) (hw : w ≠ .conn) (hm : t'.owner m = some .conn) :
    t.owner m = some .conn := by
  obtain ⟨_, _, _, _, howner⟩ := Descriptors.alloc_eq_some halloc
  rw [howner] at hm
  split at hm
  · exact absurd (Option.some.inj hm) hw
  · exact hm

theorem close_owner_conn {t : Descriptors Owner} {n m : Nat}
    (hm : (t.close n).owner m = some .conn) : m ≠ n ∧ t.owner m = some .conn := by
  rw [Descriptors.owner_close] at hm
  split at hm
  · cases hm
  · rename_i hne
    exact ⟨hne, hm⟩

/-- A step that opens no connection and loses none. -/
theorem Complete.keep (h : Complete s)
    (hfds : ∀ n, s'.fds.owner n = some .conn → s.fds.owner n = some .conn)
    (hconns : s.conns ⊆ s'.conns) : Complete s' :=
  fun n hn => hconns (h n (hfds n hn))

theorem Complete.openReserve (h : Complete s) (opens : Bool) {pc : Pc}
    (hpc : pc.conns = s.pc.conns) : Complete { s.openReserve opens with pc := pc } := by
  rcases openReserve_cases s opens with ⟨n, fds, halloc, hs⟩ | hs
  · rw [hs]
    refine h.keep (fun m hm => alloc_owner_conn halloc (by simp) hm) ?_
    unfold Server.conns
    rw [hpc]
    exact fun _ hn => hn
  · rw [hs]
    refine h.keep (fun m hm => hm) ?_
    unfold Server.conns
    rw [hpc]
    exact fun _ hn => hn

/-- The connection that is closed is the one in hand. -/
theorem Complete.close (h : Complete s) {n : Nat} (hpc : s.pc.conns = [n]) {pc : Pc} :
    Complete { s with fds := s.fds.close n, pc := pc } := by
  intro m hm
  obtain ⟨hne, hm⟩ := close_owner_conn hm
  have hmem := h m hm
  unfold Server.conns at hmem
  rw [hpc] at hmem
  rcases List.mem_append.mp hmem with hhand | hrest
  · exact absurd (List.mem_singleton.mp hhand) hne
  · exact List.mem_append_right _ hrest

/-- The connection that is accepted is in hand. -/
theorem Complete.accept (h : Complete s) {n : Nat} {fds : Descriptors Owner}
    (halloc : s.fds.alloc .conn = some (n, fds)) (hpc : s.pc.conns = []) {pc : Pc}
    (hnew : pc.conns = [n]) : Complete { s with fds := fds, pc := pc } := by
  intro m hm
  obtain ⟨_, _, _, _, howner⟩ := Descriptors.alloc_eq_some halloc
  rw [howner] at hm
  unfold Server.conns
  rw [hnew]
  split at hm
  · rename_i heq
    exact List.mem_append_left _ (List.mem_singleton.mpr heq)
  · have hmem := h m hm
    unfold Server.conns at hmem
    rw [hpc] at hmem
    exact List.mem_append_right _ hmem

theorem Complete.acceptor (h : Complete s) {sys : AcceptorSys} (hstep : s.acceptor sys = .ok s') :
    Complete s' := by
  have hconns : s.conns = s.pc.conns ++ (s.waiting ++ s.counted ++ s.closing) := rfl
  cases acceptor_turn hstep with
  | socket hc halloc | dup hc halloc _ _ =>
    refine h.keep (fun m hm => alloc_owner_conn halloc (by simp) hm) ?_
    rw [hconns, hc]
    exact fun _ hn => hn
  | openReserve hc =>
    refine h.openReserve sys.opens ?_
    rw [hc]
    split <;> rfl
  | @thread i n fds hc halloc =>
    have hsame := (acceptor_turn hstep).sameConns (by rw [hc]; intro _ hn; cases hn)
    refine h.keep (fun m hm => alloc_owner_conn halloc (by simp) hm) ?_
    rw [hconns, hc, Server.conns, hsame.waiting, hsame.counted, hsame.closing]
    exact fun _ hn => List.mem_append_right _ hn
  | dupFails hc _ _ | eagain hc _ | emfile hc _ _ | reject hc _ | take hc _ _ =>
    refine h.keep (fun m hm => hm) ?_
    rw [hconns, hc]
    exact fun _ hn => hn
  | @closeNext nextFd hc =>
    refine h.keep (fun m hm => ?_) ?_
    · cases nextFd with
      | none => exact hm
      | some n => exact (close_owner_conn hm).2
    · rw [hconns, hc]
      exact fun _ hn => hn
  | idle _ | again _ => exact h
  | releasing hc =>
    refine h.keep (fun m hm => ?_) ?_
    · unfold closeReserve at hm
      cases hr : s.reservfd with
      | none =>
        rw [hr] at hm
        exact hm
      | some n =>
        rw [hr] at hm
        exact (close_owner_conn hm).2
    · rw [hconns, hc]
      exact fun _ hn => hn
  | connFull hc _ halloc | connection hc _ halloc =>
    exact h.accept halloc (by rw [hc]; rfl) rfl
  | hand hc hhand =>
    rcases handOver_cases hhand with rfl | ⟨workers, i, rfl, hperm⟩
    · refine h.keep (fun m hm => hm) fun m hm => ?_
      rw [hconns, hc] at hm
      simp only [Server.conns, Pc.conns, Server.waiting, List.mem_append, List.mem_singleton,
        List.not_mem_nil, false_or] at hm ⊢
      tauto
    · refine h.keep (fun m hm => hm) fun m hm => ?_
      have hmem := hperm.mem_iff (a := m)
      rw [hconns, hc] at hm
      simp only [Server.conns, Pc.conns, List.mem_append, List.mem_cons, List.not_mem_nil,
        or_false, false_or] at hm hmem ⊢
      tauto
  | rejecting hc | discarding hc => exact h.close (by rw [hc]; rfl)
  | reopening hc => exact h.openReserve sys.opens (by rw [hc]; rfl)

/-- A step of any thread loses no connection. -/
theorem Complete.step (h : Complete s) {e : Event} (hstep : s.step e = .ok s') : Complete s' := by
  cases he : e.byAcceptor with
  | true =>
    obtain ⟨sys, rfl⟩ := byAcceptor_eq he
    exact h.acceptor hstep
  | false =>
    have hsame := step_sameServer he hstep
    have hpc := pc_conns_of_others hsame
    have hold : ∀ m, s.fds.owner m = some .conn →
        m ∈ s.pc.conns ∨ m ∈ s.waiting ∨ m ∈ s.counted ∨ m ∈ s.closing := by
      intro m hm
      have hmem := h m hm
      simp only [Server.conns, List.mem_append] at hmem
      tauto
    intro m hm
    simp only [Server.conns, List.mem_append, hpc]
    cases step_moves he hstep with
    | keep hfds hwait hcount hclose _ =>
      rw [hfds] at hm
      have hmem := hold m hm
      rw [hcount, hclose, hwait.mem_iff]
      tauto
    | opens halloc hfds hwait hcount hclose _ =>
      rw [hfds] at hm
      have hmem := hold m (alloc_owner_conn halloc (by simp) hm)
      rw [hcount, hclose, hwait.mem_iff]
      tauto
    | init hfds hwait hcount hclose _ =>
      rw [hfds] at hm
      have hmem := hold m hm
      have hwait := hwait.mem_iff (a := m)
      rw [List.mem_cons] at hwait
      rw [hcount, hclose, List.mem_append, List.mem_singleton]
      tauto
    | dec hin hfds hwait hcount hclose _ =>
      rw [hfds] at hm
      have hmem := hold m hm
      have herase := (List.perm_cons_erase hin).mem_iff (a := m)
      rw [List.mem_cons] at herase
      rw [hwait, hcount, hclose, List.mem_append, List.mem_singleton]
      tauto
    | @close fd hin hfds hwait hcount hclose _ =>
      rw [hfds] at hm
      obtain ⟨hne, hm⟩ := close_owner_conn hm
      have hmem := hold m hm
      have herase := (List.perm_cons_erase hin).mem_iff (a := m)
      rw [List.mem_cons] at herase
      rw [hwait, hcount, hclose]
      tauto

theorem start_complete (limit : Nat) (isOpen : Nat → Bool) (threadCnt : Nat) (maxConns : Int32) :
    Complete (start limit isOpen threadCnt maxConns) := by
  intro n hn
  simp only [start] at hn
  split at hn <;> cases hn

/-! ## The number of the next connection -/

/-- The descriptors of connections in the table. -/
def held (s : Server) : List Nat :=
  (List.range s.connsSize.toNat).filter fun n => s.fds.owner n == some .conn

theorem held_nodup (s : Server) : s.held.Nodup := List.nodup_range.filter _

theorem conns_length (hpc : s.pc.conns = []) : s.conns.length = s.unclosed := by
  unfold Server.conns unclosed
  rw [hpc]
  simp only [List.nil_append, List.length_append]

/-- With room for one more number, one of the table is free. -/
theorem Complete.crowd_lt (h : Complete s) (hpc : s.pc.conns = []) {isOpen : Nat → Bool}
    (hroom : s.Room isOpen) : s.fds.crowd s.connsSize.toNat < s.connsSize.toNat := by
  have hheld : s.held.length ≤ s.unclosed := by
    rw [← conns_length hpc]
    refine (List.subperm_of_subset s.held_nodup fun n hn => ?_).length_le
    exact h n (beq_iff_eq.mp (List.mem_filter.mp hn).2)
  have hcount := s.crowd_add_vacated
  have hstrays := s.strays_le isOpen
  rw [List.countP_eq_length_filter] at hcount
  unfold held at hheld
  unfold Room short at hroom
  unfold nextFd at hcount hroom hstrays
  omega

/-- The count is exact: as long as the connections that are not closed have different
descriptors in the table and what was open at construction still is, `::accept` returns a
number in the table exactly when there is room. -/
theorem room_iff (h : Complete s) (hpc : s.pc.conns = []) (howned : Owned s.fds.owner s.conns)
    (htable : ∀ fd ∈ s.conns, (fd : Int) < s.connsSize) (hmax : 0 ≤ s.maxConns.toInt)
    (hsize : 0 ≤ s.connsSize) {isOpen : Nat → Bool} (hkept : ∀ n, isOpen n → s.foreign n)
    {n : Nat} {fds : Descriptors Owner} (halloc : s.fds.alloc .conn = some (n, fds)) :
    s.Room isOpen ↔ (n : Int) < s.connsSize := by
  have hiff := Descriptors.alloc_lt_iff halloc s.connsSize.toNat
  have hheld : s.unclosed ≤ s.held.length := by
    rw [← conns_length hpc]
    refine (List.subperm_of_subset howned.nodup fun n hn => ?_).length_le
    have hlt := htable n hn
    exact List.mem_filter.mpr
      ⟨List.mem_range.mpr (by omega), beq_iff_eq.mpr (howned.isConn n hn)⟩
  have hstrays : (List.range s.connsSize.toNat).countP
      (fun n => s.nextFd.toNat ≤ n && s.foreign n) = s.gaps isOpen + s.late isOpen := by
    rw [countP_split _ isOpen]
    congr 1
    refine List.countP_congr fun n _ => ?_
    have hkept := hkept n
    simp only [Bool.and_eq_true]
    tauto
  constructor
  · intro hroom
    have hlt := hiff.mpr (h.crowd_lt hpc hroom)
    omega
  · intro hlt
    have hcrowd := hiff.mp (by omega)
    have hcount := s.crowd_add_vacated
    rw [List.countP_eq_length_filter, hstrays] at hcount
    unfold held at hheld
    unfold Room short
    unfold nextFd at hcount ⊢
    omega

/-! ## Runs -/

/-- What is remembered beside a run: the state in which `::accept` was called last. -/
def lastAccept (s chose : Server) : Server :=
  match s.pc with
  | .accepting _ => s
  | _ => chose

/-- When the acceptor sees `curr_conns < _max_conns`, there was room for the number of the
connection that it has in hand. -/
def SeesRoom (isOpen : Nat → Bool) (w : Server × Server) (e : Event) : Prop :=
  e.byAcceptor → w.1.pc.checks.isSome → w.1.currConns < w.1.maxConns.toInt → w.2.Room isOpen

instance (isOpen : Nat → Bool) (w : Server × Server) (e : Event) :
    Decidable (SeesRoom isOpen w e) :=
  inferInstanceAs (Decidable (_ → _))

/-- What is known of the connection in hand in the state in which it was accepted. -/
structure Chosen (connsSize : Int) (connfd : Nat) (chose : Server) : Prop where
  complete : Complete chose
  conns : chose.pc.conns = []
  size : chose.connsSize = connsSize
  alloc : ∃ fds, chose.fds.alloc .conn = some (connfd, fds)

/-- Everything that holds of a run and its memory. -/
structure Placed (limit : Nat) (maxConns : Int32) (w : Server × Server) : Prop where
  ranged : Ranged limit maxConns w.1
  complete : Complete w.1
  chosen : ∀ connfd, w.1.pc = .accepted connfd → Chosen w.1.connsSize connfd w.2

/-- The connection is accepted in this step, or the memory stays. -/
theorem Placed.chosen_step {limit : Nat} {m : Int32} {w : Server × Server}
    (h : Placed limit m w) {e : Event} (hstep : w.1.step e = .ok s') {connfd : Nat}
    (hpc : s'.pc = .accepted connfd) :
    Chosen s'.connsSize connfd (lastAccept w.1 w.2) := by
  cases he : e.byAcceptor with
  | true =>
    obtain ⟨sys, rfl⟩ := byAcceptor_eq he
    cases acceptor_turn hstep with
    | connection hc _ halloc =>
      obtain rfl := Pc.accepted.inj hpc
      unfold lastAccept
      rw [hc]
      exact ⟨h.complete, by rw [hc]; rfl, rfl, _, halloc⟩
    | openReserve _ | thread _ _ =>
      dsimp only at hpc
      split at hpc <;> cases hpc
    | idle hc | again hc =>
      rw [hpc] at hc
      cases hc
    | _ => cases hpc
  | false =>
    have hsame := step_sameServer he hstep
    rcases hsame.pc with hold | ⟨_, hnew⟩
    · rw [hpc] at hold
      have hchosen := h.chosen connfd hold.symm
      unfold lastAccept
      rw [← hold, hsame.connsSize]
      exact hchosen
    · rw [hpc] at hnew
      cases hnew

theorem Placed.step {limit : Nat} {m : Int32} {w : Server × Server} (h : Placed limit m w)
    {e : Event} (hstep : w.1.step e = .ok s') : Placed limit m (s', lastAccept w.1 w.2) where
  ranged := h.ranged.step hstep
  complete := h.complete.step hstep
  chosen _ hpc := h.chosen_step hstep hpc

/-- The connection that passes the check on `_curr_conns` is in range, if there was room. -/
theorem Placed.low {isOpen : Nat → Bool} {limit : Nat} {m : Int32} {w : Server × Server}
    (h : Placed limit m w) {e : Event} (he : e.byAcceptor) (hsees : SeesRoom isOpen w e)
    (connfd : Nat) (hpc : w.1.pc = .accepted connfd)
    (hcurr : w.1.currConns < w.1.maxConns.toInt) : (connfd : Int) < w.1.connsSize := by
  have hroom := hsees he (by rw [hpc]; rfl) hcurr
  obtain ⟨hcomplete, hconns, hsize, fds, halloc⟩ := h.chosen connfd hpc
  have hlt := (Descriptors.alloc_lt_iff halloc _).mpr (hcomplete.crowd_lt hconns hroom)
  rw [← hsize]
  omega

/-- **The connection table's index.**  In every run in which, whenever `do_accept` sees
`curr_conns < _max_conns`, there was room for one more connection's number when `::accept`
chose it, the assertion never fails and every connection that is handed over, waits or has
been initialised is below `_conns_size`. -/
theorem index_in_range (limit : Nat) (isOpen : Nat → Bool) (threadCnt : Nat) (maxConns : Int32)
    (evs : List Event)
    (hroom : Meets (remembering step lastAccept) (SeesRoom isOpen)
      (start limit isOpen threadCnt maxConns, start limit isOpen threadCnt maxConns) evs) :
    Ends (run limit isOpen threadCnt maxConns evs)
      (fun s => (∀ connfd, s.pc = .handing connfd → (connfd : Int) < s.connsSize) ∧
        ∀ fd ∈ s.waiting ++ s.counted, (fd : Int) < s.connsSize)
      (fun f => f = .exit ∨ f = .undefined ∧ SizeOverflows limit maxConns) := by
  have hstart : Placed limit maxConns
      (start limit isOpen threadCnt maxConns, start limit isOpen threadCnt maxConns) :=
    ⟨⟨⟨rfl, List.forall_mem_nil _⟩, ⟨rfl, Nat.zero_le _⟩, rfl, rfl⟩,
      start_complete limit isOpen threadCnt maxConns, fun _ hpc => by cases hpc⟩
  have hend : Ends (run limit isOpen threadCnt maxConns evs)
      (fun s => ∃ chose, Placed limit maxConns (s, chose))
      (fun f => f = .exit ∨ f = .undefined ∧ SizeOverflows limit maxConns) := by
    refine Ends.foldlM_remembering (fun w e h hc => ?_) evs _ hstart hroom
    exact .intro (fun s' hs' => h.step hs') (fun f hf => h.ranged.fault (h.low · hc) hf)
  refine hend.imp (fun s h => ⟨fun connfd hpc => ?_, ?_⟩) fun _ h => h
  · obtain ⟨chose, h⟩ := h
    have hplace := h.ranged.table.place
    rwa [hpc] at hplace
  · obtain ⟨chose, h⟩ := h
    exact h.ranged.table.conns

theorem index_in_range_oneThread :
    Ends (run 20 (· < 3) 1 1 (oneThread ++ takeConnection ++ serve 8 ++ takeConnection))
      (fun s => (∀ connfd, s.pc = .handing connfd → (connfd : Int) < s.connsSize) ∧
        ∀ fd ∈ s.waiting ++ s.counted, (fd : Int) < s.connsSize)
      (fun f => f = .exit ∨ f = .undefined ∧ SizeOverflows 20 1) :=
  index_in_range 20 (· < 3) 1 1 _ (by decide +kernel)

/-- With 0, 1, 2 and 7 open the constructor finds 5 and makes room for three connections
below 8, where only two can be. -/
theorem index_in_range_gap :
    ¬ ∀ (limit : Nat) (isOpen : Nat → Bool) (threadCnt : Nat) (maxConns : Int32) (evs : List Event),
      Ends (run limit isOpen threadCnt maxConns evs)
        (fun s => (∀ connfd, s.pc = .handing connfd → (connfd : Int) < s.connsSize) ∧
          ∀ fd ∈ s.waiting ++ s.counted, (fd : Int) < s.connsSize)
        (fun f => f = .exit ∨ f = .undefined ∧ SizeOverflows limit maxConns) := by
  intro hall
  have hfail : run 20 (· ∈ [0, 1, 2, 7]) 0 3
      (noThreads ++ takeConnection ++ takeConnection ++ takeConnection) =
        .error (.assertion .connfdRange) := by
    rfl
  rcases (hall 20 (· ∈ [0, 1, 2, 7]) 0 3 _).of_error hfail with hexit | ⟨hundef, _⟩
  · cases hexit
  · cases hundef

end Server

end EasyReactor.Acceptor
