import EasyReactor.Acceptor.Steps

set_option autoImplicit false

/-!
# Acceptor: the connection table

`conns` has `_conns_size` entries.  The assertion in `do_accept` keeps every connection that
is handed over in range, and the steps of the other threads give them no new number.
-/

namespace EasyReactor.Acceptor

open EasyReactor.Foundation EasyReactor.Loop EasyReactor.Thread

namespace Pc

/-- What is known of `_conns_size` where the acceptor's thread is. -/
def Fits (size : Int) : Pc → Prop
  | .socket => size = 0
  | .openReserve => size = 0
  | .thread _ => size = 0
  | .dup => size = 0
  | .handing connfd => (connfd : Int) < size
  | _ => True

/-- How many threads there are where the acceptor's thread is. -/
def Hires (threadCnt hired : Nat) : Pc → Prop
  | .socket => hired = 0
  | .openReserve => hired = 0
  | .thread i => hired = i ∧ i < threadCnt
  | _ => hired = threadCnt

end Pc

namespace Server

variable {s s' : Server}

/-! ## Connections -/

/-- The connections that have passed the assertion are in range. -/
structure InTable (s : Server) : Prop where
  place : s.pc.Fits s.connsSize
  conns : ∀ fd ∈ s.waiting ++ s.counted, (fd : Int) < s.connsSize

theorem pending_subset_waiting {i fd : Nat} {w : Worker} (hw : s.workers[i]? = some w)
    (hfd : fd ∈ w.pending) : fd ∈ s.waiting :=
  List.mem_flatMap.mpr ⟨w, List.mem_of_getElem? hw, hfd⟩

/-- A step that makes no connection live. -/
theorem InTable.subset (h : InTable s) (hplace : s'.pc.Fits s'.connsSize)
    (hsize : s'.connsSize = s.connsSize)
    (hsub : ∀ fd, fd ∈ s'.waiting ∨ fd ∈ s'.counted → fd ∈ s.waiting ∨ fd ∈ s.counted) :
    InTable s' where
  place := hplace
  conns fd hfd := by
    rw [hsize]
    exact h.conns fd (List.mem_append.mpr (hsub fd (List.mem_append.mp hfd)))

theorem InTable.sameConns (h : InTable s) (hs : SameConns s s') (hplace : s'.pc.Fits s'.connsSize)
    (hsize : s'.connsSize = s.connsSize) : InTable s' :=
  h.subset hplace hsize fun fd hfd => by rwa [hs.waiting, hs.counted] at hfd

theorem InTable.handOver (h : InTable s) {n : Nat} (hn : (n : Int) < s.connsSize)
    (hhand : s.handOver n = .ok s') (pc : Pc) (hpc : pc.Fits s.connsSize) :
    InTable { s' with pc := pc } := by
  rcases handOver_cases hhand with rfl | ⟨workers, i, rfl, hperm⟩
  · refine ⟨hpc, fun fd hfd => ?_⟩
    rcases List.mem_append.mp hfd with hwait | hcount
    · exact h.conns fd (List.mem_append_left _ hwait)
    · rcases List.mem_append.mp hcount with hold | hnew
      · exact h.conns fd (List.mem_append_right _ hold)
      · obtain rfl := List.mem_singleton.mp hnew
        exact hn
  · refine ⟨hpc, fun fd hfd => ?_⟩
    rcases List.mem_append.mp hfd with hwait | hcount
    · rcases List.mem_cons.mp (hperm.mem_iff.mp hwait) with rfl | hold
      · exact hn
      · exact h.conns fd (List.mem_append_left _ hold)
    · exact h.conns fd (List.mem_append_right _ hcount)

theorem InTable.acceptor (h : InTable s) {sys : AcceptorSys} (hstep : s.acceptor sys = .ok s') :
    InTable s' := by
  have hplace := h.place
  by_cases hhand : ∃ n, s.pc = .handing n
  · obtain ⟨n, hpc⟩ := hhand
    rw [hpc] at hplace
    obtain ⟨s₁, hto, rfl⟩ := acceptor_handing hpc hstep
    exact h.handOver hplace hto _ trivial
  have ht := acceptor_turn hstep
  have hsame := ht.sameConns fun n hc => hhand ⟨n, hc⟩
  cases ht with
  | socket hc _ =>
    rw [hc] at hplace
    exact h.sameConns hsame hplace rfl
  | openReserve hc =>
    rw [hc] at hplace
    have hsize : (s.openReserve sys.opens).connsSize = s.connsSize := by
      rcases openReserve_cases s sys.opens with ⟨n, fds, _, hs⟩ | hs <;> rw [hs]
    refine h.sameConns hsame ?_ hsize
    show Pc.Fits (s.openReserve sys.opens).connsSize _
    rw [hsize]
    split <;> exact hplace
  | thread hc _ =>
    rw [hc] at hplace
    refine h.sameConns hsame ?_ rfl
    show Pc.Fits s.connsSize (if _ then _ else _)
    split <;> exact hplace
  | dupFails hc _ _ | dup hc _ _ _ =>
    -- there are no connections yet
    rw [hc] at hplace
    refine ⟨trivial, fun fd hfd => ?_⟩
    rw [hsame.waiting, hsame.counted] at hfd
    have hfd := h.conns fd hfd
    have hplace : s.connsSize = 0 := hplace
    omega
  | idle _ | again _ => exact h
  | take _ _ hlt => exact h.sameConns hsame hlt rfl
  | hand hc _ => exact absurd ⟨_, hc⟩ hhand
  | reopening _ =>
    refine h.sameConns hsame trivial ?_
    rcases openReserve_cases s sys.opens with ⟨n, fds, _, hs⟩ | hs <;> rw [hs]
  | _ => exact h.sameConns hsame trivial rfl

/-- No thread but the acceptor's makes a connection live. -/
theorem Moves.subset (h : Moves s s') (fd : Nat) (hfd : fd ∈ s'.waiting ∨ fd ∈ s'.counted) :
    fd ∈ s.waiting ∨ fd ∈ s.counted := by
  cases h with
  | keep _ hwait hcount _ _ | opens _ _ hwait hcount _ _ =>
    rwa [hwait.mem_iff, hcount] at hfd
  | init _ hwait hcount _ _ =>
    rw [hcount, List.mem_append, List.mem_singleton] at hfd
    rcases hfd with hold | hold | rfl
    · exact .inl (hwait.mem_iff.mp (List.mem_cons_of_mem _ hold))
    · exact .inr hold
    · exact .inl (hwait.mem_iff.mp List.mem_cons_self)
  | dec _ _ hwait hcount _ _ =>
    rw [hwait, hcount] at hfd
    exact hfd.imp_right List.mem_of_mem_erase
  | close _ _ hwait hcount _ _ => rwa [hwait, hcount] at hfd

/-- A step of any thread keeps the connections in range. -/
theorem InTable.step (h : InTable s) {e : Event} (hstep : s.step e = .ok s') : InTable s' := by
  cases he : e.byAcceptor with
  | true =>
    obtain ⟨sys, rfl⟩ := byAcceptor_eq he
    exact h.acceptor hstep
  | false =>
    have hsame := step_sameServer he hstep
    refine h.subset ?_ hsame.connsSize (step_moves he hstep).subset
    rw [hsame.connsSize]
    rcases hsame.pc with hpc | ⟨_, hpc⟩
    · rw [hpc]
      exact h.place
    · rw [hpc]
      trivial

/-! ## Threads -/

/-- `get_next_thread` finds a thread, once there are any. -/
structure Staffed (s : Server) : Prop where
  place : s.pc.Hires s.threadCnt s.workers.length
  index : s.currIndex ≤ s.threadCnt

theorem Staffed.keep (h : Staffed s) (hcnt : s'.threadCnt = s.threadCnt)
    (hlen : s'.workers.length = s.workers.length) (hindex : s'.currIndex = s.currIndex)
    (hplace : s'.pc.Hires s.threadCnt s.workers.length) : Staffed s' where
  place := by rwa [hcnt, hlen]
  index := by
    rw [hcnt, hindex]
    exact h.index

theorem Staffed.nextThread_lt (h : Staffed s) (hcnt : s.threadCnt ≠ 0) :
    s.nextThread < s.threadCnt := by
  have hindex := h.index
  unfold nextThread
  split <;> omega

theorem Staffed.handOver (h : Staffed s) {n : Nat} (hhand : s.handOver n = .ok s')
    (hlen : s.workers.length = s.threadCnt) : Staffed { s' with pc := .accepting false } := by
  unfold Server.handOver at hhand
  split at hhand
  · obtain ⟨_, rfl⟩ := initConn_eq_ok hhand
    exact h.keep rfl rfl rfl hlen
  · rename_i hcnt
    split at hhand
    · cases hhand
    · obtain rfl := Except.ok.inj hhand
      have hlt := h.nextThread_lt hcnt
      refine ⟨?_, hlt⟩
      show (s.workers.set _ _).length = s.threadCnt
      rw [List.length_set, hlen]

theorem Staffed.acceptor (h : Staffed s) {sys : AcceptorSys} (hstep : s.acceptor sys = .ok s') :
    Staffed s' := by
  have hplace := h.place
  cases acceptor_turn hstep with
  | socket hc _ =>
    rw [hc] at hplace
    exact h.keep rfl rfl rfl hplace
  | openReserve hc =>
    rw [hc] at hplace
    have hzero : s.workers.length = 0 := hplace
    have hnext : (if s.threadCnt = 0 then Pc.dup else .thread 0).Hires s.threadCnt
        s.workers.length := by
      split
      · rename_i hcnt
        exact hzero.trans hcnt.symm
      · rename_i hcnt
        exact ⟨hzero, Nat.pos_of_ne_zero hcnt⟩
    rcases openReserve_cases s sys.opens with ⟨n, fds, _, hs⟩ | hs
    · rw [hs]
      exact h.keep rfl rfl rfl hnext
    · rw [hs]
      exact h.keep rfl rfl rfl hnext
  | @thread i n fds hc _ =>
    rw [hc] at hplace
    obtain ⟨hlen, hlt⟩ := hplace
    refine ⟨?_, h.index⟩
    show Pc.Hires s.threadCnt (s.workers ++ [_]).length (if i + 1 = s.threadCnt then _ else _)
    rw [List.length_append, List.length_singleton, hlen]
    split
    · rename_i hall
      exact hall
    · rename_i hmore
      exact ⟨rfl, by omega⟩
  | dupFails hc _ _ | dup hc _ _ _ | closeNext hc | eagain hc _ | emfile hc _ _ | releasing hc
  | connFull hc _ _ | connection hc _ _ | reject hc _ | take hc _ _ | rejecting hc
  | discarding hc =>
    rw [hc] at hplace
    exact h.keep rfl rfl rfl hplace
  | idle _ | again _ => exact h
  | hand hc hhand =>
    rw [hc] at hplace
    exact h.handOver hhand hplace
  | reopening hc =>
    rw [hc] at hplace
    rcases openReserve_cases s sys.opens with ⟨n, fds, _, hs⟩ | hs
    · rw [hs]
      exact h.keep rfl rfl rfl hplace
    · rw [hs]
      exact h.keep rfl rfl rfl hplace

/-- A step of any thread keeps the threads. -/
theorem Staffed.step (h : Staffed s) {e : Event} (hstep : s.step e = .ok s') : Staffed s' := by
  cases he : e.byAcceptor with
  | true =>
    obtain ⟨sys, rfl⟩ := byAcceptor_eq he
    exact h.acceptor hstep
  | false =>
    have hsame := step_sameServer he hstep
    refine h.keep hsame.threadCnt hsame.hired hsame.currIndex ?_
    have hplace := h.place
    rcases hsame.pc with hpc | ⟨hidle, hpc⟩
    · rwa [hpc]
    · rw [hidle] at hplace
      rw [hpc]
      exact hplace

/-! ## Runs -/

theorem acceptor_setup {sys : AcceptorSys} (hstep : s.acceptor sys = .ok s') :
    s'.fds.limit = s.fds.limit ∧ s'.maxConns = s.maxConns := by
  cases acceptor_turn hstep with
  | socket _ halloc | thread _ halloc | dup _ halloc _ _ | connFull _ _ halloc
  | connection _ _ halloc =>
    obtain ⟨_, _, _, hlimit, _⟩ := Descriptors.alloc_eq_some halloc
    exact ⟨hlimit, rfl⟩
  | openReserve _ | reopening _ =>
    rcases openReserve_cases s sys.opens with ⟨n, fds, halloc, hs⟩ | hs
    · obtain ⟨_, _, _, hlimit, _⟩ := Descriptors.alloc_eq_some halloc
      rw [hs]
      exact ⟨hlimit, rfl⟩
    · rw [hs]
      exact ⟨rfl, rfl⟩
  | @closeNext nextFd _ => cases nextFd <;> exact ⟨rfl, rfl⟩
  | releasing _ =>
    unfold closeReserve
    cases s.reservfd <;> exact ⟨rfl, rfl⟩
  | hand _ hhand =>
    rcases handOver_cases hhand with rfl | ⟨workers, i, rfl, _⟩ <;> exact ⟨rfl, rfl⟩
  | _ => exact ⟨rfl, rfl⟩

/-- Everything that holds of the connection table in every reachable state. -/
structure Ranged (limit : Nat) (maxConns : Int32) (s : Server) : Prop where
  table : InTable s
  staff : Staffed s
  limit_eq : s.fds.limit = limit
  maxConns_eq : s.maxConns = maxConns

theorem Ranged.step {limit : Nat} {m : Int32} (h : Ranged limit m s) {e : Event}
    (hstep : s.step e = .ok s') : Ranged limit m s' := by
  have hsetup : s'.fds.limit = s.fds.limit ∧ s'.maxConns = s.maxConns := by
    cases he : e.byAcceptor with
    | true =>
      obtain ⟨sys, rfl⟩ := byAcceptor_eq he
      exact acceptor_setup hstep
    | false =>
      have hsame := step_sameServer he hstep
      exact ⟨hsame.limit, hsame.maxConns⟩
  exact ⟨h.table.step hstep, h.staff.step hstep, hsetup.1.trans h.limit_eq,
    hsetup.2.trans h.maxConns_eq⟩

/-- The constructor's `_max_conns + next_fd` is no `int`. -/
def SizeOverflows (limit : Nat) (maxConns : Int32) : Prop :=
  ∃ nextFd : Int, -1 ≤ nextFd ∧ nextFd < limit ∧
    ¬(-2147483648 ≤ maxConns.toInt + nextFd ∧ maxConns.toInt + nextFd < 2147483648)

theorem handOver_returns (h : Staffed s) {n : Nat} (hpc : s.pc = .handing n)
    (hn : (n : Int) < s.connsSize) : ∃ s', s.handOver n = .ok s' := by
  have hlen := h.place
  rw [hpc] at hlen
  have hlen : s.workers.length = s.threadCnt := hlen
  by_cases hcnt : s.threadCnt = 0
  · rw [handOver, if_pos hcnt, initConn, if_pos hn]
    exact ⟨_, rfl⟩
  · have hlt := h.nextThread_lt hcnt
    rw [handOver, if_neg hcnt, List.getElem?_eq_getElem (hlen ▸ hlt)]
    exact ⟨_, rfl⟩

/-- No step fails because of a connection's number, if the one that passes the check on
`_curr_conns` is in range. -/
theorem Ranged.fault {limit : Nat} {m : Int32} (h : Ranged limit m s) {e : Event} {f : Fault}
    (hlow : e.byAcceptor → ∀ connfd, s.pc = .accepted connfd → s.currConns < s.maxConns.toInt →
      (connfd : Int) < s.connsSize)
    (hstep : s.step e = .error f) :
    f = .exit ∨ f = .undefined ∧ SizeOverflows limit m := by
  have hplace := h.table.place
  cases e with
  | acceptor sys =>
    cases acceptor_fails hstep with
    | exit => exact .inl rfl
    | overflow _ hlo hhi hrange =>
      rw [h.limit_eq] at hhi
      rw [h.maxConns_eq] at hrange
      exact .inr ⟨rfl, _, hlo, hhi, hrange⟩
    | connfdRange hc hcurr hge =>
      exact absurd (hlow rfl _ hc hcurr) hge
    | hand hc hhand =>
      rw [hc] at hplace
      obtain ⟨s', hs'⟩ := handOver_returns h.staff hc hplace
      rw [hs'] at hhand
      cases hhand
  | doAccept =>
    simp only [Server.step] at hstep
    split at hstep <;> cases hstep
  | startWorker i =>
    simp only [Server.step, work] at hstep
    split at hstep
    · cases hstep
    · split at hstep
      · cases hstep
      · rcases bind_eq_error.mp hstep with hopen | ⟨_, _, hstep⟩
        · exact .inl (openOrExit_eq_error hopen)
        · cases hstep
  | recvMsg i =>
    simp only [Server.step, work] at hstep
    split at hstep
    · cases hstep
    · split at hstep <;> cases hstep
  | handleMsg i =>
    simp only [Server.step, work] at hstep
    split at hstep
    · cases hstep
    · rename_i w hw
      split at hstep
      · cases hstep
      · -- the connection waits, so it is in range
        rename_i connfd msgs hmsgs
        have hmem : connfd ∈ w.pending := by
          rw [Worker.pending, hmsgs]
          exact List.mem_cons_self
        have hlt := h.table.conns connfd (List.mem_append_left _ (pending_subset_waiting hw hmem))
        rw [initConn, if_pos hlt] at hstep
        cases hstep
  | decConn fd =>
    simp only [Server.step] at hstep
    split at hstep <;> cases hstep
  | closeConn fd =>
    simp only [Server.step] at hstep
    split at hstep <;> cases hstep

/-- The acceptor's thread, where only `::accept` has a say. -/
def acceptorStep (r : AcceptResult) : Event := .acceptor ⟨r, true⟩

/-- The constructor without threads, and a call of `do_accept`. -/
def noThreads : List Event := List.replicate 4 (acceptorStep .eagain) ++ [.doAccept]

/-- The constructor with one thread that starts at once, and a call of `do_accept`. -/
def oneThread : List Event :=
  List.replicate 3 (acceptorStep .eagain) ++ [.startWorker 0, .startWorker 0] ++
    List.replicate 2 (acceptorStep .eagain) ++ [.doAccept]

/-- A connection is accepted, checked and handed over. -/
def takeConnection : List Event := List.replicate 3 (acceptorStep .connection)

/-- The worker initialises the connection of its next message, and cleans it. -/
def serve (connfd : Nat) : List Event :=
  [.recvMsg 0, .handleMsg 0, .decConn connfd, .closeConn connfd]

end Server

end EasyReactor.Acceptor
