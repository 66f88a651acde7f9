import EasyReactor.Acceptor.Range

set_option autoImplicit false

/-!
# Acceptor: the connections' numbers

Every connection that has been accepted and not closed has an open descriptor of its own,
unless `::close(_reservfd)` closes one of them.  What is known of the reserve does not
matter for that.
-/

namespace EasyReactor.Acceptor

open EasyReactor.Foundation EasyReactor.Loop EasyReactor.Thread

/-- The `conns` are different descriptors of connections. -/
structure Owned (owner : Nat → Option Owner) (conns : List Nat) : Prop where
  nodup : conns.Nodup
  isConn : ∀ fd ∈ conns, owner fd = some .conn

section Table

variable {t t' : Descriptors Owner} {conns conns' : List Nat} {n : Nat} {w : Owner}

theorem Owned.perm (h : Owned t.owner conns) (hp : conns'.Perm conns) : Owned t.owner conns' where
  nodup := hp.nodup_iff.mpr h.nodup
  isConn fd hfd := h.isConn fd (hp.mem_iff.mp hfd)

/-- An open descriptor stays what it is when another one is opened. -/
theorem alloc_owner (halloc : t.alloc w = some (n, t')) {m : Nat} {v : Owner}
    (hm : t.owner m = some v) : t'.owner m = some v := by
  obtain ⟨_, hfree, _, _, howner⟩ := Descriptors.alloc_eq_some halloc
  rw [howner, if_neg]
  · exact hm
  · rintro rfl
    rw [hfree] at hm
    cases hm

theorem close_owner {m : Nat} {v : Owner} (hm : t.owner m = some v) (hne : t.owner n ≠ some v) :
    (t.close n).owner m = some v := by
  rw [Descriptors.owner_close, if_neg]
  · exact hm
  · rintro rfl
    exact hne hm

theorem Owned.alloc (h : Owned t.owner conns) (halloc : t.alloc w = some (n, t')) :
    Owned t'.owner conns where
  nodup := h.nodup
  isConn fd hfd := alloc_owner halloc (h.isConn fd hfd)

theorem Owned.alloc_conn (h : Owned t.owner conns) (halloc : t.alloc .conn = some (n, t')) :
    Owned t'.owner (n :: conns) := by
  obtain ⟨_, hfree, _, _, howner⟩ := Descriptors.alloc_eq_some halloc
  refine ⟨List.nodup_cons.mpr ⟨fun hmem => ?_, h.nodup⟩, fun fd hfd => ?_⟩
  · have hconn := h.isConn n hmem
    rw [hfree] at hconn
    cases hconn
  · rcases List.mem_cons.mp hfd with rfl | hfd
    · rw [howner, if_pos rfl]
    · exact alloc_owner halloc (h.isConn fd hfd)

theorem Owned.close (h : Owned t.owner conns) (hn : t.owner n ≠ some .conn) :
    Owned (t.close n).owner conns where
  nodup := h.nodup
  isConn fd hfd := close_owner (h.isConn fd hfd) hn

theorem Owned.close_conn (h : Owned t.owner (n :: conns)) : Owned (t.close n).owner conns := by
  obtain ⟨hmem, hnodup⟩ := List.nodup_cons.mp h.nodup
  refine ⟨hnodup, fun fd hfd => ?_⟩
  rw [Descriptors.owner_close, if_neg]
  · exact h.isConn fd (List.mem_cons_of_mem _ hfd)
  · rintro rfl
    exact hmem hfd

end Table

/-- The connection that the acceptor's thread has in hand. -/
def Pc.conns : Pc → List Nat
  | .accepted connfd => [connfd]
  | .handing connfd => [connfd]
  | .rejecting connfd => [connfd]
  | .discarding connfd => [connfd]
  | _ => []

namespace Server

variable {s s' : Server}

/-- All connections that are open. -/
def conns (s : Server) : List Nat := s.pc.conns ++ (s.waiting ++ s.counted ++ s.closing)

theorem pc_conns_of_others (hsame : SameServer s s') : s'.pc.conns = s.pc.conns := by
  rcases hsame.pc with hpc | ⟨hidle, hpc⟩
  · rw [hpc]
  · rw [hpc, hidle]
    rfl

/-- The connection that another thread closes is one of the connections. -/
theorem conns_of_close {fd : Nat} (hsame : SameServer s s') (hmem : fd ∈ s.closing)
    (hwait : s'.waiting = s.waiting) (hcount : s'.counted = s.counted)
    (hclose : s'.closing = s.closing.erase fd) : (fd :: s'.conns).Perm s.conns := by
  refine List.perm_iff_count.mpr fun n => ?_
  have herase := (List.perm_cons_erase hmem).count_eq n
  unfold Server.conns
  rw [pc_conns_of_others hsame, hwait, hcount, hclose]
  simp only [List.count_append, List.count_cons] at herase ⊢
  omega

/-- `::close(_reservfd)` does not close a connection. -/
def SparesConns (s : Server) : Event → Prop
  | .acceptor _ => s.pc = .releasing → ∀ n ∈ s.reservfd, s.fds.owner n ≠ some .conn
  | _ => True

instance (s : Server) (e : Event) : Decidable (s.SparesConns e) :=
  match e with
  | .acceptor _ => inferInstanceAs (Decidable (_ → _))
  | .doAccept | .startWorker _ | .recvMsg _ | .handleMsg _ | .decConn _ | .closeConn _ =>
    .isTrue trivial

/-- Every connection has its own descriptor, and so has `next_fd`. -/
structure Numbered (s : Server) : Prop where
  conns : Owned s.fds.owner s.conns
  next : ∀ n, s.pc = .closeNext (some n) → s.fds.owner n = some .next

/-- `::open` of the reserve. -/
theorem Numbered.openReserve (h : Numbered s) (opens : Bool) {pc : Pc} (hpc : pc.conns = s.pc.conns)
    (hnext : ∀ n, pc ≠ .closeNext (some n)) : Numbered { s.openReserve opens with pc := pc } := by
  have hconns := h.conns
  rcases openReserve_cases s opens with ⟨n, fds, halloc, hs⟩ | hs
  · rw [hs]
    refine ⟨?_, fun n hc => absurd hc (hnext n)⟩
    unfold Server.conns at hconns ⊢
    rw [hpc]
    exact hconns.alloc halloc
  · rw [hs]
    refine ⟨?_, fun n hc => absurd hc (hnext n)⟩
    unfold Server.conns at hconns ⊢
    rw [hpc]
    exact hconns

theorem Numbered.acceptor (h : Numbered s) {sys : AcceptorSys}
    (hspares : s.SparesConns (.acceptor sys)) (hstep : s.acceptor sys = .ok s') :
    Numbered s' := by
  have hconns := h.conns
  unfold Server.conns at hconns
  cases acceptor_turn hstep with
  | socket hc halloc =>
    rw [hc] at hconns
    exact ⟨hconns.alloc halloc, fun _ hn => by cases hn⟩
  | openReserve hc =>
    refine h.openReserve sys.opens ?_ fun n => ?_
    · rw [hc]
      split <;> rfl
    · split <;> intro hn <;> cases hn
  | @thread i n fds hc halloc =>
    have hsame := (acceptor_turn hstep).sameConns (by rw [hc]; intro _ hn; cases hn)
    rw [hc] at hconns
    refine ⟨?_, fun n hn => ?_⟩
    · rw [Server.conns, hsame.waiting, hsame.counted, hsame.closing]
      show Owned fds.owner (Pc.conns (if _ then _ else _) ++ _)
      split <;> exact hconns.alloc halloc
    · have hn : (if i + 1 = s.threadCnt then Pc.dup else .thread (i + 1)) =
        .closeNext (some n) := hn
      split at hn <;> cases hn
  | dupFails hc _ _ =>
    rw [hc] at hconns
    exact ⟨hconns, fun _ hn => by cases hn⟩
  | dup hc halloc _ _ =>
    rw [hc] at hconns
    refine ⟨hconns.alloc halloc, fun m hm => ?_⟩
    obtain rfl := Option.some.inj (Pc.closeNext.inj hm)
    obtain ⟨_, _, _, _, howner⟩ := Descriptors.alloc_eq_some halloc
    rw [howner, if_pos rfl]
  | @closeNext nextFd hc =>
    rw [hc] at hconns
    cases nextFd with
    | none => exact ⟨hconns, fun _ hn => by cases hn⟩
    | some n =>
      refine ⟨hconns.close fun hn => ?_, fun _ hn => by cases hn⟩
      rw [h.next n hc] at hn
      cases hn
  | idle _ | again _ => exact h
  | eagain hc _ | emfile hc _ _ =>
    rw [hc] at hconns
    exact ⟨hconns, fun _ hn => by cases hn⟩
  | releasing hc =>
    rw [hc] at hconns
    refine ⟨?_, fun _ hn => by cases hn⟩
    have hspares := hspares hc
    unfold Server.conns Server.closeReserve
    cases hr : s.reservfd with
    | none => exact hconns
    | some n => exact hconns.close (hspares n hr)
  | connFull hc _ halloc | connection hc _ halloc =>
    rw [hc] at hconns
    exact ⟨hconns.alloc_conn halloc, fun _ hn => by cases hn⟩
  | reject hc _ | take hc _ _ =>
    rw [hc] at hconns
    exact ⟨hconns, fun _ hn => by cases hn⟩
  | hand hc hhand =>
    rw [hc] at hconns
    refine ⟨?_, fun _ hn => by cases hn⟩
    rcases handOver_cases hhand with rfl | ⟨workers, i, rfl, hperm⟩
    · refine hconns.perm (List.perm_iff_count.mpr fun fd => ?_)
      show List.count fd ([] ++ (s.waiting ++ (s.counted ++ [_]) ++ s.closing)) = _
      simp only [Pc.conns, List.count_append, List.count_cons, List.count_nil]
      omega
    · exact hconns.perm ((hperm.append_right s.counted).append_right s.closing)
  | rejecting hc | discarding hc =>
    rw [hc] at hconns
    exact ⟨hconns.close_conn, fun _ hn => by cases hn⟩
  | reopening hc => exact h.openReserve sys.opens (by rw [hc]; rfl) fun _ hn => by cases hn

/-- A step of another thread that closes nothing and regroups the connections. -/
theorem Numbered.regroup (h : Numbered s) (hsame : SameServer s s')
    (hfds : ∀ n w, s.fds.owner n = some w → s'.fds.owner n = some w)
    (hconns : (s'.waiting ++ s'.counted ++ s'.closing).Perm
      (s.waiting ++ s.counted ++ s.closing)) : Numbered s' where
  conns := by
    refine ⟨?_, fun fd hfd => hfds fd .conn (h.conns.isConn fd ?_)⟩
    · unfold Server.conns
      rw [pc_conns_of_others hsame]
      exact (hconns.append_left _).nodup_iff.mpr h.conns.nodup
    · unfold Server.conns at hfd ⊢
      rw [pc_conns_of_others hsame] at hfd
      exact (hconns.append_left _).mem_iff.mp hfd
  next n hn := by
    rcases hsame.pc with hpc | ⟨_, hpc⟩
    · exact hfds n .next (h.next n (hpc.symm.trans hn))
    · rw [hpc] at hn
      cases hn

theorem Numbered.step (h : Numbered s) {e : Event} (hspares : s.SparesConns e)
    (hstep : s.step e = .ok s') : Numbered s' := by
  cases he : e.byAcceptor with
  | true =>
    obtain ⟨sys, rfl⟩ := byAcceptor_eq he
    exact h.acceptor hspares hstep
  | false =>
    have hsame := step_sameServer he hstep
    cases step_moves he hstep with
    | keep hfds hwait hcount hclose _ =>
      refine h.regroup hsame (fun n w hn => by rwa [hfds]) ?_
      rw [hcount, hclose]
      exact (hwait.append_right _).append_right _
    | opens halloc hfds hwait hcount hclose _ =>
      refine h.regroup hsame (fun n w hn => ?_) ?_
      · rw [hfds]
        exact alloc_owner halloc hn
      · rw [hcount, hclose]
        exact (hwait.append_right _).append_right _
    | init hfds hwait hcount hclose _ =>
      refine h.regroup hsame (fun n w hn => by rwa [hfds]) (List.perm_iff_count.mpr fun fd => ?_)
      have hwait := hwait.count_eq fd
      rw [hcount, hclose]
      simp only [List.count_append, List.count_cons, List.count_nil] at hwait ⊢
      omega
    | dec hmem hfds hwait hcount hclose _ =>
      refine h.regroup hsame (fun n w hn => by rwa [hfds]) (List.perm_iff_count.mpr fun fd => ?_)
      have herase := (List.perm_cons_erase hmem).count_eq fd
      rw [hwait, hcount, hclose]
      simp only [List.count_append, List.count_cons, List.count_nil] at herase ⊢
      omega
    | @close fd hmem hfds hwait hcount hclose _ =>
      -- the closed descriptor was that of a connection
      have hconns := h.conns.perm (conns_of_close hsame hmem hwait hcount hclose)
      have howner := hconns.isConn fd List.mem_cons_self
      refine ⟨?_, fun n hn => ?_⟩
      · rw [hfds]
        exact hconns.close_conn
      · rcases hsame.pc with hpc | ⟨_, hpc⟩
        · rw [hfds]
          refine close_owner (h.next n (hpc.symm.trans hn)) fun heq => ?_
          rw [howner] at heq
          cases heq
        · rw [hpc] at hn
          cases hn

theorem start_numbered (limit : Nat) (isOpen : Nat → Bool) (threadCnt : Nat) (maxConns : Int32) :
    Numbered (start limit isOpen threadCnt maxConns) :=
  ⟨⟨List.nodup_nil, List.forall_mem_nil _⟩, fun _ hn => by cases hn⟩

/-- The connections have their own descriptors, and the threads are there. -/
structure Books (s : Server) : Prop where
  numbered : Numbered s
  staffed : Staffed s

theorem Books.step (h : Books s) {e : Event} (hspares : s.SparesConns e)
    (hstep : s.step e = .ok s') : Books s' :=
  ⟨h.numbered.step hspares hstep, h.staffed.step hstep⟩

/-- Without threads there are no workers. -/
theorem Books.workers_nil (h : Books s) (hcnt : s.threadCnt = 0) : s.workers = [] := by
  have hplace := h.staffed.place
  rw [hcnt] at hplace
  refine List.length_eq_zero_iff.mp ?_
  cases hpc : s.pc with
  | thread i =>
    rw [hpc] at hplace
    exact absurd hplace.2 (Nat.not_lt_zero i)
  | _ =>
    rw [hpc] at hplace
    exact hplace

theorem start_books (limit : Nat) (isOpen : Nat → Bool) (threadCnt : Nat) (maxConns : Int32) :
    Books (start limit isOpen threadCnt maxConns) :=
  ⟨start_numbered limit isOpen threadCnt maxConns, rfl, Nat.zero_le _⟩

end Server

end EasyReactor.Acceptor
