import EasyReactor.Acceptor.Limit
import EasyReactor.Workers.Steps

set_option autoImplicit false

/-!
# Workers: who owns a connection

A connection object passes from loop to loop with the number of its descriptor: the loop
that closes the descriptor gives the object up, and whoever is told of the number next has
it.  An object is used by its owner alone as long as its owner does nothing with it after
the `::close`, and nobody else closes its descriptor.
-/

namespace EasyReactor.Workers

open EasyReactor.Foundation EasyReactor.Loop EasyReactor.Acceptor EasyReactor.Acceptor.Server
open EasyReactor.Server (ConnIo)

namespace Reactor

variable {s t : Reactor} {i n : Nat}

/-- Loop `i` has been told of `n`, which is not counted yet. -/
def Told (s : Reactor) (i n : Nat) : Prop :=
  if s.server.threadCnt = 0 then i = 0 ∧ s.server.pc = .handing n
  else (msgs s.server i).head? = some n

/-- What is known of `n` and its owner `i`, by how far the owner is. -/
def Fits (s : Reactor) (i n : Nat) : Stage → Prop
  | .fresh => s.Told i n
  | .opening => s.Told i n ∧ s.conns n = some ⟨n, some i⟩
  | .open => n ∈ s.server.counted ∧ s.conns n = some ⟨n, some i⟩
  | .leaving => n ∈ s.server.closing ∧ ∃ l, s.conns n = some ⟨n, l⟩
  | .shutting fd => n ∈ s.server.closing ∧ fd = n

/-- Every object in use has one owner, which is where it should be with it. -/
structure Owning (s : Reactor) : Prop where
  books : s.server.Books
  count : s.server.currConns = s.server.counted.length
  distinct : (s.owners.map Prod.fst).Nodup
  fits : ∀ n i, (n, i) ∈ s.owners → s.Fits i n ((s.loops i).pc.stage n)
  place : ∀ i n p, (s.loops i).pc = .run n p → p ≠ .adjust → (n, i) ∈ s.owners
  watched : ∀ i fd, (s.loops i).evs.interest fd ≠ none → ∃ n : Nat, fd = n ∧ (n, i) ∈ s.owners
  fired : ∀ i, ∀ n ∈ (s.loops i).batch.map Prod.fst,
    (n, i) ∈ s.owners ∧ ∀ p, (s.loops i).pc ≠ .run n p
  batches : ∀ i, ((s.loops i).batch.map Prod.fst).Nodup
  serves : ∀ i, Serves (s.loops i).evs

theorem Owning.unique (h : s.Owning) {j : Nat} (hi : (n, i) ∈ s.owners) (hj : (n, j) ∈ s.owners) :
    i = j :=
  congrArg Prod.snd (List.inj_on_of_nodup_map h.distinct hi hj rfl)

theorem Fits.imp {stage : Stage} (h : s.Fits i n stage)
    (htold : stage ≠ .open → s.Told i n → t.Told i n)
    (hcounted : n ∈ s.server.counted → n ∈ t.server.counted)
    (hclosing : n ∈ s.server.closing → n ∈ t.server.closing)
    (hconn : t.conns n = s.conns n) : t.Fits i n stage := by
  cases stage with
  | fresh => exact htold nofun h
  | opening => exact ⟨htold nofun h.1, hconn.trans h.2⟩
  | «open» => exact ⟨hcounted h.1, hconn.trans h.2⟩
  | leaving =>
    obtain ⟨hmem, l, hl⟩ := h
    exact ⟨hclosing hmem, l, hconn.trans hl⟩
  | shutting fd => exact ⟨hclosing h.1, h.2⟩

theorem Told.imp (h : s.Told i n) (hcnt : t.server.threadCnt = s.server.threadCnt)
    (hpc : s.server.threadCnt = 0 → s.server.pc = .handing n → t.server.pc = .handing n)
    (hmsgs : msgs t.server i = msgs s.server i) : t.Told i n := by
  unfold Told at h ⊢
  rw [hcnt, hmsgs]
  split
  next hzero =>
    rw [if_pos hzero] at h
    exact ⟨h.1, hpc hzero h.2⟩
  next hzero => rwa [if_neg hzero] at h

/-! ## Connections that are told of -/

/-- A connection is pending for one worker only. -/
theorem pending_unique {srv : Server} (hnodup : srv.waiting.Nodup) {j : Nat} {v w : Worker}
    (hv : srv.workers[i]? = some v) (hw : srv.workers[j]? = some w) (hnv : n ∈ v.pending)
    (hnw : n ∈ w.pending) : i = j := by
  obtain ⟨hi, rfl⟩ := List.getElem?_eq_some_iff.mp hv
  obtain ⟨hj, rfl⟩ := List.getElem?_eq_some_iff.mp hw
  have hdisjoint := List.pairwise_iff_getElem.mp (List.nodup_flatMap.mp hnodup).2
  rcases Nat.lt_trichotomy i j with hlt | heq | hlt
  · exact absurd hnw (hdisjoint i j hi hj hlt hnv)
  · exact heq
  · exact absurd hnv (hdisjoint j i hj hi hlt hnw)

theorem head_pending {srv : Server} (h : (msgs srv i).head? = some n) :
    ∃ w rest, srv.workers[i]? = some w ∧ w.msgs = n :: rest ∧ n ∈ w.pending := by
  unfold msgs at h
  cases hw : srv.workers[i]? with
  | none =>
    rw [hw] at h
    cases h
  | some w =>
    rw [hw] at h
    obtain ⟨rest, hrest⟩ := List.head?_eq_some_iff.mp h
    have hrest : w.msgs = n :: rest := hrest
    refine ⟨w, rest, rfl, hrest, ?_⟩
    rw [Worker.pending, hrest]
    exact List.mem_cons_self

/-- Who is told of is neither counted nor being closed. -/
theorem Told.mem (h : s.Told i n) : n ∈ s.server.pc.conns ++ s.server.waiting := by
  unfold Told at h
  split at h
  · rw [h.2]
    exact List.mem_cons_self
  · obtain ⟨w, _, hw, _, hmem⟩ := head_pending h
    exact List.mem_append_right _ (pending_subset_waiting hw hmem)

theorem Told.not_mem (h : s.Told i n) (hnumbered : s.server.Numbered) :
    n ∉ s.server.counted ∧ n ∉ s.server.closing := by
  have hnodup := hnumbered.conns.nodup
  unfold Server.conns at hnodup
  rw [List.append_assoc, ← List.append_assoc] at hnodup
  have hdisjoint := List.disjoint_of_nodup_append hnodup h.mem
  exact ⟨fun hmem => hdisjoint (List.mem_append_left _ hmem),
    fun hmem => hdisjoint (List.mem_append_right _ hmem)⟩

theorem Told.unique {j : Nat} (h : s.Told i n) (h' : s.Told j n)
    (hnumbered : s.server.Numbered) : i = j := by
  unfold Told at h h'
  split at h
  next hcnt =>
    rw [if_pos hcnt] at h'
    rw [h.1, h'.1]
  next hcnt =>
    rw [if_neg hcnt] at h'
    obtain ⟨v, _, hv, _, hnv⟩ := head_pending h
    obtain ⟨w, _, hw, _, hnw⟩ := head_pending h'
    have hnodup := hnumbered.conns.nodup
    unfold Server.conns at hnodup
    exact pending_unique (((hnodup.of_append_right).of_append_left).of_append_left) hv hw hnv hnw

/-- Nobody owns an object that an idle loop has been told of. -/
theorem Owning.not_owned (h : s.Owning) (hidle : (s.loops i).pc = .idle) (htold : s.Told i n) :
    n ∉ s.owners.map Prod.fst := by
  intro hmem
  obtain ⟨⟨m, j⟩, hown, rfl⟩ := List.mem_map.mp hmem
  have hfits := h.fits m j hown
  have hnot := htold.not_mem h.books.numbered
  have hother : s.Told j m → (s.loops j).pc.stage m = .open := by
    intro htold'
    rw [← htold.unique htold' h.books.numbered, hidle]
    rfl
  cases hstage : (s.loops j).pc.stage m with
  | fresh =>
    rw [hstage] at hfits
    rw [hother hfits] at hstage
    cases hstage
  | opening =>
    rw [hstage] at hfits
    rw [hother hfits.1] at hstage
    cases hstage
  | «open» =>
    rw [hstage] at hfits
    exact hnot.1 hfits.1
  | leaving | shutting fd =>
    rw [hstage] at hfits
    exact hnot.2 hfits.1

/-! ## A loop in a function of a connection -/

/-- What a step of loop `i` for `n` leaves alone, before the loop goes on to its next
point. -/
structure Frame (s t : Reactor) (i n : Nat) : Prop where
  owners : t.owners = s.owners
  pc : ∀ j, (t.loops j).pc = (s.loops j).pc
  batch : ∀ j, (t.loops j).batch = (s.loops j).batch
  watched : ∀ j fd, (t.loops j).evs.interest fd ≠ none →
    (s.loops j).evs.interest fd ≠ none ∨ j = i ∧ fd = n
  serves : ∀ j, Serves (s.loops j).evs → Serves (t.loops j).evs
  others : ∀ j m stage, m ≠ n → (j = i → stage = .open) → s.Fits j m stage → t.Fits j m stage

/-- A step that leaves the loops alone. -/
theorem Frame.sameLoops (howners : t.owners = s.owners) (hloops : t.loops = s.loops)
    (hothers : ∀ j m stage, m ≠ n → (j = i → stage = .open) → s.Fits j m stage →
      t.Fits j m stage) : Frame s t i n where
  owners := howners
  pc j := by rw [hloops]
  batch j := by rw [hloops]
  watched j fd h := by
    rw [hloops] at h
    exact .inl h
  serves j h := by rwa [hloops]
  others := hothers

/-- A step that leaves the server and the objects alone. -/
theorem Fits.same {stage : Stage} (h : s.Fits i n stage) (hserver : t.server = s.server)
    (hconns : t.conns = s.conns) : t.Fits i n stage := by
  refine h.imp (fun _ htold => ?_) (fun hmem => ?_) (fun hmem => ?_) (by rw [hconns])
  · unfold Told at htold ⊢
    rwa [hserver]
  · rwa [hserver]
  · rwa [hserver]

/-- An object other than `n` fits when only `conns[n]` changes. -/
theorem Fits.setConn {m : Nat} {stage : Stage} (h : s.Fits i m stage) (hne : m ≠ n) (c : Conn) :
    (s.setConn n c).Fits i m stage :=
  h.imp (fun _ htold => htold) (fun hmem => hmem) (fun hmem => hmem)
    (Function.update_of_ne hne _ _)

/-- A loop is with one object at a time, so it is as far as before with any other. -/
theorem stage_goto {p : Point} {pc : Pc} (hpcs : ∀ j, (t.loops j).pc = (s.loops j).pc)
    (hpc : (s.loops i).pc = .run n p) (honly : ∀ m q, pc = .run m q → m = n) {m : Nat}
    (hm : m ≠ n) (j : Nat) :
    ((t.goto i pc).loops j).pc.stage m = (s.loops j).pc.stage m := by
  by_cases hj : j = i
  · subst hj
    rw [goto_pc, hpc, Pc.stage_ne fun q hq => hm (honly m q hq),
      Pc.stage_ne fun q hq => hm (Pc.run.inj hq).1.symm]
  · rw [goto_loops_ne pc hj, hpcs]

theorem pc_goto {pc : Pc} (hpcs : ∀ j, (t.loops j).pc = (s.loops j).pc) {m j : Nat} {q : Point}
    (hq : ((t.goto i pc).loops j).pc = .run m q) :
    j = i ∧ pc = .run m q ∨ j ≠ i ∧ (s.loops j).pc = .run m q := by
  by_cases hj : j = i
  · subst hj
    rw [goto_pc] at hq
    exact .inl ⟨rfl, hq⟩
  · rw [goto_loops_ne pc hj, hpcs] at hq
    exact .inr ⟨hj, hq⟩

/-- The loop goes on to its next point. -/
theorem Owning.goto (h : s.Owning) (hframe : Frame s t i n) {p : Point} {pc : Pc}
    (hpc : (s.loops i).pc = .run n p) (hown : (n, i) ∈ s.owners) (hbooks : t.server.Books)
    (hcount : t.server.currConns = t.server.counted.length)
    (honly : ∀ m q, pc = .run m q → m = n) (hself : t.Fits i n (pc.stage n)) :
    (t.goto i pc).Owning where
  books := hbooks
  count := hcount
  distinct := by
    show (t.owners.map Prod.fst).Nodup
    rw [hframe.owners]
    exact h.distinct
  fits m j hmem := by
    have hmem : (m, j) ∈ t.owners := hmem
    rw [hframe.owners] at hmem
    show t.Fits j m _
    by_cases hm : m = n
    · subst hm
      obtain rfl := h.unique hmem hown
      rw [goto_pc]
      exact hself
    · rw [stage_goto hframe.pc hpc honly hm]
      refine hframe.others j m _ hm (fun hj => ?_) (h.fits m j hmem)
      rw [hj, hpc]
      exact Pc.stage_ne fun q hq => hm (Pc.run.inj hq).1.symm
  place j m q hq hne := by
    show (m, j) ∈ t.owners
    rw [hframe.owners]
    rcases pc_goto hframe.pc hq with ⟨rfl, hnew⟩ | ⟨_, hold⟩
    · obtain rfl := honly m q hnew
      exact hown
    · exact h.place j m q hold hne
  watched j fd hfd := by
    rw [goto_evs] at hfd
    show ∃ m : Nat, fd = m ∧ (m, j) ∈ t.owners
    rw [hframe.owners]
    rcases hframe.watched j fd hfd with hold | ⟨rfl, hfd⟩
    · exact h.watched j fd hold
    · exact ⟨n, hfd, hown⟩
  fired j m hmem := by
    rw [goto_batch, hframe.batch] at hmem
    obtain ⟨hmine, hnot⟩ := h.fired j m hmem
    refine ⟨hframe.owners.symm ▸ hmine, fun q hq => ?_⟩
    rcases pc_goto hframe.pc hq with ⟨rfl, hnew⟩ | ⟨_, hold⟩
    · obtain rfl := honly m q hnew
      exact hnot p hpc
    · exact hnot q hold
  batches j := by
    rw [goto_batch, hframe.batch]
    exact h.batches j
  serves j := by
    rw [goto_evs]
    exact hframe.serves j (h.serves j)

/-- `inc_conn`: the connection leaves the messages, or the hands of `do_accept`. -/
theorem incConn_cases {server : Server} (htold : s.Told i n) (h : s.incConn i = .ok server) :
    server.counted = s.server.counted ++ [n] ∧ server.closing = s.server.closing ∧
      server.currConns = s.server.currConns + 1 ∧ server.threadCnt = s.server.threadCnt ∧
      (s.server.threadCnt ≠ 0 → ∀ j, j ≠ i → msgs server j = msgs s.server j) := by
  unfold Told at htold
  unfold incConn at h
  split at h
  next hcnt =>
    rw [if_pos hcnt] at htold
    obtain ⟨s₁, hhand, rfl⟩ := acceptor_handing htold.2 h
    unfold Server.handOver at hhand
    rw [if_pos hcnt] at hhand
    rw [(initConn_eq_ok hhand).2]
    exact ⟨rfl, rfl, rfl, rfl, fun hne => absurd hcnt hne⟩
  next hcnt =>
    rw [if_neg hcnt] at htold
    obtain ⟨w, rest, hw, hmsgs, _⟩ := head_pending htold
    rcases handleMsg_cases h with rfl | ⟨w', connfd, rest', hw', hmsgs', rfl⟩
    · -- the message is there, so it is handled
      simp only [Server.step, Server.work, hw, hmsgs] at h
      have hcounted := congrArg Server.counted (initConn_eq_ok h).2
      have hlen := congrArg List.length hcounted
      simp at hlen
    · rw [hw] at hw'
      obtain rfl := Option.some.inj hw'
      rw [hmsgs] at hmsgs'
      obtain ⟨rfl, rfl⟩ := List.cons.inj hmsgs'
      refine ⟨rfl, rfl, rfl, rfl, fun _ j hj => ?_⟩
      exact (msgs_set hw rfl j).trans (if_neg hj)

theorem Owning.counts (h : s.Owning) {server : Server} {pc : Pc}
    (hpc : (s.loops i).pc = .run n .incConn) (hown : (n, i) ∈ s.owners)
    (hinc : s.incConn i = .ok server) (honly : ∀ m q, pc = .run m q → m = n)
    (hstage : pc.stage n = .open) : ({ s with server := server }.goto i pc).Owning := by
  have hfits := h.fits n i hown
  rw [hpc, Pc.stage_run] at hfits
  obtain ⟨htold, hconn⟩ := hfits
  obtain ⟨hcounted, hclosing, hcurr, hcnt, hmsgs⟩ := incConn_cases htold hinc
  have hbooks : server.Books := by
    unfold incConn at hinc
    split at hinc
    next hzero =>
      unfold Told at htold
      rw [if_pos hzero] at htold
      have hspares : s.server.SparesConns (.acceptor ⟨.eagain, true⟩) := by
        intro hpc
        rw [htold.2] at hpc
        cases hpc
      exact h.books.step hspares hinc
    next =>
      have hspares : s.server.SparesConns (.handleMsg i) := trivial
      exact h.books.step hspares hinc
  refine h.goto (t := { s with server := server }) (.sameLoops rfl rfl
    fun j m stage hm hj hfits => ?_) hpc hown hbooks ?_ honly ?_
  · refine hfits.imp (fun hne htold' => ?_) (fun hmem => ?_) (fun hmem => ?_) rfl
    · have hji : j ≠ i := fun heq => hne (hj heq)
      by_cases hzero : s.server.threadCnt = 0
      · -- without threads one loop is told of one connection
        unfold Told at htold htold'
        rw [if_pos hzero] at htold htold'
        exact absurd (htold'.1.trans htold.1.symm) hji
      · exact htold'.imp hcnt (fun hcnt => absurd hcnt hzero) (hmsgs hzero j hji)
    · show m ∈ server.counted
      rw [hcounted]
      exact List.mem_append_left _ hmem
    · show m ∈ server.closing
      rwa [hclosing]
  · show server.currConns = server.counted.length
    rw [hcurr, hcounted, h.count, List.length_append, List.length_singleton]
    rfl
  · rw [hstage]
    refine ⟨?_, hconn⟩
    show n ∈ server.counted
    rw [hcounted]
    exact List.mem_append_right _ List.mem_cons_self

/-- `dec_conn`, of a connection that is counted: the step of `Acceptor`. -/
theorem decConn_step (hmem : n ∈ s.server.counted) :
    s.server.step (.decConn n) = .ok (s.decConn n).server :=
  if_pos hmem

/-- `::close`, of a connection that is not counted any more: the step of `Acceptor`. -/
theorem close_step (i : Nat) (hmem : n ∈ s.server.closing) :
    s.server.step (.closeConn n) = .ok (s.close i n n).server :=
  if_pos hmem

theorem Owning.uncounts (h : s.Owning) {adjusts : Bool}
    (hpc : (s.loops i).pc = .run n (.clean .decConn adjusts)) (hown : (n, i) ∈ s.owners) :
    ((s.decConn n).goto i (.run n (.clean .delIoev adjusts))).Owning := by
  have hfits := h.fits n i hown
  rw [hpc, Pc.stage_run] at hfits
  obtain ⟨hmem, hconn⟩ := hfits
  have hspares : s.server.SparesConns (.decConn n) := trivial
  have hbooks := h.books.step hspares (decConn_step hmem)
  refine h.goto (t := s.decConn n) (.sameLoops rfl rfl fun j m stage hm _ hfits => ?_) hpc hown
    hbooks ?_ (fun m q hq => (Pc.run.inj hq).1.symm) ?_
  · refine hfits.imp (fun _ htold => htold) (fun hmem' => ?_) (fun hmem' => ?_) rfl
    · exact (List.mem_erase_of_ne hm).mpr hmem'
    · exact List.mem_append_left _ hmem'
  · have hlen := List.length_erase_of_mem hmem
    have hpos := List.length_pos_of_mem hmem
    show s.server.currConns - 1 = ((s.server.counted.erase n).length : Int)
    rw [h.count]
    omega
  · rw [Pc.stage_run]
    exact ⟨List.mem_append_right _ List.mem_cons_self, _, hconn⟩

/-- The owners that are left after a `::close`. -/
theorem Owning.mem_erase (h : s.Owning) (hown : (n, i) ∈ s.owners) {m j : Nat} :
    (m, j) ∈ s.owners.erase (n, i) ↔ m ≠ n ∧ (m, j) ∈ s.owners := by
  rw [(List.Nodup.of_map _ h.distinct).mem_erase_iff]
  constructor
  · rintro ⟨hne, hmem⟩
    refine ⟨?_, hmem⟩
    rintro rfl
    exact hne (by rw [h.unique hmem hown])
  · rintro ⟨hne, hmem⟩
    exact ⟨fun heq => hne (congrArg Prod.fst heq), hmem⟩

/-- The owner closes the descriptor, and has nothing to do with the object any more. -/
theorem Owning.closes (h : s.Owning) {fd : Int} {adjusts : Bool} {pc : Pc}
    (hpc : (s.loops i).pc = .run n (.clean (.close fd) adjusts)) (hown : (n, i) ∈ s.owners)
    (hnext : pc = .idle ∨ pc = .run n .adjust) : ((s.close i n fd).goto i pc).Owning := by
  have hfits := h.fits n i hown
  rw [hpc, Pc.stage_run] at hfits
  obtain ⟨hmem, rfl⟩ := hfits
  have hspares : s.server.SparesConns (.closeConn n) := trivial
  have hbooks := h.books.step hspares (close_step i hmem)
  have honly : ∀ m q, pc = .run m q → m = n ∧ q = .adjust := by
    intro m q hq
    rcases hnext with rfl | rfl
    · cases hq
    · obtain ⟨rfl, rfl⟩ := Pc.run.inj hq
      exact ⟨rfl, rfl⟩
  have hpcs : ∀ j, ((s.close i n n).loops j).pc = (s.loops j).pc := fun _ => rfl
  refine ⟨hbooks, h.count, ?_, fun m j hmem' => ?_, fun j m q hq hne => ?_,
    fun j fd hfd => ?_, fun j m hmem' => ?_, fun j => ?_, fun j => ?_⟩
  · exact (List.erase_sublist.map _).nodup h.distinct
  · obtain ⟨hm, hmine⟩ := (h.mem_erase hown).mp hmem'
    rw [stage_goto hpcs hpc (fun m q hq => (honly m q hq).1) hm]
    refine (h.fits m j hmine).imp (fun _ htold => htold) (fun hmem => hmem) (fun hmem => ?_) rfl
    exact (List.mem_erase_of_ne hm).mpr hmem
  · rcases pc_goto hpcs hq with ⟨_, hnew⟩ | ⟨hj, hold⟩
    · exact absurd (honly m q hnew).2 hne
    · have hmine := h.place j m q hold hne
      refine (h.mem_erase hown).mpr ⟨?_, hmine⟩
      rintro rfl
      exact hj (h.unique hmine hown)
  · rw [goto_evs] at hfd
    obtain ⟨mask, hmask⟩ := Option.ne_none_iff_exists'.mp hfd
    have hmask : Function.update (s.loops j).evs.interest n none fd = some mask := hmask
    obtain ⟨m, rfl, hmine⟩ := h.watched j fd (by
      rw [eq_of_update_none hmask]
      exact Option.some_ne_none mask)
    refine ⟨m, rfl, (h.mem_erase hown).mpr ⟨?_, hmine⟩⟩
    rintro rfl
    rw [Function.update_self] at hmask
    cases hmask
  · rw [goto_batch] at hmem'
    obtain ⟨hmine, hnot⟩ := h.fired j m hmem'
    have hm : m ≠ n := by
      rintro rfl
      obtain rfl := h.unique hmine hown
      exact hnot _ hpc
    refine ⟨(h.mem_erase hown).mpr ⟨hm, hmine⟩, fun q hq => ?_⟩
    rcases pc_goto hpcs hq with ⟨_, hnew⟩ | ⟨_, hold⟩
    · exact hm (honly m q hnew).1
    · exact hnot q hold
  · rw [goto_batch]
    exact h.batches j
  · rw [goto_evs]
    exact h.serves j

/-- A loop that is done with an object, whoever owns that by now. -/
theorem Owning.adjusted (h : s.Owning) (hpc : (s.loops i).pc = .run n .adjust) :
    (s.goto i .idle).Owning := by
  have hstage : ∀ m j, ((s.goto i .idle).loops j).pc.stage m = (s.loops j).pc.stage m := by
    intro m j
    by_cases hj : j = i
    · subst hj
      rw [goto_pc, hpc, Pc.stage_adjust]
      rfl
    · rw [goto_loops_ne _ hj]
  have hpcs : ∀ {j m q}, ((s.goto i .idle).loops j).pc = .run m q →
      (s.loops j).pc = .run m q := by
    intro j m q hq
    rcases pc_goto (fun _ => rfl) hq with ⟨_, hnew⟩ | ⟨_, hold⟩
    · cases hnew
    · exact hold
  refine ⟨h.books, h.count, h.distinct, fun m j hmem => ?_, fun j m q hq hne => ?_,
    fun j fd hfd => ?_, fun j m hmem => ?_, fun j => ?_, fun j => ?_⟩
  · rw [hstage]
    exact (h.fits m j hmem).same rfl rfl
  · exact h.place j m q (hpcs hq) hne
  · rw [goto_evs] at hfd
    exact h.watched j fd hfd
  · rw [goto_batch] at hmem
    obtain ⟨hmine, hnot⟩ := h.fired j m hmem
    exact ⟨hmine, fun q hq => hnot q (hpcs hq)⟩
  · rw [goto_batch]
    exact h.batches j
  · rw [goto_evs]
    exact h.serves j

/-- The registrations of loop `i` change, for `n` at most. -/
theorem Frame.onLoop {f : EventLoop ConnIo → EventLoop ConnIo} {j : Nat}
    (hinterest : ∀ l e, (f l).interest e ≠ none → l.interest e ≠ none ∨ j = i ∧ e = n)
    (hserves : ∀ l, Serves l → Serves (f l)) : Frame s (s.onLoop j f) i n where
  owners := rfl
  pc := onLoop_pc s j f
  batch := onLoop_batch s j f
  watched k fd h := by
    rw [onLoop_evs] at h
    split at h
    next hk =>
      subst hk
      exact hinterest _ fd h
    next => exact .inl h
  serves k h := by
    rw [onLoop_evs]
    split
    · exact hserves _ h
    · exact h
  others k m stage _ _ hfits := hfits.same rfl rfl

/-- A step of a loop in a function of a connection keeps the owners. -/
theorem Owning.does (h : s.Owning) {p : Point} {r : Reply} (hpc : (s.loops i).pc = .run n p)
    (hdoes : Does s i n p r t) : t.Owning := by
  have hmine : p ≠ .adjust → (n, i) ∈ s.owners ∧ s.Fits i n p.stage := by
    intro hp
    have hown := h.place i n p hpc hp
    have hfits := h.fits n i hown
    rw [hpc, Pc.stage_run] at hfits
    exact ⟨hown, hfits⟩
  have hrun : ∀ {q : Point} m q', Pc.run n q = .run m q' → m = n :=
    fun m q' hq => (Pc.run.inj hq).1.symm
  cases hdoes with
  | @goes pc stored hp hlike =>
    obtain ⟨hown, hfits⟩ := hmine hp
    refine h.goto (t := { s with stored := stored }) (.sameLoops rfl rfl fun j m stage _ _ hfits =>
      hfits.same rfl rfl) hpc hown h.books h.count (fun m q hq => (hlike.only m q hq).1) ?_
    rw [hlike.stage]
    exact hfits.same rfl rfl
  | adjusted hp =>
    subst hp
    exact h.adjusted hpc
  | assigns hp =>
    subst hp
    obtain ⟨hown, htold⟩ := hmine nofun
    refine h.goto (t := { s.setConn n ⟨n, some i⟩ with inits := s.inits ++ [n] })
      (.sameLoops rfl rfl fun j m stage hm _ hfits => ?_) hpc hown h.books h.count hrun ?_
    · exact (hfits.setConn hm _).same rfl rfl
    · rw [Pc.stage_run]
      exact ⟨htold, Function.update_self _ _ _⟩
  | @listens connfd j proc mask q hp hstage hconn hlike =>
    obtain ⟨hown, hfits⟩ := hmine hp
    have hconn' : s.conns n = some ⟨n, some i⟩ := by
      rcases hstage with hstage | hstage
      · rw [hstage] at hfits
        exact hfits.2
      · rw [hstage] at hfits
        exact hfits.2
    obtain ⟨rfl, hj⟩ := Conn.mk.inj (Option.some.inj (hconn.symm.trans hconn'))
    obtain rfl := Option.some.inj hj
    refine h.goto (.onLoop (fun l e he => ?_) fun l hl => hl.addIoev n proc mask) hpc hown
      h.books h.count hrun ?_
    · exact (addIoev_interest he).imp_right fun he => ⟨rfl, he⟩
    · rw [hlike.stage]
      exact hfits.same rfl rfl
  | @unlistens j f pc hp hshrinks hlike =>
    obtain ⟨hown, hfits⟩ := hmine hp
    refine h.goto (.onLoop (fun l e he => .inl (hshrinks.interest l e he)) hshrinks.serves) hpc
      hown h.books h.count (fun m q hq => (hlike.only m q hq).1) ?_
    rw [hlike.stage]
    exact hfits.same rfl rfl
  | counts hp hinc =>
    subst hp
    refine h.counts hpc (hmine nofun).1 hinc (fun m q hq => ?_) ?_
    · split at hq
      · cases hq
      · exact (Pc.run.inj hq).1.symm
    · split
      · rfl
      · exact Pc.stage_run n .store
  | cleans hp hstage _ _ =>
    obtain ⟨hown, hfits⟩ := hmine hp
    refine h.goto (t := { s with cleans := s.cleans ++ [n] }) (.sameLoops rfl rfl
      fun j m stage _ _ hfits => hfits.same rfl rfl) hpc hown h.books h.count hrun ?_
    rw [hstage] at hfits
    rw [Pc.stage_run]
    exact hfits.same rfl rfl
  | uncounts hp =>
    subst hp
    exact h.uncounts hpc (hmine nofun).1
  | clearsLoop hp hc =>
    subst hp
    obtain ⟨hown, hmem, l, hl⟩ := hmine nofun
    obtain rfl := Option.some.inj (hc.symm.trans hl)
    refine h.goto (t := s.setConn n _) (.sameLoops rfl rfl fun j m stage hm _ hfits =>
      hfits.setConn hm _) hpc hown h.books h.count hrun ?_
    rw [Pc.stage_run]
    exact ⟨hmem, none, Function.update_self _ _ _⟩
  | takesFd hp hc =>
    subst hp
    obtain ⟨hown, hmem, l, hl⟩ := hmine nofun
    obtain rfl := Option.some.inj (hc.symm.trans hl)
    refine h.goto (t := s.setConn n _) (.sameLoops rfl rfl fun j m stage hm _ hfits =>
      hfits.setConn hm _) hpc hown h.books h.count hrun ?_
    rw [Pc.stage_run]
    exact ⟨hmem, rfl⟩
  | @closes fd adjusts hp =>
    subst hp
    refine h.closes hpc (hmine nofun).1 ?_
    cases adjusts with
    | true => exact .inr rfl
    | false => exact .inl rfl

end Reactor

end EasyReactor.Workers
