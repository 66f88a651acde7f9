import Mathlib.Data.Finset.Card
import EasyReactor.Workers.Handoff

set_option autoImplicit false

/-!
# Workers: counting connections

`_curr_conns` is raised by `init` and lowered by `clean_conn`, which four places call.  As
long as `::accept` does not report `EMFILE`, every connection has one owner at a time, so
`clean_conn` runs once for each `init`, and between callbacks the count is right.
-/

namespace EasyReactor.Workers

open EasyReactor.Foundation EasyReactor.Loop EasyReactor.Acceptor EasyReactor.Acceptor.Server

/-! ## The limit without threads -/

section Server

variable {s s' : Server} {threadCnt : Nat} {maxConns : Int32}

/-- `do_accept` has not closed its reserve, and a loop of its own has not got more connections
than it may have. -/
structure Modest (threadCnt : Nat) (maxConns : Int32) (s : Server) : Prop where
  threadCnt_eq : s.threadCnt = threadCnt
  maxConns_eq : s.maxConns = maxConns
  spares : s.pc ≠ .releasing
  within : threadCnt = 0 → s.currConns ≤ max 0 maxConns.toInt ∧
    ∀ n, s.pc = .handing n → s.currConns < maxConns.toInt

/-- A step after which no connection is in hand. -/
theorem Modest.keep (h : Modest threadCnt maxConns s) (hcnt : s'.threadCnt = s.threadCnt)
    (hmax : s'.maxConns = s.maxConns) (hcurr : s'.currConns ≤ s.currConns)
    (hpc : s'.pc ≠ .releasing) (hhand : ∀ n, s'.pc ≠ .handing n) :
    Modest threadCnt maxConns s' where
  threadCnt_eq := hcnt.trans h.threadCnt_eq
  maxConns_eq := hmax.trans h.maxConns_eq
  spares := hpc
  within hzero := ⟨hcurr.trans (h.within hzero).1, fun n hc => absurd hc (hhand n)⟩

theorem Modest.acceptor (h : Modest threadCnt maxConns s) {sys : AcceptorSys}
    (hemfile : sys.accept ≠ .emfile) (hstep : s.acceptor sys = .ok s') :
    Modest threadCnt maxConns s' := by
  have hcnt := acceptor_threadCnt hstep
  have hmax := (acceptor_setup hstep).2
  cases acceptor_turn hstep with
  | openReserve _ =>
    refine h.keep hcnt hmax ?_ ?_ fun n => ?_
    · exact Int.le_of_eq (openReserve_sameConns s sys.opens _).currConns
    · show (if _ then _ else _) ≠ _
      split <;> nofun
    · show (if _ then _ else _) ≠ _
      split <;> nofun
  | reopening _ =>
    refine h.keep hcnt hmax ?_ nofun nofun
    exact Int.le_of_eq (openReserve_sameConns s sys.opens _).currConns
  | thread _ _ =>
    refine h.keep hcnt hmax (Int.le_refl _) ?_ fun n => ?_
    · show (if _ then _ else _) ≠ _
      split <;> nofun
    · show (if _ then _ else _) ≠ _
      split <;> nofun
  | idle _ | again _ => exact h
  | emfile _ hr _ => exact absurd hr hemfile
  | @take n _ hlt _ =>
    refine ⟨hcnt.trans h.threadCnt_eq, hmax.trans h.maxConns_eq, nofun, fun hzero => ?_⟩
    refine ⟨(h.within hzero).1, fun m _ => ?_⟩
    rw [← h.maxConns_eq]
    exact hlt
  | @hand n s₁ hpc hhand =>
    refine ⟨hcnt.trans h.threadCnt_eq, hmax.trans h.maxConns_eq, nofun, fun hzero => ?_⟩
    obtain ⟨hle, hlt⟩ := h.within hzero
    have hlt := hlt n hpc
    rcases handOver_cases hhand with rfl | ⟨workers, k, rfl, _⟩
    · refine ⟨?_, nofun⟩
      show s.currConns + 1 ≤ max 0 maxConns.toInt
      omega
    · exact ⟨hle, nofun⟩
  | _ => exact h.keep hcnt hmax (Int.le_refl _) nofun nofun

theorem Modest.step (h : Modest threadCnt maxConns s) (hbooks : s.Books) {e : Acceptor.Event}
    (hemfile : ∀ sys, e = .acceptor sys → sys.accept ≠ .emfile) (hstep : s.step e = .ok s') :
    Modest threadCnt maxConns s' := by
  cases he : e.byAcceptor with
  | true =>
    obtain ⟨sys, rfl⟩ := byAcceptor_eq he
    exact h.acceptor (hemfile sys rfl) hstep
  | false =>
    have hsame := step_sameServer he hstep
    have hcurr : threadCnt = 0 → s'.currConns ≤ s.currConns := by
      intro hzero
      cases step_moves he hstep with
      | keep _ _ _ _ hcurr | opens _ _ _ _ _ hcurr | close _ _ _ _ _ hcurr => omega
      | dec _ _ _ _ _ hcurr => omega
      | init _ hwait _ _ _ =>
        -- nothing waits without workers
        have hnil := hbooks.workers_nil (h.threadCnt_eq.trans hzero)
        unfold waiting at hwait
        rw [hnil] at hwait
        have hlen := hwait.length_eq
        simp at hlen
    refine ⟨hsame.threadCnt.trans h.threadCnt_eq, hsame.maxConns.trans h.maxConns_eq, ?_,
      fun hzero => ?_⟩
    · rcases hsame.pc with hpc | ⟨_, hpc⟩
      · rw [hpc]
        exact h.spares
      · rw [hpc]
        nofun
    · obtain ⟨hle, hlt⟩ := h.within hzero
      have hcurr := hcurr hzero
      refine ⟨hcurr.trans hle, fun n hn => ?_⟩
      rcases hsame.pc with hpc | ⟨_, hpc⟩
      · exact Int.lt_of_le_of_lt hcurr (hlt n (hpc.symm.trans hn))
      · rw [hpc] at hn
        cases hn

end Server

/-- `::accept` does not report `EMFILE`. -/
def Event.NoEmfile : Event → Prop
  | .acceptor sys => sys.accept ≠ .emfile
  | _ => True

instance (e : Event) : Decidable e.NoEmfile :=
  match e with
  | .acceptor _ => inferInstanceAs (Decidable (_ ≠ _))
  | .doAccept | .startWorker _ | .recvMsg _ | .takeMsg _ | .poll _ _ | .dispatch _
  | .advance _ _ => .isTrue trivial

namespace Reactor

variable {s t : Reactor} {i n : Nat}

/-- The calls of `init` and `clean_conn`, object by object: an object in use has been
initialised once more than cleaned, until its owner calls `clean_conn`. -/
structure Ledger (s : Reactor) : Prop where
  booked : ∀ n i, (n, i) ∈ s.owners →
    s.inits.count n = s.cleans.count n + if (s.loops i).pc.live n then 1 else 0
  free : ∀ n, n ∉ s.owners.map Prod.fst → s.inits.count n = s.cleans.count n
  counted : ∀ n ∈ s.server.counted, ∃ i, (n, i) ∈ s.owners

theorem live_goto {p : Point} {pc : Pc} (hpcs : ∀ j, (t.loops j).pc = (s.loops j).pc)
    (hpc : (s.loops i).pc = .run n p) (honly : ∀ m q, pc = .run m q → m = n) {m : Nat}
    (hm : m ≠ n) (j : Nat) :
    ((t.goto i pc).loops j).pc.live m = (s.loops j).pc.live m := by
  by_cases hj : j = i
  · subst hj
    rw [goto_pc, hpc, Pc.live_ne fun q hq => hm (honly m q hq),
      Pc.live_ne fun q hq => hm (Pc.run.inj hq).1.symm]
  · rw [goto_loops_ne pc hj, hpcs]

/-- The loop goes on to its next point. -/
theorem Ledger.goto (h : s.Ledger) (ho : s.Owning) {p : Point} {pc : Pc}
    (hpc : (s.loops i).pc = .run n p) (hown : (n, i) ∈ s.owners)
    (hpcs : ∀ j, (t.loops j).pc = (s.loops j).pc) (howners : t.owners = s.owners)
    (honly : ∀ m q, pc = .run m q → m = n)
    (hothers : ∀ m, m ≠ n → t.inits.count m = s.inits.count m ∧
      t.cleans.count m = s.cleans.count m)
    (hself : t.inits.count n = t.cleans.count n + if pc.live n then 1 else 0)
    (hcounted : ∀ m ∈ t.server.counted, m ∈ s.server.counted ∨ m = n) :
    (t.goto i pc).Ledger where
  booked m j hmem := by
    have hmem : (m, j) ∈ t.owners := hmem
    rw [howners] at hmem
    show t.inits.count m = t.cleans.count m + _
    by_cases hm : m = n
    · subst hm
      obtain rfl := ho.unique hmem hown
      rw [goto_pc]
      exact hself
    · obtain ⟨hinits, hcleans⟩ := hothers m hm
      rw [hinits, hcleans, live_goto hpcs hpc honly hm]
      exact h.booked m j hmem
  free m hmem := by
    have hmem : m ∉ t.owners.map Prod.fst := hmem
    rw [howners] at hmem
    have hm : m ≠ n := by
      rintro rfl
      exact hmem (List.mem_map_of_mem hown)
    obtain ⟨hinits, hcleans⟩ := hothers m hm
    show t.inits.count m = t.cleans.count m
    rw [hinits, hcleans]
    exact h.free m hmem
  counted m hmem := by
    show ∃ j, (m, j) ∈ t.owners
    rw [howners]
    rcases hcounted m hmem with hold | rfl
    · exact h.counted m hold
    · exact ⟨i, hown⟩

/-- The owner gives the object up. -/
theorem Ledger.closes (h : s.Ledger) (ho : s.Owning) {fd : Int} {adjusts : Bool} {pc : Pc}
    (hpc : (s.loops i).pc = .run n (.clean (.close fd) adjusts)) (hown : (n, i) ∈ s.owners)
    (honly : ∀ m q, pc = .run m q → m = n) : ((s.close i n fd).goto i pc).Ledger where
  booked m j hmem := by
    obtain ⟨hm, hmine⟩ := (ho.mem_erase hown).mp hmem
    rw [live_goto (t := s.close i n fd) (fun _ => rfl) hpc honly hm]
    exact h.booked m j hmine
  free m hmem := by
    show s.inits.count m = s.cleans.count m
    by_cases hm : m = n
    · subst hm
      have hbooked := h.booked m i hown
      rw [hpc, Pc.live_run] at hbooked
      exact hbooked
    · refine h.free m fun hold => hmem ?_
      obtain ⟨⟨k, j⟩, hmine, rfl⟩ := List.mem_map.mp hold
      exact List.mem_map_of_mem ((ho.mem_erase hown).mpr ⟨hm, hmine⟩)
  counted m hmem := by
    obtain ⟨j, hmine⟩ := h.counted m hmem
    refine ⟨j, (ho.mem_erase hown).mpr ⟨?_, hmine⟩⟩
    rintro rfl
    -- it is being closed, so it is not counted
    have hfits := ho.fits m i hown
    rw [hpc, Pc.stage_run] at hfits
    have hnodup := ho.books.numbered.conns.nodup
    unfold Server.conns at hnodup
    have hdisjoint := List.disjoint_of_nodup_append hnodup.of_append_right
    exact hdisjoint (List.mem_append_right _ hmem) hfits.1

theorem Ledger.adjusted (h : s.Ledger) (hpc : (s.loops i).pc = .run n .adjust) :
    (s.goto i .idle).Ledger where
  booked m j hmem := by
    have hlive : ((s.goto i .idle).loops j).pc.live m = (s.loops j).pc.live m := by
      by_cases hj : j = i
      · subst hj
        rw [goto_pc, hpc]
        exact (ite_self _).symm
      · rw [goto_loops_ne _ hj]
    rw [hlive]
    exact h.booked m j hmem
  free := h.free
  counted := h.counted

/-- A step of a loop in a function of a connection keeps the ledger. -/
theorem Ledger.does (h : s.Ledger) (ho : s.Owning) {p : Point} {r : Reply}
    (hpc : (s.loops i).pc = .run n p) (hdoes : Does s i n p r t) : t.Ledger := by
  have hmine : p ≠ .adjust → (n, i) ∈ s.owners ∧
      s.inits.count n = s.cleans.count n + if p.live then 1 else 0 := by
    intro hp
    have hown := ho.place i n p hpc hp
    have hbooked := h.booked n i hown
    rw [hpc, Pc.live_run] at hbooked
    exact ⟨hown, hbooked⟩
  have hrun : ∀ {q : Point} m q', Pc.run n q = .run m q' → m = n :=
    fun m q' hq => (Pc.run.inj hq).1.symm
  have hkeep : ∀ m, m ≠ n → s.inits.count m = s.inits.count m ∧
      s.cleans.count m = s.cleans.count m := fun _ _ => ⟨rfl, rfl⟩
  have hold : ∀ m ∈ s.server.counted, m ∈ s.server.counted ∨ m = n := fun _ hmem => .inl hmem
  have happend : ∀ {l : List Nat} {m : Nat}, m ≠ n → (l ++ [n]).count m = l.count m := by
    intro l m hm
    rw [List.count_append, List.count_singleton, if_neg (by simpa using hm.symm), Nat.add_zero]
  cases hdoes with
  | @goes pc stored hp hlike =>
    obtain ⟨hown, hbooked⟩ := hmine hp
    refine h.goto (t := { s with stored := stored }) ho hpc hown (fun _ => rfl) rfl
      (fun m q hq => (hlike.only m q hq).1) hkeep ?_ hold
    rw [hlike.live]
    exact hbooked
  | adjusted hp =>
    subst hp
    exact h.adjusted hpc
  | assigns hp =>
    subst hp
    obtain ⟨hown, hbooked⟩ := hmine nofun
    refine h.goto (t := { s.setConn n ⟨n, some i⟩ with inits := s.inits ++ [n] }) ho hpc hown
      (fun _ => rfl) rfl hrun (fun m hm => ⟨happend hm, rfl⟩) ?_ hold
    show (s.inits ++ [n]).count n = s.cleans.count n + _
    rw [List.count_append, List.count_singleton_self, hbooked, Pc.live_run]
    rfl
  | listens hp _ _ hlike =>
    obtain ⟨hown, hbooked⟩ := hmine hp
    refine h.goto ho hpc hown (onLoop_pc _ _ _) rfl hrun hkeep ?_ hold
    rw [hlike.live]
    exact hbooked
  | unlistens hp _ hlike =>
    obtain ⟨hown, hbooked⟩ := hmine hp
    refine h.goto ho hpc hown (onLoop_pc _ _ _) rfl (fun m q hq => (hlike.only m q hq).1) hkeep
      ?_ hold
    rw [hlike.live]
    exact hbooked
  | @counts server hp hinc =>
    subst hp
    obtain ⟨hown, hbooked⟩ := hmine nofun
    have hfits := ho.fits n i hown
    rw [hpc, Pc.stage_run] at hfits
    refine h.goto (t := { s with server := server }) ho hpc hown (fun _ => rfl) rfl
      (fun m q hq => ?_) hkeep ?_ fun m hmem => ?_
    · split at hq
      · cases hq
      · exact hrun m q hq
    · split
      · exact hbooked
      · rw [Pc.live_run]
        exact hbooked
    · have hmem : m ∈ server.counted := hmem
      rw [(incConn_cases hfits.1 hinc).1] at hmem
      exact (List.mem_append.mp hmem).imp_right List.mem_singleton.mp
  | cleans hp _ hlive _ =>
    obtain ⟨hown, hbooked⟩ := hmine hp
    refine h.goto (t := { s with cleans := s.cleans ++ [n] }) ho hpc hown (fun _ => rfl) rfl hrun
      (fun m hm => ⟨rfl, happend hm⟩) ?_ hold
    rw [hlive] at hbooked
    show s.inits.count n = (s.cleans ++ [n]).count n + _
    rw [List.count_append, List.count_singleton_self, hbooked, Pc.live_run]
    rfl
  | uncounts hp =>
    subst hp
    obtain ⟨hown, hbooked⟩ := hmine nofun
    refine h.goto (t := s.decConn n) ho hpc hown (fun _ => rfl) rfl hrun hkeep ?_
      fun m hmem => .inl (List.mem_of_mem_erase hmem)
    rw [Pc.live_run]
    exact hbooked
  | clearsLoop hp _ | takesFd hp _ =>
    subst hp
    obtain ⟨hown, hbooked⟩ := hmine nofun
    refine h.goto (t := s.setConn n _) ho hpc hown (fun _ => rfl) rfl hrun hkeep ?_ hold
    rw [Pc.live_run]
    exact hbooked
  | @closes fd adjusts hp =>
    subst hp
    refine h.closes ho hpc (hmine nofun).1 fun m q hq => ?_
    split at hq
    · exact hrun m q hq
    · cases hq

/-- An idle loop that starts with an object lives up to the others as before. -/
theorem live_starts {p : Point} (hpcs : ∀ j, (t.loops j).pc = (s.loops j).pc)
    (hidle : (s.loops i).pc = .idle) {m : Nat} (hm : m ≠ n ∨ p.live = true) (j : Nat) :
    ((t.goto i (.run n p)).loops j).pc.live m = (s.loops j).pc.live m := by
  by_cases hj : j = i
  · subst hj
    rw [goto_pc, hidle]
    show (if n = m then p.live else true) = true
    split
    next heq =>
      rcases hm with hm | hlive
      · exact absurd heq.symm hm
      · exact hlive
    next => rfl
  · rw [goto_loops_ne _ hj, hpcs]

theorem Ledger.shift (h : s.Ledger) (ho : s.Owning) (hshift : Shift s t) : t.Ledger := by
  cases hshift with
  | still hstill =>
    refine ⟨fun m j hmem => ?_, fun m hmem => ?_, fun m hmem => ?_⟩
    · rw [hstill.owners] at hmem
      rw [hstill.inits, hstill.cleans, hstill.pc]
      exact h.booked m j hmem
    · rw [hstill.owners] at hmem
      rw [hstill.inits, hstill.cleans]
      exact h.free m hmem
    · rw [hstill.counted] at hmem
      rw [hstill.owners]
      exact h.counted m hmem
  | @takes i n hidle htold =>
    have hnew := ho.not_owned hidle htold
    refine ⟨fun m j hmem => ?_, fun m hmem => ?_, fun m hmem => ?_⟩
    · show s.inits.count m = s.cleans.count m + _
      rcases List.mem_append.mp hmem with hold | hmem
      · have hm : m ≠ n := by
          rintro rfl
          exact hnew (List.mem_map_of_mem hold)
        rw [Reactor.take, live_starts (t := { s with owners := s.owners ++ [(n, i)] })
          (fun _ => rfl) hidle (.inl hm)]
        exact h.booked m j hold
      · obtain ⟨rfl, rfl⟩ := Prod.mk.inj (List.mem_singleton.mp hmem)
        rw [Reactor.take, goto_pc, Pc.live_run]
        exact h.free m hnew
    · refine h.free m fun hold => hmem ?_
      show m ∈ (s.owners ++ [(n, i)]).map Prod.fst
      rw [List.map_append]
      exact List.mem_append_left _ hold
    · obtain ⟨j, hmine⟩ := h.counted m hmem
      exact ⟨j, List.mem_append_left _ hmine⟩
  | @calls u i n p hstill hidle hp =>
    have hlive : p.live = true := by
      rcases hp with rfl | rfl
      · rfl
      · rfl
    refine ⟨fun m j hmem => ?_, fun m hmem => ?_, fun m hmem => ?_⟩
    · have hmem : (m, j) ∈ u.owners := hmem
      rw [hstill.owners] at hmem
      rw [live_starts hstill.pc hidle (.inr hlive)]
      show u.inits.count m = u.cleans.count m + _
      rw [hstill.inits, hstill.cleans]
      exact h.booked m j hmem
    · have hmem : m ∉ u.owners.map Prod.fst := hmem
      rw [hstill.owners] at hmem
      show u.inits.count m = u.cleans.count m
      rw [hstill.inits, hstill.cleans]
      exact h.free m hmem
    · have hmem : m ∈ u.server.counted := hmem
      rw [hstill.counted] at hmem
      show ∃ j, (m, j) ∈ u.owners
      rw [hstill.owners]
      exact h.counted m hmem

theorem Ledger.step (h : s.Ledger) (ho : s.Owning) {e : Event} (hstep : s.step e = .ok t) :
    t.Ledger := by
  rcases step_shift ho hstep with hshift | ⟨i, r, n, p, _, hpc, hdoes⟩
  · exact h.shift ho hshift
  · exact h.does ho hpc hdoes

/-! ## Between callbacks -/

/-- The objects that have been initialised and not cleaned. -/
def live (s : Reactor) : Finset Nat :=
  s.inits.toFinset.filter fun n => s.cleans.count n < s.inits.count n

/-- No loop is in a function of a connection. -/
def Quiet (s : Reactor) : Prop := ∀ i, (s.loops i).pc = .idle

theorem Ledger.mem_live (h : s.Ledger) (ho : s.Owning) (hquiet : s.Quiet) :
    n ∈ s.live ↔ n ∈ s.server.counted := by
  unfold live
  rw [Finset.mem_filter, List.mem_toFinset]
  constructor
  · rintro ⟨_, hlt⟩
    by_cases hown : n ∈ s.owners.map Prod.fst
    · obtain ⟨⟨m, i⟩, hmine, rfl⟩ := List.mem_map.mp hown
      have hfits := ho.fits m i hmine
      rw [hquiet i] at hfits
      exact hfits.1
    · rw [h.free n hown] at hlt
      exact absurd hlt (Nat.lt_irrefl _)
  · intro hmem
    obtain ⟨i, hmine⟩ := h.counted n hmem
    have hbooked := h.booked n i hmine
    rw [hquiet i] at hbooked
    have hbooked : s.inits.count n = s.cleans.count n + 1 := hbooked
    exact ⟨List.count_pos_iff.mp (by omega), by omega⟩

theorem Ledger.exact (h : s.Ledger) (ho : s.Owning) (hquiet : s.Quiet) :
    s.server.currConns = s.live.card := by
  have hnodup : s.server.counted.Nodup := by
    have hnodup := ho.books.numbered.conns.nodup
    unfold Server.conns at hnodup
    exact ((hnodup.of_append_right).of_append_left).of_append_right
  have hlive : s.live = s.server.counted.toFinset := by
    ext n
    rw [h.mem_live ho hquiet, List.mem_toFinset]
  rw [hlive, List.toFinset_card_of_nodup hnodup, ho.count]

theorem Ledger.cleaned_once (h : s.Ledger) (n : Nat) :
    s.cleans.count n ≤ s.inits.count n ∧ s.inits.count n ≤ s.cleans.count n + 1 := by
  by_cases hown : n ∈ s.owners.map Prod.fst
  · obtain ⟨⟨m, i⟩, hmine, rfl⟩ := List.mem_map.mp hown
    have hbooked := h.booked m i hmine
    show s.cleans.count m ≤ s.inits.count m ∧ s.inits.count m ≤ s.cleans.count m + 1
    split at hbooked
    · omega
    · omega
  · have hfree := h.free n hown
    omega

/-! ## Runs -/

/-- The server takes no step, or one of its own in which `::accept` does not report
`EMFILE`. -/
def ServerMoves (s t : Reactor) : Prop :=
  t.server = s.server ∨ ∃ e, s.server.step e = .ok t.server ∧
    ∀ sys, e = .acceptor sys → sys.accept ≠ .emfile

theorem does_server (h : s.Owning) {p : Point} {r : Reply} (hpc : (s.loops i).pc = .run n p)
    (hdoes : Does s i n p r t) : ServerMoves s t := by
  cases hdoes with
  | @counts server _ hinc =>
    refine .inr ?_
    unfold incConn at hinc
    split at hinc
    · refine ⟨_, hinc, fun sys hsys => ?_⟩
      obtain rfl := Acceptor.Event.acceptor.inj hsys
      nofun
    · exact ⟨_, hinc, nofun⟩
  | uncounts hp =>
    subst hp
    have hfits := h.fits n i (h.place i n _ hpc nofun)
    rw [hpc, Pc.stage_run] at hfits
    exact .inr ⟨_, decConn_step hfits.1, nofun⟩
  | closes hp =>
    subst hp
    have hfits := h.fits n i (h.place i n _ hpc nofun)
    rw [hpc, Pc.stage_run] at hfits
    obtain ⟨hmem, rfl⟩ := hfits
    exact .inr ⟨_, close_step i hmem, nofun⟩
  | _ => exact .inl rfl

theorem acceptor_server {sys : AcceptorSys} (hstep : s.acceptor sys = .ok t) :
    s.server.acceptor sys = .ok t.server := by
  obtain ⟨server, hserver, hstep⟩ := bind_eq_ok.mp hstep
  obtain rfl := Except.ok.inj hstep
  exact hserver

theorem dispatch_server {fd : Int} {ready : Ready} (hstep : s.dispatch i fd ready = .ok t) :
    t.server = s.server := by
  have hinvoke : ∀ {cb args}, s.invoke i cb args = .ok t → t.server = s.server := by
    intro cb args h
    obtain ⟨_, n, p, _, _, rfl⟩ := invoke_cases h
    rfl
  unfold Reactor.dispatch at hstep
  split at hstep
  · cases hstep
  split at hstep
  · exact hinvoke hstep
  · exact hinvoke hstep
  · split at hstep
    · exact hinvoke hstep
    · split at hstep
      · exact hinvoke hstep
      · obtain rfl := Except.ok.inj hstep
        rfl

/-- Every step of every thread is a step of the server, or none. -/
theorem step_server (h : s.Owning) {e : Event} (hemfile : e.NoEmfile)
    (hstep : s.step e = .ok t) : ServerMoves s t := by
  cases step_moved h.books hstep with
  | none => exact .inl rfl
  | @acceptor sys _ he _ hacceptor =>
    subst he
    refine .inr ⟨.acceptor sys, acceptor_server hacceptor, fun sys' hsys => ?_⟩
    obtain rfl := Acceptor.Event.acceptor.inj hsys
    exact hemfile
  | server he hserver _ _ _ _ =>
    refine .inr ⟨_, hserver, fun sys hsys => ?_⟩
    rw [hsys] at he
    cases he
  | takes _ _ => exact .inl rfl
  | polls _ _ => exact .inl rfl
  | @dispatches i fd ready batch _ _ _ hdispatch =>
    exact .inl (dispatch_server (s := s.setBatch i batch) hdispatch)
  | does _ hpc hdoes => exact does_server h hpc hdoes

/-- Everything that holds in every state that is reached without an `EMFILE`. -/
structure Kept (threadCnt : Nat) (maxConns : Int32) (s : Reactor) : Prop where
  owning : s.Owning
  ledger : s.Ledger
  modest : Modest threadCnt maxConns s.server

theorem Kept.step {threadCnt : Nat} {maxConns : Int32} (h : Kept threadCnt maxConns s) {e : Event}
    (hemfile : e.NoEmfile) (hstep : s.step e = .ok t) : Kept threadCnt maxConns t where
  owning := by
    refine h.owning.step ?_ hstep
    cases e with
    | acceptor sys => exact fun hpc => absurd hpc h.modest.spares
    | _ => trivial
  ledger := h.ledger.step h.owning hstep
  modest := by
    rcases step_server h.owning hemfile hstep with hserver | ⟨e', hserver, he'⟩
    · rw [hserver]
      exact h.modest
    · exact h.modest.step h.owning.books he' hserver

theorem start_kept (limit : Nat) (isOpen : Nat → Bool) (threadCnt : Nat) (maxConns : Int32) :
    Kept threadCnt maxConns (start limit isOpen threadCnt maxConns) where
  owning := start_owning limit isOpen threadCnt maxConns
  ledger := ⟨nofun, fun _ _ => rfl, nofun⟩
  modest := ⟨rfl, rfl, nofun, fun _ => ⟨Int.le_max_left _ _, nofun⟩⟩

/-- What the count says. -/
structure Accounted (threadCnt : Nat) (maxConns : Int32) (s : Reactor) : Prop where
  /-- `clean_conn` follows each `init` of an object once at most, before the next -/
  cleaned_once : ∀ n, s.cleans.count n ≤ s.inits.count n ∧
    s.inits.count n ≤ s.cleans.count n + 1
  exact : s.Quiet → s.server.currConns = s.live.card
  nonneg : 0 ≤ s.server.currConns
  limit : threadCnt = 0 → s.server.currConns ≤ max 0 maxConns.toInt

/-- **The connection count.**  In every run in which `::accept` does not report `EMFILE`,
`clean_conn` runs once at most for each `init`, `_curr_conns` is never negative, is the
number of the objects initialised and not cleaned when no loop is in a callback of a
connection, and without threads never above `_max_conns`, or 0 if that is negative. -/
theorem accounted (limit : Nat) (isOpen : Nat → Bool) (threadCnt : Nat) (maxConns : Int32)
    (evs : List Event) (hemfile : ∀ e ∈ evs, e.NoEmfile) :
    Ends (run limit isOpen threadCnt maxConns evs) (Accounted threadCnt maxConns)
      (fun _ => True) := by
  have hend : Ends (run limit isOpen threadCnt maxConns evs) (Kept threadCnt maxConns)
      (fun _ => True) := by
    refine Ends.foldlM (P := fun _ s => Kept threadCnt maxConns s)
      (fun done e post s hevs h => ?_) (start_kept limit isOpen threadCnt maxConns)
    have he : e ∈ evs := by
      rw [hevs]
      exact List.mem_append_right _ List.mem_cons_self
    exact .intro (fun t ht => h.step (hemfile e he) ht) (fun _ _ => trivial)
  refine hend.imp (fun s h => ?_) fun _ h => h
  refine ⟨h.ledger.cleaned_once, h.ledger.exact h.owning, ?_, fun hzero =>
    (h.modest.within hzero).1⟩
  rw [h.owning.count]
  exact Int.natCast_nonneg _

/-- The constructor without threads, and a call of `do_accept`. -/
def noThreads : List Event := List.replicate 4 (acceptorStep .eagain) ++ [.doAccept]

/-- Without threads `do_accept` initialises the connection itself. -/
def takeOwn : List Event :=
  handConn ++ List.replicate 9 (goesOn 0 false) ++ [goesOn 0 true, acceptorStep .eagain]

/-- A connection comes, sends half a frame, and goes. -/
def visit : List Event :=
  noThreads ++ takeOwn ++ readHead 0 5 ++ [goesOn 0 false, goesOn 0 true, goesOn 0 false] ++
    hangUp 0 5

theorem accounted_visit :
    Ends (run 20 (· < 3) 0 3 visit) (Accounted 0 3) (fun _ => True) :=
  accounted 20 (· < 3) 0 3 visit (by decide)

theorem accounted_negative :
    ¬ ∀ (limit : Nat) (isOpen : Nat → Bool) (threadCnt : Nat) (maxConns : Int32)
      (evs : List Event), (∀ e ∈ evs, e.NoEmfile) →
        Ends (run limit isOpen threadCnt maxConns evs)
          (fun s => (∀ n, s.cleans.count n ≤ s.inits.count n) ∧
            (s.Quiet → s.server.currConns = s.live.card) ∧ 0 ≤ s.server.currConns ∧
              (threadCnt = 0 → s.server.currConns ≤ maxConns.toInt))
          (fun _ => True) := by
  intro hall
  have hobs : (run 20 (· < 3) 0 (-1) noThreads).toOption.map (fun s => s.server.currConns) =
      some 0 := by decide +kernel
  have hcount := hall 20 (· < 3) 0 (-1) noThreads (by decide)
  obtain ⟨s, hrun, hcurr⟩ := ok_of_observed hobs
  obtain ⟨_, _, _, hlimit⟩ := hcount.of_ok hrun
  have hle := hlimit rfl
  rw [hcurr] at hle
  exact absurd hle (by decide)

end Reactor

end EasyReactor.Workers
