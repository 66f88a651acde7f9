import EasyReactor.Timer.Ledger
import EasyReactor.Timer.Notifier

set_option autoImplicit false

/-!
# Timer: how long a timer id is good for

`get_timo` puts a periodic timer back through `add_timer`, which gives it the next
id.  The id that `run_every` returned is therefore the timer's id until its first
expiry and nobody's afterwards: later calls of `del_timer` with it are logged as
unknown ids, and the timer goes on.

The timers of a run are told apart by the number of the call that added them, as in
the ledger.
-/

namespace EasyReactor.Timer

open EasyReactor.Foundation

variable {κ δ : Type}

theorem share_eq_nil_iff {i : Nat} {evs : List (TimerEvent κ (δ × Nat))} :
    share i (evs.map TimerEvent.payload) = [] ↔ ∀ e ∈ evs, e.cbData.2 ≠ i := by
  simp only [share, List.map_eq_nil_iff, List.filter_eq_nil_iff, List.forall_mem_map,
    decide_eq_true_eq]
  rfl

namespace TimerQueue

/-- Re-adding gives each timer an id that was never handed out before. -/
theorem readd_ids : ∀ (reuse : List (TimerEvent κ δ)) {n : Nat} {q q' : TimerQueue κ δ},
    Inv n q → reuse.foldlM (fun q te => Prod.snd <$> q.addTimer te) q = .ok q' →
    ∀ e ∈ q'.eventLst, e ∈ q.eventLst ∨
      ∃ te ∈ reuse, ∃ k, n ≤ k ∧ k < n + reuse.length ∧
        e = { te with timerId := Int32.ofNat k } := by
  intro reuse
  induction reuse with
  | nil =>
    intro n q q' _ hadd e he
    obtain rfl := Except.ok.inj hadd
    exact .inl he
  | cons te rest ih =>
    intro n q q' hinv hadd e he
    obtain ⟨q₁, h₁, hinv₁, hperm⟩ := addTimer_spec hinv te
    rw [List.foldlM_cons, h₁] at hadd
    rcases ih hinv₁ hadd e he with hlive | ⟨te', hte', k, hlo, hhi, heq⟩
    · rcases List.mem_cons.mp (hperm.subset hlive) with rfl | hold
      · refine .inr ⟨te, List.mem_cons_self, n, Nat.le_refl n, ?_, by rw [hinv.next]⟩
        rw [List.length_cons]
        omega
      · exact .inl hold
    · refine .inr ⟨te', List.mem_cons_of_mem te hte', k, by omega, ?_, heq⟩
      rw [List.length_cons]
      omega

/-- `get_timo` delivers `evs`, leaves the others as they are, ids included, and gives
the periodic timers among `evs` new ids. -/
theorem getTimo_ids {n : Nat} {q q' : TimerQueue κ δ} {evs : List (TimerEvent κ δ)}
    (hinv : Inv n q) (h : q.getTimo [] = .ok (evs, q')) :
    ∃ rest, (evs ++ rest).Perm q.eventLst ∧
      ∀ e ∈ q'.eventLst, e ∈ rest ∨
        ∃ te ∈ reused evs, ∃ k, n ≤ k ∧ k < n + (reused evs).length ∧
          e = { te with timerId := Int32.ofNat k } := by
  obtain ⟨q₁, reuse, q₂, hloop, hadd, hset⟩ := getTimo_cases h
  obtain ⟨_, _, hloop', hinv₁, hpops⟩ := getTimoLoop_spec hinv [] []
  obtain ⟨rfl, hlists⟩ := Prod.mk.inj (Except.ok.inj (hloop'.symm.trans hloop))
  obtain ⟨rfl, rfl⟩ := Prod.mk.inj hlists
  have hids := readd_ids _ hinv₁ hadd
  rcases hset with ⟨_, rfl⟩ | ⟨_, _, _, rfl⟩
  · exact ⟨_, hpops.perm, hids⟩
  · exact ⟨_, hpops.perm, hids⟩

end TimerQueue

namespace TimerRun

open TimerQueue

/-- Call `i` is an `add_timer`, and `id` is what it returned. -/
def Returned (ops : List (TimerOp κ δ)) (i : Nat) (id : Int32) : Prop :=
  ∃ te r q, ops[i]? = some (.addTimer te) ∧ run (ops.take i) = .ok r ∧
    r.queue.addTimer te = .ok (id, q)

theorem Returned.of_concat {ops : List (TimerOp κ δ)} {op : TimerOp κ δ} {i : Nat} {id : Int32}
    (h : Returned (ops ++ [op]) i id) :
    Returned ops i id ∨ (i = ops.length ∧ ∃ te r q, op = .addTimer te ∧ run ops = .ok r ∧
      r.queue.addTimer te = .ok (id, q)) := by
  obtain ⟨te, r, q, hi, hr, hadd⟩ := h
  rcases getElem?_concat_cases hi with ⟨hlt, hi⟩ | ⟨rfl, hop⟩
  · rw [List.take_append_of_le_length (Nat.le_of_lt hlt)] at hr
    exact .inl ⟨te, r, q, hi, hr, hadd⟩
  · rw [List.take_left'] at hr
    · exact .inr ⟨rfl, te, r, q, hop, hr, hadd⟩
    · rfl

/-- The timer of call `i` has the id `id = k` until it is delivered, and a later one
afterwards. -/
structure Handled (i : Nat) (id : Int32) (k : Nat) (t : TimerRun κ (δ × Nat)) : Prop where
  issued : id = Int32.ofNat k ∧ k < t.issued
  fresh : share i (t.fired.map TimerEvent.payload) = [] →
    ∀ e ∈ t.queue.eventLst, e.cbData.2 = i → e.timerId = id
  renewed : share i (t.fired.map TimerEvent.payload) ≠ [] →
    ∀ e ∈ t.queue.eventLst, e.cbData.2 = i →
      ∃ k', k < k' ∧ k' < t.issued ∧ e.timerId = Int32.ofNat k'

/-- A call that is not call `i` itself keeps the id of call `i`'s timer, or delivers the
timer and gives it a later one. -/
theorem Handled.step {ops : List (TimerOp κ δ)} {t t' : TimerRun κ (δ × Nat)} {i k : Nat}
    {id : Int32} (h : Handled i id k t) (hinv : Inv t.issued t.queue) (hacc : Accounted ops t)
    {te : TimerEvent κ δ} (hi : ops[i]? = some (.addTimer te)) {op : TimerOp κ (δ × Nat)}
    (hop : ∀ e, op = .addTimer e → e.cbData.2 ≠ i) (hstep : t.step op = .ok t') :
    Handled i id k t' := by
  obtain ⟨n, hshare⟩ := hacc.added i te hi
  cases step_cases hstep with
  | @addTimer e id' q' hadd =>
    obtain ⟨_, hadd', _, hperm⟩ := addTimer_spec hinv e
    obtain ⟨_, rfl⟩ := Prod.mk.inj (Except.ok.inj (hadd.symm.trans hadd'))
    have hold : ∀ e' ∈ q'.eventLst, e'.cbData.2 = i → e' ∈ t.queue.eventLst := by
      intro e' he' hnum
      rcases List.mem_cons.mp (hperm.subset he') with rfl | hmem
      · exact absurd hnum (hop e rfl)
      · exact hmem
    refine ⟨⟨h.issued.1, Nat.lt_succ_of_lt h.issued.2⟩, fun hnil e' he' hnum => ?_,
      fun hne e' he' hnum => ?_⟩
    · exact h.fresh hnil e' (hold e' he' hnum) hnum
    · obtain ⟨k', hlo, hhi, hid⟩ := h.renewed hne e' (hold e' he' hnum) hnum
      exact ⟨k', hlo, Nat.lt_succ_of_lt hhi, hid⟩
  | delTimer hdel =>
    exact ⟨h.issued, fun hnil e he => h.fresh hnil e (delTimer_live hinv hdel he),
      fun hne e he => h.renewed hne e (delTimer_live hinv hdel he)⟩
  | @getTimo evs q' hget =>
    obtain ⟨rest, hperm, hids⟩ := getTimo_ids hinv hget
    have hlive := share_perm i (hperm.map TimerEvent.payload)
    rw [List.map_append, share_append] at hlive
    have hissued : k < t.issued + (reused evs).length := Nat.lt_add_right _ h.issued.2
    refine ⟨⟨h.issued.1, hissued⟩, fun hnil e he hnum => ?_, fun hne e he hnum => ?_⟩
    · -- not delivered by now, so it is one of the timers left as they were
      rw [List.map_append, share_append] at hnil
      obtain ⟨hF, hE⟩ := List.append_eq_nil_iff.mp hnil
      rcases hids e he with hrest | ⟨e', he', _, _, _, rfl⟩
      · exact h.fresh hF e (hperm.subset (List.mem_append_right evs hrest)) hnum
      · obtain ⟨e'', hmem, rfl⟩ := List.mem_map.mp he'
        exact absurd hnum (share_eq_nil_iff.mp hE e'' (List.mem_filter.mp hmem).1)
    · rw [List.map_append, share_append] at hne
      rcases hids e he with hrest | ⟨e', he', k', hlo, hhi, rfl⟩
      · -- it is live and was not delivered by this call, so it was delivered before
        have hE : share i (evs.map TimerEvent.payload) = [] := by
          have hR : share i (rest.map TimerEvent.payload) ≠ [] := hnum ▸ share_ne_nil hrest
          rcases hshare.pending with hL | ⟨hL, _⟩
          · rw [hL] at hlive
            exact (List.append_eq_nil_iff.mp hlive.eq_nil).1
          · rw [hL] at hlive
            rcases List.append_eq_singleton_iff.mp (List.perm_singleton.mp hlive) with
              ⟨hE, _⟩ | ⟨_, hR'⟩
            · exact hE
            · exact absurd hR' hR
        rw [hE, List.append_nil] at hne
        obtain ⟨k', hlo, hhi, hid⟩ :=
          h.renewed hne e (hperm.subset (List.mem_append_right evs hrest)) hnum
        exact ⟨k', hlo, Nat.lt_add_right _ hhi, hid⟩
      · exact ⟨k', Nat.lt_of_lt_of_le h.issued.2 hlo, hhi, rfl⟩

/-- Call `ops.length` itself: nothing carried its number before. -/
theorem Handled.added {ops : List (TimerOp κ δ)} {t t' : TimerRun κ (δ × Nat)}
    (hinv : Inv t.issued t.queue) (hacc : Accounted ops t) (te : TimerEvent κ δ)
    (hstep : t.step (.addTimer (te.map fun d => (d, ops.length))) = .ok t') :
    Handled ops.length t.queue.nextTimerId t.issued t' := by
  obtain ⟨q', hadd, _, hperm⟩ := addTimer_spec hinv (te.map fun d => (d, ops.length))
  rw [TimerRun.step, hadd, ok_bind] at hstep
  obtain rfl := Except.ok.inj hstep
  obtain ⟨hF, hL⟩ := hacc.other ops.length (by simp)
  refine ⟨⟨hinv.next, Nat.lt_succ_self _⟩, fun _ e he hnum => ?_, fun hne => absurd hF hne⟩
  rcases List.mem_cons.mp (hperm.subset he) with rfl | hold
  · rfl
  · exact absurd hnum (share_eq_nil_iff.mp hL e hold)

theorem run_handled (ops : List (TimerOp κ δ)) {i : Nat} {id : Int32} (hret : Returned ops i id)
    {t : TimerRun κ (δ × Nat)} (hrun : run (numbered ops) = .ok t) : ∃ k, Handled i id k t := by
  induction ops using List.reverseRecOn generalizing t with
  | nil =>
    obtain ⟨te, _, _, hi, _⟩ := hret
    cases hi
  | append_singleton ops op ih =>
    obtain ⟨t₀, hrun₀, hinv, hacc⟩ := run_accounted ops
    rw [numbered_concat] at hrun
    obtain ⟨t₁, ht₁, hstep⟩ := foldlM_concat_eq_ok.mp hrun
    obtain rfl := Except.ok.inj (hrun₀.symm.trans ht₁)
    rcases hret.of_concat with hret₀ | ⟨rfl, te, r, q, rfl, hr, hadd⟩
    · obtain ⟨k, hk⟩ := ih hret₀ hrun₀
      obtain ⟨te, _, _, hi, _⟩ := hret₀
      refine ⟨k, hk.step hinv hacc hi (fun e he => ?_) hstep⟩
      cases op with
      | addTimer te' =>
        obtain rfl := TimerOp.addTimer.inj he
        exact Nat.ne_of_gt (List.getElem?_eq_some_iff.mp hi).1
      | delTimer id' => cases he
      | getTimo => cases he
    · -- the id is the next one, also of the run without numbers
      have hmap := run_map Prod.fst (numbered ops) hrun₀
      rw [map_fst_numbered] at hmap
      obtain rfl := Except.ok.inj (hr.symm.trans hmap)
      obtain ⟨r', hr', hinv'⟩ := run_returns ops
      obtain rfl := Except.ok.inj (hr'.symm.trans hmap)
      obtain ⟨q', hadd', _⟩ := addTimer_spec hinv' te
      obtain ⟨rfl, _⟩ := Prod.mk.inj (Except.ok.inj (hadd.symm.trans hadd'))
      exact ⟨t₀.issued, .added hinv hacc te hstep⟩

/-- A timer that is not live is never live again, and never delivered again. -/
theorem step_gone {t t' : TimerRun κ (δ × Nat)} (hinv : Inv t.issued t.queue) {i : Nat}
    (hgone : share i (t.queue.eventLst.map TimerEvent.payload) = []) {op : TimerOp κ (δ × Nat)}
    (hop : ∀ e, op = .addTimer e → e.cbData.2 ≠ i) (hstep : t.step op = .ok t') :
    share i (t'.queue.eventLst.map TimerEvent.payload) = [] ∧
      share i (t'.fired.map TimerEvent.payload) = share i (t.fired.map TimerEvent.payload) := by
  rw [share_eq_nil_iff] at hgone ⊢
  cases step_cases hstep with
  | @addTimer e id q' hadd =>
    obtain ⟨_, hadd', _, hperm⟩ := addTimer_spec hinv e
    obtain ⟨_, rfl⟩ := Prod.mk.inj (Except.ok.inj (hadd.symm.trans hadd'))
    refine ⟨fun e' he' => ?_, rfl⟩
    rcases List.mem_cons.mp (hperm.subset he') with rfl | hold
    · exact hop e rfl
    · exact hgone e' hold
  | delTimer hdel =>
    exact ⟨fun e he => hgone e (delTimer_live hinv hdel he), rfl⟩
  | @getTimo evs q' hget =>
    obtain ⟨rest, hperm, hids⟩ := getTimo_ids hinv hget
    have hevs : ∀ e ∈ evs, e.cbData.2 ≠ i := fun e he =>
      hgone e (hperm.subset (List.mem_append_left rest he))
    constructor
    · intro e he
      rcases hids e he with hrest | ⟨e', he', _, _, _, rfl⟩
      · exact hgone e (hperm.subset (List.mem_append_right evs hrest))
      · obtain ⟨e'', hmem, rfl⟩ := List.mem_map.mp he'
        exact hevs e'' (List.mem_filter.mp hmem).1
    · rw [List.map_append, share_append, share_eq_nil_iff.mpr hevs, List.append_nil]

/-- What `del_timer` does to a live timer: it goes if it has the id, and stays if not. -/
theorem delTimer_live_iff {t t' : TimerRun κ (δ × Nat)} (hinv : Inv t.issued t.queue)
    (hissued : t.issued < 2 ^ 31) {id : Int32} (hstep : t.step (.delTimer id) = .ok t')
    {e : TimerEvent κ (δ × Nat)} (he : e ∈ t.queue.eventLst) :
    (e.timerId ≠ id → e ∈ t'.queue.eventLst) ∧
      (e.timerId = id → (e :: t'.queue.eventLst).Perm t.queue.eventLst) := by
  have hc := hinv.consistent (Nat.le_of_lt hissued)
  obtain ⟨j, hj⟩ := List.mem_iff_getElem?.mp he
  rcases delTimer_spec hinv id with
    ⟨hnone, hdel⟩ | ⟨pos, d, q₁, q', _, hd, hid, _, hrem, hdel, hsame, _⟩
  · rw [step, hdel, ok_bind] at hstep
    obtain rfl := Except.ok.inj hstep
    refine ⟨fun _ => he, fun heid => ?_⟩
    rw [← heid, hc.complete j e hj] at hnone
    cases hnone
  · rw [step, hdel, ok_bind] at hstep
    obtain rfl := Except.ok.inj hstep
    show (_ → e ∈ q'.eventLst) ∧ (_ → (e :: q'.eventLst).Perm _)
    rw [hsame.eventLst]
    refine ⟨fun hne => ?_, fun heid => ?_⟩
    · rcases List.mem_cons.mp (hrem.perm.symm.subset he) with rfl | hmem
      · exact absurd hid hne
      · exact hmem
    · obtain rfl := hc.index_unique hj hd (heid.trans hid.symm)
      obtain rfl := Option.some.inj (hj.symm.trans hd)
      exact hrem.perm

/-- `del_timer(id)`, called after `ops`, which led to `t`, ends the timer of call `i`:
whatever is called then, the timer is not live and is not delivered any more. -/
def Cancels (ops : List (TimerOp κ δ)) (i : Nat) (id : Int32) (t : TimerRun κ (δ × Nat)) : Prop :=
  ∀ later : List (TimerOp κ δ), ∃ t', run (numbered (ops ++ .delTimer id :: later)) = .ok t' ∧
    share i (t'.queue.eventLst.map TimerEvent.payload) = [] ∧
    share i (t'.fired.map TimerEvent.payload) = share i (t.fired.map TimerEvent.payload)

theorem cancels_of_gone {ops : List (TimerOp κ δ)} {i : Nat} (hi : i < ops.length) {id : Int32}
    {t t₁ : TimerRun κ (δ × Nat)} (hrun : run (numbered ops) = .ok t)
    (hstep : t.step (.delTimer id) = .ok t₁)
    (hgone : share i (t₁.queue.eventLst.map TimerEvent.payload) = []) : Cancels ops i id t := by
  intro later
  induction later using List.reverseRecOn with
  | nil =>
    refine ⟨t₁, ?_, hgone, ?_⟩
    · rw [numbered_concat]
      exact foldlM_concat_eq_ok.mpr ⟨t, hrun, hstep⟩
    · cases step_cases hstep with
      | delTimer => rfl
  | append_singleton later op ih =>
    obtain ⟨t₂, hrun₂, hgone₂, hfired₂⟩ := ih
    obtain ⟨t₃, hrun₃, hinv₃, _⟩ := run_accounted (ops ++ .delTimer id :: later)
    obtain rfl := Except.ok.inj (hrun₂.symm.trans hrun₃)
    obtain ⟨t', hstep', _⟩ :=
      step_inv hinv₃ (op.map fun d => (d, (ops ++ .delTimer id :: later).length))
    obtain ⟨hgone', hfired'⟩ := step_gone hinv₃ hgone₂ (fun e he => by
      cases op with
      | addTimer te =>
        obtain rfl := TimerOp.addTimer.inj he
        show (ops ++ .delTimer id :: later).length ≠ i
        rw [List.length_append]
        omega
      | delTimer id' => cases he
      | getTimo => cases he) hstep'
    refine ⟨t', ?_, hgone', hfired'.trans hfired₂⟩
    rw [← List.cons_append, ← List.append_assoc, numbered_concat]
    exact foldlM_concat_eq_ok.mpr ⟨t₂, hrun₂, hstep'⟩

/-- **How long a timer id is good for.**  In every run with fewer than `2 ^ 31` ids handed
out, `del_timer` with the id that call `i` returned ends the timer of call `i`, which is
live, exactly when that timer has not been delivered yet. -/
theorem id_cancels_iff_undelivered (ops : List (TimerOp κ δ)) {i : Nat} {id : Int32}
    (hret : Returned ops i id) {t : TimerRun κ (δ × Nat)} (hrun : run (numbered ops) = .ok t)
    (hissued : t.issued < 2 ^ 31)
    (hlive : share i (t.queue.eventLst.map TimerEvent.payload) ≠ []) :
    Cancels ops i id t ↔ share i (t.fired.map TimerEvent.payload) = [] := by
  obtain ⟨k, hk⟩ := run_handled ops hret hrun
  obtain ⟨t₀, hrun₀, hinv, hacc⟩ := run_accounted ops
  obtain rfl := Except.ok.inj (hrun.symm.trans hrun₀)
  obtain ⟨e, he, hnum⟩ : ∃ e ∈ t.queue.eventLst, e.cbData.2 = i := by
    by_contra hnone
    exact hlive (share_eq_nil_iff.mpr fun e he hnum => hnone ⟨e, he, hnum⟩)
  obtain ⟨t₁, hstep, _⟩ := step_inv hinv (.delTimer id)
  obtain ⟨hstays, hgoes⟩ := delTimer_live_iff hinv hissued hstep he
  constructor
  · intro hcancels
    by_contra hfired
    obtain ⟨k', hlt, hlt', hid⟩ := hk.renewed hfired e he hnum
    have hne : e.timerId ≠ id := by
      rw [hid, hk.issued.1]
      exact Ne.symm (ofNat_ne_of_near hlt (by omega))
    obtain ⟨t', hrun', hgone, _⟩ := hcancels []
    rw [numbered_concat] at hrun'
    obtain ⟨t₀, hrun₀', hstep'⟩ := foldlM_concat_eq_ok.mp hrun'
    obtain rfl := Except.ok.inj (hrun.symm.trans hrun₀')
    obtain rfl := Except.ok.inj (hstep.symm.trans hstep')
    exact share_eq_nil_iff.mp hgone e (hstays hne) hnum
  · intro hfired
    obtain ⟨te, r, q, hi, _⟩ := hret
    refine cancels_of_gone (List.getElem?_eq_some_iff.mp hi).1 hrun hstep ?_
    -- the timer was live once, and that copy went
    have hperm := share_perm i ((hgoes (hk.fresh hfired e he hnum)).map TimerEvent.payload)
    have hlen := hperm.length_eq
    obtain ⟨n, hshare⟩ := hacc.added i te hi
    rcases hshare.pending with hL | ⟨hL, _⟩
    · exact absurd hL hlive
    · rw [hL] at hlen
      refine List.eq_nil_of_length_eq_zero ?_
      simpa [share, TimerEvent.payload, hnum] using hlen

/-- A periodic timer, and a one-shot timer that is delivered before it. -/
def undeliveredRun : List (TimerOp Unit Unit) :=
  [.addTimer (every 10 5), .addTimer (oneShot 3), .getTimo]

theorem id_cancels_undeliveredRun :
    ∃ t, run (numbered undeliveredRun) = .ok t ∧ Cancels undeliveredRun 0 0 t := by
  obtain ⟨t, hrun, _⟩ := run_accounted undeliveredRun
  obtain ⟨q, hadd, _⟩ := addTimer_spec inv_empty (every 10 5)
  have hobs : (run (numbered undeliveredRun)).toOption.map (fun t =>
      (t.issued, (share 0 (t.queue.eventLst.map TimerEvent.payload)).length,
        (share 0 (t.fired.map TimerEvent.payload)).length)) = some (2, 1, 0) := by decide +kernel
  have hobs := observed_of_ok hrun hobs
  simp only [Prod.mk.injEq] at hobs
  have hret : Returned undeliveredRun 0 0 := ⟨_, start, q, rfl, rfl, hadd⟩
  refine ⟨t, hrun, (id_cancels_iff_undelivered undeliveredRun hret hrun ?_ ?_).mpr
    (List.eq_nil_of_length_eq_zero hobs.2.2)⟩
  · rw [hobs.1]
    decide
  · exact List.ne_nil_of_length_eq_add_one hobs.2.1

/-- A periodic timer is delivered once; then its id is of no use, and it is delivered again. -/
theorem periodic_timer_outlives_id :
    ¬ ∀ (ops : List (TimerOp Unit Unit)) (i : Nat) (id : Int32) (t : TimerRun Unit (Unit × Nat)),
      Returned ops i id → run (numbered ops) = .ok t → t.issued < 2 ^ 31 →
      share i (t.queue.eventLst.map TimerEvent.payload) ≠ [] → Cancels ops i id t := by
  intro hall
  obtain ⟨t, hrun, _⟩ := run_accounted [.addTimer (every 10 5), .getTimo]
  obtain ⟨q, hadd, _⟩ := addTimer_spec inv_empty (every 10 5)
  have hobs : (run (numbered [.addTimer (every 10 5), .getTimo])).toOption.map (fun t =>
      (t.issued, (share 0 (t.queue.eventLst.map TimerEvent.payload)).length,
        (share 0 (t.fired.map TimerEvent.payload)).length)) = some (2, 1, 1) := by decide +kernel
  have hobs := observed_of_ok hrun hobs
  simp only [Prod.mk.injEq] at hobs
  obtain ⟨t', hrun', _, hfired⟩ := hall _ 0 0 t ⟨_, start, q, rfl, rfl, hadd⟩ hrun
    (by rw [hobs.1]; decide) (List.ne_nil_of_length_eq_add_one hobs.2.1) [.getTimo]
  have hagain : (run (numbered ([.addTimer (every 10 5), .getTimo] ++
      .delTimer 0 :: [.getTimo]))).toOption.map (fun t =>
        (share 0 (t.fired.map TimerEvent.payload)).length) = some 2 := by decide +kernel
  have hagain := observed_of_ok hrun' hagain
  rw [hfired, hobs.2.2] at hagain
  exact absurd hagain (by decide)

end TimerRun

end EasyReactor.Timer
