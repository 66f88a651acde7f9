import EasyReactor.Timer.Expiry
import EasyReactor.Timer.Handle

set_option autoImplicit false

/-!
# Timer: ids that come round again

`_next_timer_id` is an `int` and every expiry of a periodic timer takes one more id from
it, so in a process that runs long enough it comes round to ids that were handed out
before.  Nothing checks whether such an id is still in use.  Here runs have any length:
live timers have distinct ids exactly as long as every `add_timer`, of a caller or of
`get_timo`, finds its id free.
-/

namespace EasyReactor.Timer

open EasyReactor.Foundation

variable {κ δ : Type}

namespace TimerQueue

/-- The live timers have distinct ids. -/
def Distinct (q : TimerQueue κ δ) : Prop := (q.eventLst.map TimerEvent.timerId).Nodup

/-- `_next_timer_id` is the id of no live timer. -/
def NextFree (q : TimerQueue κ δ) : Prop := ∀ te ∈ q.eventLst, te.timerId ≠ q.nextTimerId

theorem AddsTimer.distinct_iff {q q' : TimerQueue κ δ} {te : TimerEvent κ δ}
    (h : AddsTimer q te q') : Distinct q' ↔ NextFree q ∧ Distinct q := by
  unfold Distinct
  rw [(h.perm.map TimerEvent.timerId).nodup_iff, List.map_cons, List.nodup_cons]
  refine and_congr_left fun _ => ?_
  constructor
  · intro hnew te hte heq
    exact hnew (List.mem_map.mpr ⟨te, hte, heq⟩)
  · intro hfree hold
    obtain ⟨te, hte, heq⟩ := List.mem_map.mp hold
    exact hfree te hte heq

/-- Every `add_timer` of the second loop of `get_timo` finds its id free. -/
def ReaddsFree (q : TimerQueue κ δ) (reuse : List (TimerEvent κ δ)) : Prop :=
  Meets (fun q te => Prod.snd <$> q.addTimer te) (fun q _ => NextFree q) q reuse

theorem readd_distinct_iff : ∀ (reuse : List (TimerEvent κ δ)) {q : TimerQueue κ δ},
    Indexed q →
    ∃ q', reuse.foldlM (fun q te => Prod.snd <$> q.addTimer te) q = .ok q' ∧ Indexed q' ∧
      (Distinct q' ↔ ReaddsFree q reuse ∧ Distinct q) ∧
      (Consistent q → ReaddsFree q reuse → Consistent q') := by
  intro reuse
  induction reuse with
  | nil => exact fun h => ⟨_, rfl, h, (and_iff_right trivial).symm, fun hc _ => hc⟩
  | cons te rest ih =>
    intro q h
    obtain ⟨q₁, hadd, hq₁⟩ := addTimer_adds h te
    have hstep : Prod.snd <$> q.addTimer te = .ok q₁ := by
      rw [hadd]
      rfl
    obtain ⟨q', hrest, hidx, hdistinct, hcons⟩ := ih hq₁.indexed
    have hmeets : ReaddsFree q (te :: rest) ↔ NextFree q ∧ ReaddsFree q₁ rest := by
      unfold ReaddsFree
      rw [meets_cons_iff]
      refine and_congr_right fun _ => ?_
      constructor
      · intro h
        exact h q₁ hstep
      · intro h q₂ hq₂
        obtain rfl := Except.ok.inj (hstep.symm.trans hq₂)
        exact h
    refine ⟨q', ?_, hidx, ?_, fun hc hfree => ?_⟩
    · rw [List.foldlM_cons, hstep]
      exact hrest
    · rw [hdistinct, hq₁.distinct_iff, hmeets, ← and_assoc, and_comm (a := ReaddsFree q₁ rest)]
    · obtain ⟨hfree, hrest⟩ := hmeets.mp hfree
      exact hcons (hq₁.consistent hc hfree) hrest

theorem SameHeap.distinct_iff {q q' : TimerQueue κ δ} (h : SameHeap q q') :
    Distinct q' ↔ Distinct q := by
  unfold Distinct
  rw [h.eventLst]

end TimerQueue

namespace TimerRun

open TimerQueue

/-- Every `add_timer` of the call, by the caller or by `get_timo` for the periodic timers
it has taken out, finds its id free. -/
def AddsFree (r : TimerRun κ δ) : TimerOp κ δ → Prop
  | .addTimer _ => NextFree r.queue
  | .delTimer _ => True
  | .getTimo => ∀ q evs reuse, r.queue.getTimoLoop [] [] = .ok (q, evs, reuse) →
      ReaddsFree q reuse

/-- One call. -/
theorem step_distinct {r r' : TimerRun κ δ} (h : Consistent r.queue) {op : TimerOp κ δ}
    (hstep : r.step op = .ok r') :
    (Distinct r'.queue ↔ AddsFree r op) ∧ (AddsFree r op → Consistent r'.queue) := by
  cases step_cases hstep with
  | @addTimer te id q' hadd =>
    obtain ⟨q₁, hadd', hq₁⟩ := addTimer_adds h.toIndexed te
    obtain ⟨_, rfl⟩ := Prod.mk.inj (Except.ok.inj (hadd.symm.trans hadd'))
    refine ⟨hq₁.distinct_iff.trans (and_iff_left h.nodup_ids), fun hfree => ?_⟩
    exact hq₁.consistent h hfree
  | @delTimer id q' hdel =>
    have hc : Consistent q' := by
      rcases delTimer_removes h.toIndexed id with
        ⟨_, hno⟩ | ⟨_, _, _, _, _, _, _, _, hrem, hdel', hsame⟩
      · obtain rfl := Except.ok.inj (hdel.symm.trans hno)
        exact h
      · obtain rfl := Except.ok.inj (hdel.symm.trans hdel')
        exact hsame.consistent (hrem.consistent h)
    exact ⟨iff_of_true hc.nodup_ids trivial, fun _ => hc⟩
  | @getTimo evs q' hget =>
    obtain ⟨evs', q₁, hloop, hc, -⟩ :=
      getTimoLoop_pops (P := Consistent) (fun _ hc => hc.toIndexed)
        (fun _ _ _ hc hpop => hpop.removes.consistent hc) h [] []
    obtain ⟨q₂, hadd, hidx, hdistinct, hcons⟩ := readd_distinct_iff (reused evs') hc.toIndexed
    obtain ⟨q₃, hget', hsame, -⟩ := getTimo_sets hloop hadd hidx
    obtain ⟨_, rfl⟩ := Prod.mk.inj (Except.ok.inj (hget.symm.trans hget'))
    have hfree : AddsFree r .getTimo ↔ ReaddsFree q₁ (reused evs') := by
      constructor
      · intro hall
        exact hall q₁ _ _ hloop
      · intro hfree q evs reuse hloop'
        obtain ⟨rfl, hlists⟩ := Prod.mk.inj (Except.ok.inj (hloop.symm.trans hloop'))
        obtain ⟨-, rfl⟩ := Prod.mk.inj hlists
        exact hfree
    rw [hfree]
    refine ⟨?_, fun hfree => hsame.consistent (hcons hc hfree)⟩
    exact hsame.distinct_iff.trans (hdistinct.trans (and_iff_left hc.nodup_ids))

/-- From a consistent state on, the ids stay distinct in every state of a run exactly when
every id issued is free. -/
theorem foldlM_distinct_iff : ∀ (ops : List (TimerOp κ δ)) {r : TimerRun κ δ},
    Inv r.issued r.queue → Consistent r.queue →
    ((∀ k r', (ops.take k).foldlM step r = .ok r' → Distinct r'.queue) ↔
      Meets step AddsFree r ops) := by
  intro ops
  induction ops with
  | nil =>
    intro r _ hc
    refine iff_of_true (fun k r' hrun => ?_) trivial
    rw [List.take_nil] at hrun
    obtain rfl := Except.ok.inj hrun
    exact hc.nodup_ids
  | cons op ops ih =>
    intro r hinv hc
    obtain ⟨r₁, hstep, hinv₁⟩ := step_inv hinv op
    obtain ⟨hdistinct, hkeep⟩ := step_distinct hc hstep
    rw [meets_cons_iff]
    constructor
    · intro hall
      have hfree : AddsFree r op := by
        refine hdistinct.mp (hall 1 r₁ ?_)
        rw [List.take_succ_cons, List.take_zero, List.foldlM_cons, hstep]
        rfl
      refine ⟨hfree, fun r₂ hstep' => ?_⟩
      obtain rfl := Except.ok.inj (hstep.symm.trans hstep')
      refine (ih hinv₁ (hkeep hfree)).mp fun k r' hrun => hall (k + 1) r' ?_
      rw [List.take_succ_cons, List.foldlM_cons, hstep]
      exact hrun
    · rintro ⟨hfree, hrest⟩ k r' hrun
      cases k with
      | zero =>
        obtain rfl := Except.ok.inj hrun
        exact hc.nodup_ids
      | succ k =>
        rw [List.take_succ_cons, List.foldlM_cons, hstep, ok_bind] at hrun
        exact (ih hinv₁ (hkeep hfree)).mpr (hrest r₁ hstep) k r' hrun

/-- A run whose adds all find their ids free leads to an exact index. -/
theorem run_consistent {ops : List (TimerOp κ δ)} (hfree : Meets step AddsFree start ops)
    {r : TimerRun κ δ} (hrun : run ops = .ok r) : Consistent r.queue := by
  have hkeep : ∀ (r : TimerRun κ δ) (op : TimerOp κ δ),
      Inv r.issued r.queue ∧ Consistent r.queue → AddsFree r op →
        Ends (step r op) (fun r => Inv r.issued r.queue ∧ Consistent r.queue) (fun _ => True) := by
    rintro r op ⟨hinv, hc⟩ hadds
    obtain ⟨r₁, hstep, hinv₁⟩ := step_inv hinv op
    rw [hstep]
    exact ⟨hinv₁, (step_distinct hc hstep).2 hadds⟩
  have h := Ends.foldlM_meets hkeep ops start
    ⟨inv_empty, inv_empty.consistent (Nat.zero_le _)⟩ hfree
  exact (h.of_ok hrun).2

/-! ## Whom `del_timer` takes out -/

theorem consistent_of_map {ε : Type} {f : δ → ε} {q : TimerQueue κ δ}
    (h : Consistent (q.map f)) : Consistent q where
  size := by
    have hsize := h.size
    rwa [TimerQueue.map, List.length_map] at hsize
  sound id p hp := by
    obtain ⟨te', hte', hid⟩ := h.sound id p hp
    rw [TimerQueue.map, List.getElem?_map] at hte'
    obtain ⟨te, hte, rfl⟩ := Option.map_eq_some_iff.mp hte'
    exact ⟨te, hte, hid⟩
  complete i te hte := by
    refine h.complete i (te.map f) ?_
    rw [TimerQueue.map, List.getElem?_map, hte]
    rfl

theorem nextFree_of_map {ε : Type} {f : δ → ε} {q : TimerQueue κ δ} (h : NextFree (q.map f)) :
    NextFree q :=
  fun te hte => h (te.map f) (List.mem_map_of_mem hte)

/-- Another live timer than that of call `i` has been issued the id. -/
def Reissued (i : Nat) (id : Int32) (t : TimerRun κ (δ × Nat)) : Prop :=
  ∃ e ∈ t.queue.eventLst, e.cbData.2 ≠ i ∧ e.timerId = id

/-- One call issues no id that `k` ids ago was issued to call `i`. -/
theorem step_not_reissued {t t' : TimerRun κ (δ × Nat)} {i k : Nat}
    (hinv : Inv t.issued t.queue) (hk : k < t.issued) (hnear : t'.issued ≤ k + 2 ^ 32)
    (h : ¬ Reissued i (Int32.ofNat k) t) {op : TimerOp κ (δ × Nat)} (hstep : t.step op = .ok t') :
    ¬ Reissued i (Int32.ofNat k) t' := by
  rintro ⟨e, he, hnum, hid⟩
  cases step_cases hstep with
  | @addTimer new id q' hadd =>
    obtain ⟨_, hadd', _, hperm⟩ := addTimer_spec hinv new
    obtain ⟨_, rfl⟩ := Prod.mk.inj (Except.ok.inj (hadd.symm.trans hadd'))
    rcases List.mem_cons.mp (hperm.subset he) with rfl | hold
    · change t.queue.nextTimerId = _ at hid
      rw [hinv.next] at hid
      exact ofNat_ne_of_near hk hnear hid.symm
    · exact h ⟨e, hold, hnum, hid⟩
  | delTimer hdel => exact h ⟨e, delTimer_live hinv hdel he, hnum, hid⟩
  | @getTimo evs q' hget =>
    obtain ⟨rest, hperm, hids⟩ := getTimo_ids hinv hget
    rcases hids e he with hrest | ⟨te, _, n, hlo, hhi, rfl⟩
    · exact h ⟨e, hperm.subset (List.mem_append_right evs hrest), hnum, hid⟩
    · change t.issued + (reused evs).length ≤ k + 2 ^ 32 at hnear
      exact ofNat_ne_of_near (Nat.lt_of_lt_of_le hk hlo) (Nat.lt_of_lt_of_le hhi hnear) hid.symm

theorem step_issued_le {t t' : TimerRun κ δ} {op : TimerOp κ δ} (hstep : t.step op = .ok t') :
    t.issued ≤ t'.issued := by
  cases step_cases hstep with
  | addTimer => exact Nat.le_succ t.issued
  | delTimer => exact Nat.le_refl t.issued
  | getTimo => exact Nat.le_add_right t.issued _

theorem Returned.lt {ops : List (TimerOp κ δ)} {i : Nat} {id : Int32} (h : Returned ops i id) :
    i < ops.length := by
  obtain ⟨_, _, _, hi, _⟩ := h
  exact (List.getElem?_eq_some_iff.mp hi).1

/-- An id that was free when it was issued is issued again only `2 ^ 32` ids later. -/
theorem run_not_reissued {ops : List (TimerOp κ δ)} {i : Nat} {id : Int32}
    (hret : Returned ops i id) {r₀ : TimerRun κ δ} (hr₀ : run (ops.take i) = .ok r₀)
    (hfree : NextFree r₀.queue) {t : TimerRun κ (δ × Nat)} (hrun : run (numbered ops) = .ok t) :
    id = Int32.ofNat r₀.issued ∧ r₀.issued < t.issued ∧
      (t.issued ≤ r₀.issued + 2 ^ 32 → ¬ Reissued i id t) := by
  induction ops using List.reverseRecOn generalizing t with
  | nil =>
    obtain ⟨te, _, _, hi, _⟩ := hret
    cases hi
  | append_singleton ops op ih =>
    obtain ⟨t₀, hrun₀, hinv, -⟩ := run_accounted ops
    rw [numbered_concat] at hrun
    obtain ⟨t₁, ht₁, hstep⟩ := foldlM_concat_eq_ok.mp hrun
    obtain rfl := Except.ok.inj (hrun₀.symm.trans ht₁)
    rcases hret.of_concat with hret₀ | ⟨rfl, te, r, q, rfl, hr, hadd⟩
    · have hlt : i < ops.length := hret₀.lt
      rw [List.take_append_of_le_length (Nat.le_of_lt hlt)] at hr₀
      obtain ⟨rfl, hissued, hnot⟩ := ih hret₀ hr₀ hrun₀
      have hle := step_issued_le hstep
      refine ⟨rfl, Nat.lt_of_lt_of_le hissued hle, fun hnear => ?_⟩
      exact step_not_reissued hinv hissued hnear (hnot (Nat.le_trans hle hnear)) hstep
    · -- the run without numbers is in the same state
      rw [List.take_left' rfl] at hr₀
      obtain rfl := Except.ok.inj (hr.symm.trans hr₀)
      have hmap := run_map Prod.fst (numbered ops) hrun₀
      rw [map_fst_numbered] at hmap
      obtain rfl := Except.ok.inj (hr.symm.trans hmap)
      obtain ⟨r', hr', hinv'⟩ := run_returns ops
      obtain rfl := Except.ok.inj (hr.symm.trans hr')
      obtain ⟨q₁, hadd₁, _⟩ := addTimer_spec hinv' te
      obtain ⟨rfl, -⟩ := Prod.mk.inj (Except.ok.inj (hadd₁.symm.trans hadd))
      obtain ⟨q', hadd', _, hperm⟩ := addTimer_spec hinv (te.map fun d => (d, ops.length))
      change t₀.step (.addTimer _) = _ at hstep
      rw [step, hadd', ok_bind] at hstep
      obtain rfl := Except.ok.inj hstep
      refine ⟨hinv'.next, Nat.lt_succ_self _, fun _ => ?_⟩
      rintro ⟨e, he, hnum, hid⟩
      rcases List.mem_cons.mp (hperm.subset he) with rfl | hold
      · exact hnum rfl
      · exact nextFree_of_map hfree e hold hid

/-- With an exact index `del_timer` takes out whoever has the id, and nobody else. -/
theorem delTimer_others_iff {t : TimerRun κ (δ × Nat)} (hc : Consistent t.queue) (i : Nat)
    (id : Int32) :
    ∃ q', t.queue.delTimer id = .ok q' ∧
      ((∀ e ∈ t.queue.eventLst, e.cbData.2 ≠ i → e ∈ q'.eventLst) ↔ ¬ Reissued i id t) := by
  rcases delTimer_removes hc.toIndexed id with
    ⟨hnone, hno⟩ | ⟨pos, d, q₁, q', _, hd, hid, _, hrem, hdel, hsame⟩
  · refine ⟨_, hno, iff_of_true (fun _ he _ => he) ?_⟩
    rintro ⟨e, he, -, heid⟩
    obtain ⟨j, hj⟩ := List.mem_iff_getElem?.mp he
    rw [← heid, hc.complete j e hj] at hnone
    cases hnone
  · refine ⟨q', hdel, ?_⟩
    rw [hsame.eventLst]
    have hids := (hrem.perm.map TimerEvent.timerId).nodup_iff.mpr hc.nodup_ids
    rw [List.map_cons, List.nodup_cons] at hids
    constructor
    · rintro hstay ⟨e, he, hnum, heid⟩
      exact hids.1 (List.mem_map.mpr ⟨e, hstay e he hnum, heid.trans hid.symm⟩)
    · intro hnot e he hnum
      rcases List.mem_cons.mp (hrem.perm.symm.subset he) with rfl | hrest
      · exact absurd ⟨e, he, hnum, hid⟩ hnot
      · exact hrest

/-- **Live timers never share an id** in the states of a run, of any length, exactly if every
`add_timer` of the run, those of `get_timo` included, finds its id free.  In such a run
`del_timer` takes out no timer but that of the caller exactly if the id has not been issued
again to a live timer, which takes `2 ^ 32` more ids. -/
theorem distinct_ids_iff (ops : List (TimerOp κ δ)) :
    ((∀ k r, run (ops.take k) = .ok r → Distinct r.queue) ↔ Meets step AddsFree start ops) ∧
      (Meets step AddsFree start ops → ∀ i id, Returned ops i id →
        ∃ r₀ t q', run (ops.take i) = .ok r₀ ∧ run (numbered ops) = .ok t ∧
          t.queue.delTimer id = .ok q' ∧
          ((∀ e ∈ t.queue.eventLst, e.cbData.2 ≠ i → e ∈ q'.eventLst) ↔ ¬ Reissued i id t) ∧
          (Reissued i id t → r₀.issued + 2 ^ 32 < t.issued)) := by
  refine ⟨foldlM_distinct_iff ops inv_empty (inv_empty.consistent (Nat.zero_le _)), ?_⟩
  intro hfree i id hret
  obtain ⟨te, r₀, q₀, hi, hr₀, hadd⟩ := hret
  obtain ⟨t, hrun, -, -⟩ := run_accounted ops
  have hmap := run_map Prod.fst (numbered ops) hrun
  rw [map_fst_numbered] at hmap
  have hc : Consistent t.queue := consistent_of_map (run_consistent hfree hmap)
  obtain ⟨q', hdel, hothers⟩ := delTimer_others_iff hc i id
  have hnext : NextFree r₀.queue := hfree.at_step hi hr₀
  obtain ⟨-, -, hnot⟩ := run_not_reissued ⟨te, r₀, q₀, hi, hr₀, hadd⟩ hr₀ hnext hrun
  refine ⟨r₀, t, q', hr₀, hrun, hdel, hothers, fun hre => ?_⟩
  by_contra hnear
  exact hnot (Nat.le_of_not_lt hnear) hre

/-! ## A timer of one millisecond and one that waits -/

/-- A one-shot timer in the far future. -/
def waiting : TimerEvent Unit Unit := ⟨(), (), 9223372036854775808, 0, 0⟩

/-- A timer with a period of one millisecond, after `n` expiries. -/
def ticking (n : Nat) : TimerEvent Unit Unit :=
  ⟨(), (), UInt64.ofNat (n + 1), 1, Int32.ofNat (n + 1)⟩

/-- Both are added, and the second expires `n` times. -/
def tickingRun (n : Nat) : List (TimerOp Unit Unit) :=
  .addTimer waiting :: .addTimer (ticking 0) :: List.replicate n .getTimo

/-- The state after `n` expiries. -/
structure Ticks (n : Nat) (r : TimerRun Unit Unit) : Prop where
  inv : Inv r.issued r.queue
  issued : r.issued = n + 2
  live : r.queue.eventLst.Perm [ticking n, waiting]

theorem ticking_before_waiting {n : Nat} (hn : n < 2 ^ 32) : (ticking n).ts < waiting.ts := by
  have hwaiting : waiting.ts.toNat = 2 ^ 63 := by decide +kernel
  have hticking : (ticking n).ts.toNat = n + 1 := by
    rw [ticking, UInt64.toNat_ofNat', Nat.mod_eq_of_lt (by omega)]
  rw [UInt64.lt_iff_toNat_lt, hwaiting, hticking]
  omega

theorem ticking_advance (n : Nat) :
    { (ticking n).advance with timerId := Int32.ofNat (n + 2) } = ticking (n + 1) := by
  have hts : (ticking n).ts + (1 : UInt32).toUInt64 = (ticking (n + 1)).ts := by
    show UInt64.ofNat (n + 1) + UInt64.ofNat 1 = UInt64.ofNat (n + 1 + 1)
    rw [← UInt64.ofNat_add]
  unfold TimerEvent.advance
  rw [show (ticking n).ts + (ticking n).interval.toUInt64 = (ticking (n + 1)).ts from hts]
  rfl

/-- An expiry gives the ticking timer the next id. -/
theorem Ticks.getTimo {n : Nat} {r : TimerRun Unit Unit} (h : Ticks n r) (hn : n + 1 < 2 ^ 32)
    (hready : Ready r.queue) (hpioneer : r.queue.pioneer = (ticking n).ts) :
    ∃ r', r.step .getTimo = .ok r' ∧ Ticks (n + 1) r' ∧
      (n + 2 < 2 ^ 32 → Ready r'.queue ∧ r'.queue.pioneer = (ticking (n + 1)).ts) := by
  have hbefore := ticking_before_waiting (show n < 2 ^ 32 by omega)
  have hlater : waiting.ts ≠ r.queue.pioneer := by
    rw [hpioneer]
    exact (UInt64.ne_of_lt hbefore).symm
  obtain ⟨evs, q₁, hloop, hsplit⟩ := getTimoLoop_splits hready []
  -- the ticking timer is due and the other stays
  have hevs : evs = [ticking n] := by
    refine List.perm_singleton.mp (hsplit.due.trans ((h.live.filter _).trans ?_))
    rw [List.filter_cons_of_pos (by simp [hpioneer]), List.filter_cons_of_neg (by simp [hlater])]
    rfl
  have hstay : q₁.eventLst = [waiting] := by
    refine List.perm_singleton.mp (hsplit.later.trans ((h.live.filter _).trans ?_))
    rw [List.filter_cons_of_neg (by simp [hpioneer]), List.filter_cons_of_pos (by simp [hlater])]
    rfl
  obtain ⟨q₂, hadd, hq₂⟩ := readd_readds (reused evs) hsplit.consistent.toIndexed
  obtain ⟨q', hget, hsame, -⟩ := getTimo_sets hloop hadd hq₂.indexed
  obtain ⟨_, _, hget', hfires⟩ := getTimo_fires hready []
  obtain ⟨-, rfl⟩ := Prod.mk.inj (Except.ok.inj (hget.symm.trans hget'))
  have hnext : q₁.nextTimerId = Int32.ofNat (n + 2) := by
    rw [hsplit.nextTimerId, h.inv.next, h.issued]
  have hlive : q'.eventLst.Perm [ticking (n + 1), waiting] := by
    have hperm := hq₂.perm
    rw [← hsame.eventLst, hstay, hnext, hevs] at hperm
    rw [← ticking_advance]
    exact hperm
  have hstep : r.step .getTimo = .ok ⟨q', r.fired ++ evs, r.issued + (reused evs).length⟩ := by
    rw [step, hget, ok_bind]
    rfl
  obtain ⟨r', hr', hinv'⟩ := step_inv h.inv .getTimo
  obtain rfl := Except.ok.inj (hstep.symm.trans hr')
  refine ⟨_, hstep, ⟨hinv', ?_, hlive⟩, fun hn' => ?_⟩
  · show r.issued + (reused evs).length = n + 1 + 2
    rw [hevs, h.issued]
    rfl
  · have hmem : ∀ te, te ∈ q'.eventLst ↔ te = ticking (n + 1) ∨ te = waiting := by
      intro te
      rw [hlive.mem_iff, List.mem_cons, List.mem_singleton]
    have hfree : IdsFree r.queue := by
      intro k hk te hte hts
      have hwait : te = waiting := by
        rcases List.mem_cons.mp (h.live.subset hte) with rfl | hrest
        · exact absurd hpioneer.symm hts
        · exact List.mem_singleton.mp hrest
      have hk0 : k = 0 := by
        rw [← reused_length_perm hsplit.due, hevs] at hk
        exact Nat.lt_one_iff.mp hk
      rw [hwait, hk0, h.inv.next, h.issued, ← Int32.ofNat_add]
      exact ofNat_ne_of_near (Nat.zero_lt_succ _) (by omega)
    obtain ⟨hnil, -⟩ | ⟨⟨te, hte, hts⟩, hleast, -⟩ := hfires.pioneer
    · rw [hnil] at hlive
      cases hlive.nil_eq
    · have hticking : q'.pioneer = (ticking (n + 1)).ts := by
        rcases (hmem te).mp hte with rfl | rfl
        · exact hts.symm
        · have hle := hleast _ ((hmem _).mpr (.inl rfl))
          rw [← hts] at hle
          exact absurd (ticking_before_waiting hn) (UInt64.not_lt.mpr hle)
      exact ⟨⟨hfires.ordered, hfires.consistent.mpr hfree,
        fun top htop => hleast top (List.mem_of_getElem? htop)⟩, hticking⟩

theorem run_ticks (n : Nat) (hn : n < 2 ^ 32) :
    ∃ r, run (tickingRun n) = .ok r ∧ Ticks n r ∧
      (n + 1 < 2 ^ 32 → Ready r.queue ∧ r.queue.pioneer = (ticking n).ts) := by
  induction n with
  | zero =>
    obtain ⟨r, hrun, hinv⟩ := run_returns (tickingRun 0)
    have hobs : (run (tickingRun 0)).toOption.map
        (fun r => (r.queue.eventLst, r.queue.pioneer, r.issued)) =
          some ([ticking 0, waiting], 1, 2) := by decide +kernel
    have hobs := observed_of_ok hrun hobs
    obtain ⟨hlive, hrest⟩ := Prod.mk.inj hobs
    obtain ⟨hpioneer, hissued⟩ := Prod.mk.inj hrest
    have hkeep : DelsKeepOrder (tickingRun 0) := by
      intro i id hi
      have hmem := List.mem_of_getElem? hi
      simp [tickingRun] at hmem
    have hconsistent : Consistent r.queue := by
      refine hinv.consistent ?_
      rw [hissued]
      decide
    refine ⟨r, hrun, ⟨hinv, hissued, by rw [hlive]⟩, fun _ => ⟨⟨?_, hconsistent, ?_⟩, hpioneer⟩⟩
    · exact run_ordered hkeep hrun
    · intro top htop
      rw [hlive] at htop
      obtain rfl := Option.some.inj htop
      rw [hpioneer]
      exact UInt64.le_refl 1
  | succ n ih =>
    obtain ⟨r, hrun, hticks, hready⟩ := ih (by omega)
    obtain ⟨hready, hpioneer⟩ := hready hn
    obtain ⟨r', hstep, hticks', hready'⟩ := hticks.getTimo hn hready hpioneer
    refine ⟨r', ?_, hticks', hready'⟩
    rw [tickingRun, List.replicate_succ', ← List.cons_append, ← List.cons_append]
    exact foldlM_concat_eq_ok.mpr ⟨r, hrun, hstep⟩

theorem take_tickingRun (n k : Nat) :
    (tickingRun n).take (k + 2) = tickingRun (min k n) := by
  rw [tickingRun, List.take_succ_cons, List.take_succ_cons, List.take_replicate]
  rfl

/-- The two timers have the same id, and there are never more than two. -/
theorem ids_collide :
    ¬ ∀ ops : List (TimerOp Unit Unit),
        (∀ k r, run (ops.take k) = .ok r → r.queue.eventLst.length < 2 ^ 31) →
        ∀ r, run ops = .ok r → Distinct r.queue := by
  intro hall
  have hlen : ∀ k r, run ((tickingRun (2 ^ 32 - 1)).take k) = .ok r →
      r.queue.eventLst.length < 2 ^ 31 := by
    intro k r hrun
    match k with
    | 0 =>
      obtain rfl := Except.ok.inj hrun
      exact Nat.two_pow_pos 31
    | 1 =>
      have hobs : (run [.addTimer waiting]).toOption.map
          (fun r => r.queue.eventLst.length) = some 1 := by decide +kernel
      have hone := observed_of_ok (show run [.addTimer waiting] = .ok r from hrun) hobs
      rw [hone]
      decide
    | k + 2 =>
      rw [take_tickingRun] at hrun
      obtain ⟨r', hrun', hticks, -⟩ := run_ticks (min k (2 ^ 32 - 1)) (by omega)
      obtain rfl := Except.ok.inj (hrun.symm.trans hrun')
      rw [hticks.live.length_eq]
      exact Nat.lt_of_lt_of_le (by decide : 2 < 2 ^ 2) (Nat.pow_le_pow_right (by decide) (by decide))
  obtain ⟨r, hrun, hticks, -⟩ := run_ticks (2 ^ 32 - 1) (by omega)
  have hdistinct := hall _ hlen r hrun
  unfold Distinct at hdistinct
  rw [(hticks.live.map TimerEvent.timerId).nodup_iff] at hdistinct
  revert hdistinct
  decide +kernel

end TimerRun

end EasyReactor.Timer
