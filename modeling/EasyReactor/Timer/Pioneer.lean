import EasyReactor.Timer.Notifier

set_option autoImplicit false

/-!
# Timer: `_pioneer` and the heap top

The design says that the timerfd follows the top of the heap.  `add_timer` never
makes the top later, and `get_timo` always re-arms, so both keep to that.
`del_timer` re-arms only when the new top is *earlier* than `_pioneer`: deleting
the top leaves the timerfd at the time of the timer that is gone, unless another
timer at the top of the heap is due no later.
-/

namespace EasyReactor.Timer

open EasyReactor.Foundation

namespace TimerQueue

variable {κ δ : Type}

/-- `_pioneer` is the expiry of the heap top and the timerfd is armed for it; with
no timer `_pioneer` is the sentinel and the timerfd is disarmed. -/
structure FollowsTop (q : TimerQueue κ δ) : Prop where
  empty : q.eventLst = [] → q.pioneer = noPioneer ∧ q.itValue.expires = none
  top : ∀ te, q.eventLst[0]? = some te →
    q.pioneer = te.ts ∧ q.itValue.expires = some (te.ts.toNat * 1000000)

/-- When `id` is at the top of the heap and not alone, then the left or the right
child, or the rear, expires no later. -/
def DelKeepsTop (q : TimerQueue κ δ) (id : Int32) : Prop :=
  q.position id = some 0 → 1 < q.count →
    ∃ i ∈ [1, 2, q.count - 1], ∃ te ∈ q.eventLst[i]?, ∃ top ∈ q.eventLst[0]?, te.ts ≤ top.ts

instance (q : TimerQueue κ δ) (id : Int32) : Decidable (DelKeepsTop q id) :=
  inferInstanceAs (Decidable (_ → _ → _))

/-- The top after a deletion is no later than the top before. -/
theorem delTimer_top {n : Nat} {q q' : TimerQueue κ δ} (hinv : Inv n q) {id : Int32}
    (hkeep : DelKeepsTop q id) (h : q.delTimer id = .ok q') {a : TimerEvent κ δ}
    (ha : q.eventLst[0]? = some a) :
    q'.eventLst = [] ∨ ∃ b, q'.eventLst[0]? = some b ∧ b.ts ≤ a.ts := by
  rcases delTimer_spec hinv id with
    ⟨_, hno⟩ | ⟨pos, d, q₁, q₂, hpos, hd, _, hq₁, hrem, hq₂, hsame, _⟩
  · obtain rfl := Except.ok.inj (h.symm.trans hno)
    exact .inr ⟨a, ha, UInt64.le_refl _⟩
  obtain rfl := Except.ok.inj (h.symm.trans hq₂)
  rw [hsame.eventLst]
  have hsize := hinv.indexed.size
  obtain ⟨r, hr⟩ := hinv.indexed.rear hd
  rw [heapDel_eq hd hr] at hq₁
  have hcell : ∀ {i : Nat} {e : TimerEvent κ δ}, (q.fillDel pos d r).eventLst[i]? = some e ↔
      i < q.count - 1 ∧ ((i = pos ∧ e = r) ∨ (i ≠ pos ∧ q.eventLst[i]? = some e)) := by
    intro i e
    rw [hsize]
    exact BinHeap.getElem?_set_dropLast
  rcases Nat.eq_zero_or_pos pos with rfl | hpos0
  · -- the top itself goes
    rcases Nat.lt_or_ge 1 q.count with h1 | h1
    · obtain ⟨i, hi, te, hte, top, htop, hle⟩ := hkeep hpos h1
      obtain rfl := Option.some.inj (ha.symm.trans htop)
      have hlt : i < q.count := hsize ▸ (List.getElem?_eq_some_iff.mp hte).1
      have hfill : ∃ j, j ≤ 2 ∧ (q.fillDel 0 d r).eventLst[j]? = some te := by
        rcases Nat.lt_or_ge i (q.count - 1) with hin | hrear
        · have hi2 : i = 1 ∨ i = 2 := by
            simp only [List.mem_cons, List.not_mem_nil, or_false] at hi
            omega
          exact ⟨i, by omega, hcell.mpr ⟨hin, .inr ⟨by omega, hte⟩⟩⟩
        · -- the rear fills the hole
          obtain rfl : i = q.count - 1 := by omega
          obtain rfl := Option.some.inj (hr.symm.trans hte)
          exact ⟨0, by omega, hcell.mpr ⟨by omega, .inl ⟨rfl, rfl⟩⟩⟩
      obtain ⟨j, hj, hfill⟩ := hfill
      obtain ⟨b, hb, hbt⟩ := heapHold_top (hinv.indexed.fillDel hd hr).size hq₁ hj hfill
      exact .inr ⟨b, hb, UInt64.le_trans hbt hle⟩
    · left
      have hlen := hrem.perm.length_eq
      rw [List.length_cons, ← hsize] at hlen
      exact List.eq_nil_of_length_eq_zero (by omega)
  · right
    have hlt : pos < q.count := hsize ▸ (List.getElem?_eq_some_iff.mp hd).1
    refine ⟨a, ?_, UInt64.le_refl _⟩
    rw [heapHold_top_below hpos0 hq₁]
    exact hcell.mpr ⟨by omega, .inr ⟨Nat.ne_of_lt hpos0, ha⟩⟩

/-- The invariant behind `FollowsTop`. -/
structure TopInv (q : TimerQueue κ δ) : Prop where
  inRange : InRange q
  armed : Armed q
  empty : q.eventLst = [] → q.pioneer = noPioneer
  top : ∀ te, q.eventLst[0]? = some te → q.pioneer = te.ts

theorem TopInv.followsTop {q : TimerQueue κ δ} (h : TopInv q) : FollowsTop q where
  empty hnil := by
    refine ⟨h.empty hnil, ?_⟩
    rw [h.armed, h.empty hnil]
    rfl
  top te hte := by
    refine ⟨h.top te hte, ?_⟩
    rw [h.armed, h.top te hte, expires_timo,
      if_neg (not_or.mpr (h.inRange te (List.mem_of_getElem? hte)))]

theorem TopInv.of_nil {q : TimerQueue κ δ} (hnil : q.eventLst = []) (harmed : Armed q)
    (hno : q.pioneer = noPioneer) : TopInv q where
  inRange te hte := by
    rw [hnil] at hte
    cases hte
  armed := harmed
  empty _ := hno
  top te hte := by
    rw [hnil] at hte
    cases hte

/-- Re-arming for an earlier top finds the new top, if no top was earlier. -/
theorem TopInv.armsEarlier {q q' : TimerQueue κ δ} {top : TimerEvent κ δ} (h : TopInv q)
    (hrange : InRange q') (harm : ArmsEarlier q q' top) (hle : top.ts ≤ q.pioneer) :
    TopInv q' where
  inRange := hrange
  armed := harm.armed h.armed
  empty hnil := by
    have htop := harm.isTop
    rw [hnil] at htop
    cases htop
  top te hte := by
    obtain rfl := Option.some.inj (harm.isTop.symm.trans hte)
    rw [harm.pioneer]
    split
    · rfl
    · rename_i hge
      exact UInt64.le_antisymm (UInt64.not_lt.mp hge) hle

end TimerQueue

namespace TimerRun

open TimerQueue

variable {κ δ : Type}

/-- The calls after which the timerfd still follows the top. -/
def KeepsFollowing (r : TimerRun κ δ) : TimerOp κ δ → Prop
  | .addTimer _ => True
  | .delTimer id => DelKeepsTop r.queue id
  | .getTimo => ReaddsInRange r.queue

instance (r : TimerRun κ δ) (op : TimerOp κ δ) : Decidable (KeepsFollowing r op) :=
  match op with
  | .addTimer _ => .isTrue trivial
  | .delTimer id => inferInstanceAs (Decidable (DelKeepsTop r.queue id))
  | .getTimo => inferInstanceAs (Decidable (ReaddsInRange r.queue))

/-- Timers are added at times that can be armed. -/
def Armable : TimerOp κ δ → Prop
  | .addTimer te => te.ts ≠ 0 ∧ te.ts ≠ noPioneer
  | _ => True

instance (op : TimerOp κ δ) : Decidable (Armable op) :=
  match op with
  | .addTimer te => inferInstanceAs (Decidable (te.ts ≠ 0 ∧ te.ts ≠ noPioneer))
  | .delTimer _ => .isTrue trivial
  | .getTimo => .isTrue trivial

theorem step_topInv {r r' : TimerRun κ δ} (hinv : Inv r.issued r.queue) (h : TopInv r.queue)
    {op : TimerOp κ δ} (hdom : Armable op) (hkeep : KeepsFollowing r op)
    (hstep : r.step op = .ok r') : TopInv r'.queue := by
  cases step_cases hstep with
  | addTimer hadd =>
    obtain ⟨top, harm⟩ := addTimer_arms hinv.indexed hadd
    refine h.armsEarlier (addTimer_inRange hinv h.inRange hdom hadd) harm ?_
    have htop := addTimer_top hinv hadd
    cases hlst : r.queue.eventLst with
    | nil =>
      rw [h.empty hlst]
      exact le_noPioneer top.ts
    | cons a rest =>
      have ha : r.queue.eventLst[0]? = some a := by rw [hlst]; rfl
      obtain ⟨b, hb, hle⟩ := htop.1 a ha
      obtain rfl := Option.some.inj (harm.isTop.symm.trans hb)
      rw [h.top a ha]
      exact hle
  | @delTimer id q' hdel =>
    have hrange : InRange q' := fun te hte => h.inRange te (delTimer_live hinv hdel hte)
    rcases delTimer_arms hinv hdel with rfl | ⟨hnil, hno, harmed⟩ | ⟨top, harm⟩
    · exact h
    · exact .of_nil hnil harmed hno
    · refine h.armsEarlier hrange harm ?_
      have hmem := delTimer_live hinv hdel (List.mem_of_getElem? harm.isTop)
      obtain ⟨a, ha⟩ : ∃ a, r.queue.eventLst[0]? = some a :=
        ⟨_, List.getElem?_eq_getElem (List.length_pos_of_mem hmem)⟩
      rw [h.top a ha]
      rcases delTimer_top hinv hkeep hdel ha with hnil | ⟨b, hb, hle⟩
      · have htop := harm.isTop
        rw [hnil] at htop
        cases htop
      · obtain rfl := Option.some.inj (harm.isTop.symm.trans hb)
        exact hle
  | @getTimo evs q' hget =>
    have hrange : InRange q' := getTimo_inRange hinv h.inRange hkeep hget
    obtain ⟨harmed, ⟨hnil, hno⟩ | ⟨top, htop, hts⟩⟩ := getTimo_arms hinv hget
    · exact .of_nil hnil harmed hno
    · refine ⟨hrange, harmed, fun hnil => ?_, fun te hte => ?_⟩
      · rw [show q'.eventLst = [] from hnil] at htop
        cases htop
      · obtain rfl := Option.some.inj (htop.symm.trans hte)
        exact hts

/-- **The timerfd follows the heap top.**  In every run whose calls all meet
`KeepsFollowing`, in every state reached. -/
theorem timerfd_follows_top (ops : List (TimerOp κ δ)) (hdom : ∀ op ∈ ops, Armable op)
    (hkeep : Meets step KeepsFollowing start ops) :
    ∃ r, run ops = .ok r ∧ FollowsTop r.queue := by
  obtain ⟨r, hrun, _⟩ := run_returns ops
  have hmeets : Meets step (fun r op => KeepsFollowing r op ∧ Armable op)
      (start : TimerRun κ δ) ops :=
    hkeep.imp_mem fun _ op hop hk => ⟨hk, hdom op hop⟩
  have hstart : TopInv (start : TimerRun κ δ).queue := .of_nil rfl rfl rfl
  have hend : Ends (ops.foldlM step start)
      (fun r => Inv r.issued r.queue ∧ TopInv r.queue) (fun _ => True) := by
    refine Ends.foldlM_meets ?_ ops start ⟨inv_empty, hstart⟩ hmeets
    rintro r op ⟨hinv, htop⟩ ⟨hk, hd⟩
    obtain ⟨r', hstep, hinv'⟩ := step_inv hinv op
    rw [hstep]
    exact ⟨hinv', step_topInv hinv htop hd hk hstep⟩
  exact ⟨r, hrun, (hend.of_ok hrun).2.followsTop⟩

/-- The top is deleted while another timer expires at the same time. -/
def followingRun : List (TimerOp Unit Unit) :=
  [.addTimer (every 5 3), .addTimer (oneShot 5), .addTimer (oneShot 9), .delTimer 0, .getTimo]

theorem timerfd_follows_top_followingRun :
    Meets step KeepsFollowing start followingRun ∧
      ∃ r, run followingRun = .ok r ∧ FollowsTop r.queue := by
  have hkeep : Meets step KeepsFollowing start followingRun := by decide +kernel
  exact ⟨hkeep, timerfd_follows_top followingRun (by decide) hkeep⟩

/-- The top is deleted and the next timer is later. -/
theorem timerfd_behind_top :
    ¬ ∀ ops : List (TimerOp Unit Unit), (∀ op ∈ ops, Armable op) →
      ∃ r, run ops = .ok r ∧ FollowsTop r.queue := by
  intro hall
  obtain ⟨r, hrun, hfollow⟩ :=
    hall [.addTimer (oneShot 1), .addTimer (oneShot 5), .delTimer 0] (by decide)
  have hobs : (run [.addTimer (oneShot 1), .addTimer (oneShot 5), .delTimer 0]).toOption.map
      (fun r => (r.queue.eventLst[0]?, r.queue.pioneer)) =
        some (some { oneShot 5 with timerId := 1 }, 1) := by decide +kernel
  have hobs := observed_of_ok hrun hobs
  simp only [Prod.mk.injEq] at hobs
  have hpioneer := (hfollow.top _ hobs.1).1
  rw [hobs.2] at hpioneer
  exact absurd hpioneer (by decide)

end TimerRun

end EasyReactor.Timer
