import EasyReactor.Timer.Order

set_option autoImplicit false

/-!
# Timer: the timerfd and the heap top

`notifier()` is a timerfd that `reset_timo` sets to `_pioneer`.  `add_timer` and
`del_timer` only ever set it to an *earlier* time; `get_timo` sets it to whatever
the top of the heap is then.  So after the deletion of the top the timerfd keeps
its old time, which is early but never late: a deadline is missed only when
`it_value` becomes zero, or when the heap has lost its order and the top is not
the earliest timer.
-/

namespace EasyReactor.Timer

open EasyReactor.Foundation

/-- When a timerfd set to `v` with `TFD_TIMER_ABSTIME` expires, in nanoseconds;
a zero `it_value` disarms it. -/
def ItValue.expires (v : ItValue) : Option Nat :=
  if v.tvSec = 0 ∧ v.tvNsec = 0 then none else some (v.tvSec * 1000000000 + v.tvNsec)

namespace TimerQueue

variable {κ δ : Type}

/-- The sentinel is the greatest time there is. -/
theorem le_noPioneer (ts : UInt64) : ts ≤ noPioneer := by
  rw [UInt64.le_iff_toNat_le]
  exact Nat.le_sub_one_of_lt ts.toNat_lt

/-- What `reset_timo` sets the timerfd to. -/
def timo (pioneer : UInt64) : ItValue :=
  if pioneer = noPioneer then ⟨0, 0⟩
  else ⟨(pioneer / 1000).toNat, ((pioneer % 1000) * 1000000).toNat⟩

/-- The timerfd is set to `_pioneer`. -/
def Armed (q : TimerQueue κ δ) : Prop := q.itValue = timo q.pioneer

theorem arm_armed (q : TimerQueue κ δ) (ts : UInt64) : Armed (q.arm ts) := rfl

theorem timo_toNat {p : UInt64} (hp : p ≠ noPioneer) :
    (timo p).tvSec * 1000000000 + (timo p).tvNsec = p.toNat * 1000000 := by
  have hmod : p.toNat % 1000 * 1000000 < 2 ^ 64 := by omega
  unfold timo
  rw [if_neg hp]
  simp only [UInt64.toNat_div, UInt64.toNat_mul, UInt64.toNat_mod, UInt64.reduceToNat]
  rw [Nat.mod_eq_of_lt hmod]
  omega

theorem expires_timo {p : UInt64} :
    (timo p).expires = if p = 0 ∨ p = noPioneer then none else some (p.toNat * 1000000) := by
  by_cases hno : p = noPioneer
  · rw [if_pos (.inr hno)]
    subst hno
    rfl
  · have hsum := timo_toNat hno
    have hzero : p = 0 ↔ p.toNat = 0 := by
      rw [← UInt64.toNat_inj]
      rfl
    unfold ItValue.expires
    rw [hsum]
    by_cases h0 : p = 0
    · rw [hzero.mp h0] at hsum
      have hz : (timo p).tvSec = 0 ∧ (timo p).tvNsec = 0 := by omega
      rw [if_pos hz, if_pos (.inl h0)]
    · have hz : ¬ ((timo p).tvSec = 0 ∧ (timo p).tvNsec = 0) := by
        rintro ⟨hs, hn⟩
        rw [hs, hn] at hsum
        exact h0 (hzero.mpr ((Nat.mul_eq_zero.mp hsum.symm).resolve_right (by decide)))
      have hp : ¬ (p = 0 ∨ p = noPioneer) := not_or.mpr ⟨h0, hno⟩
      rw [if_neg hz, if_neg hp]

/-! ## The top of the heap -/

/-- Sifting up never makes the top later. -/
theorem heapAddLoop_top {q q' : TimerQueue κ δ} {currPos : Nat}
    (h : q.heapAddLoop currPos = .ok q') {a : TimerEvent κ δ} (ha : q.eventLst[0]? = some a) :
    ∃ b, q'.eventLst[0]? = some b ∧ b.ts ≤ a.ts := by
  fun_induction heapAddLoop q currPos generalizing a with
  | case1 q currPos prtPos c p hc hp hlt ih =>
    rw [eventAt_eq_ok] at hc hp
    have hlst := exchange_eq_swap hc hp
    by_cases hprt : prtPos = 0
    · -- the sift reaches the top
      have hpa : p = a := by
        rw [hprt, ha] at hp
        exact (Option.some.inj hp).symm
      obtain ⟨b, hb, hle⟩ := ih h (a := c) (by
        rw [hlst, BinHeap.getElem?_swap hc hp, if_pos hprt.symm])
      rw [hpa] at hlt
      exact ⟨b, hb, UInt64.le_trans hle (UInt64.le_of_lt hlt)⟩
    · have hcur : currPos ≠ 0 := by
        rintro rfl
        exact hprt (by simp [prtPos])
      exact ih h (by
        rw [hlst, BinHeap.getElem?_swap hc hp, if_neg (Ne.symm hprt), if_neg (Ne.symm hcur), ha])
  | case2 =>
    obtain rfl := Except.ok.inj h
    exact ⟨a, ha, UInt64.le_refl _⟩
  | case3 => cases h
  | case4 => cases h

/-- Sifting down from below the top leaves the top alone. -/
theorem heapHold_top_below {q q' : TimerQueue κ δ} {pos : Nat} (hpos : 0 < pos)
    (h : q.heapHold pos = .ok q') : q'.eventLst[0]? = q.eventLst[0]? := by
  fun_induction heapHold q pos with
  | case1 => cases h
  | case2 =>
    obtain rfl := Except.ok.inj h
    rfl
  | case3 q pos m hm hne a b hb ha ih =>
    rw [eventAt_eq_ok] at ha hb
    have hmpos : 0 < m := by
      rcases minPos_bounds hm with rfl | ⟨hlt, _⟩
      · exact hpos
      · exact Nat.lt_trans hpos hlt
    rw [ih hmpos h, exchange_eq_swap ha hb, BinHeap.getElem?_swap ha hb,
      if_neg (Nat.ne_of_lt hpos), if_neg (Nat.ne_of_lt hmpos)]
  | case4 => cases h
  | case5 => cases h

/-- Sifting down from the top leaves there the least of the top and its children. -/
theorem heapHold_top {q q' : TimerQueue κ δ} (hq : q.count = q.eventLst.length)
    (h : q.heapHold 0 = .ok q') {i : Nat} (hi : i ≤ 2) {a : TimerEvent κ δ}
    (ha : q.eventLst[i]? = some a) : ∃ b, q'.eventLst[0]? = some b ∧ b.ts ≤ a.ts := by
  have hchild : ∀ c, 0 < c → c ≤ 2 → BinHeap.parent c = 0 := by
    intro c hc hc2
    rw [BinHeap.parent_eq_iff hc]
    omega
  obtain ⟨m, hm⟩ := minPos_returns hq 0
  rcases minPos_least hq hm with ⟨rfl, hstop⟩ | ⟨hm0, hpm, x, v, hx, hv, hlt, hmin⟩
  · rw [heapHold_stop hm] at h
    obtain rfl := Except.ok.inj h
    have h0 : 0 < q.eventLst.length := by
      have := (List.getElem?_eq_some_iff.mp ha).1
      omega
    have htop := List.getElem?_eq_getElem h0
    refine ⟨_, htop, ?_⟩
    rcases Nat.eq_zero_or_pos i with rfl | hi0
    · rw [htop] at ha
      rw [Option.some.inj ha]
      exact UInt64.le_refl _
    · exact expiry_le.mp (hstop i hi0 (hchild i hi0 hi) _ a (by rw [hchild i hi0 hi, htop]) ha)
  · rw [heapHold_move hm (Nat.ne_of_gt hm0) (eventAt_eq_ok.mpr hv) (eventAt_eq_ok.mpr hx)] at h
    refine ⟨v, ?_, ?_⟩
    · rw [heapHold_top_below hm0 h, exchange_eq_swap hv hx, BinHeap.getElem?_swap hv hx, if_pos rfl]
    · rcases Nat.eq_zero_or_pos i with rfl | hi0
      · rw [hx] at ha
        exact UInt64.le_of_lt (Option.some.inj ha ▸ expiry_lt.mp hlt)
      · exact expiry_le.mp (hmin i a hi0 (hchild i hi0 hi) ha)

/-! ## What the operations set the timerfd to -/

/-- The timerfd is re-armed for the top `top` if that is earlier than `_pioneer`. -/
structure ArmsEarlier (q q' : TimerQueue κ δ) (top : TimerEvent κ δ) : Prop where
  isTop : q'.eventLst[0]? = some top
  pioneer : q'.pioneer = if top.ts < q.pioneer then top.ts else q.pioneer
  armed : Armed q → Armed q'

theorem ArmsEarlier.le_pioneer {q q' : TimerQueue κ δ} {top : TimerEvent κ δ}
    (h : ArmsEarlier q q' top) : q'.pioneer ≤ q.pioneer := by
  rw [h.pioneer]
  split
  · rename_i hlt
    exact UInt64.le_of_lt hlt
  · exact UInt64.le_refl _

theorem ArmsEarlier.le_top {q q' : TimerQueue κ δ} {top : TimerEvent κ δ}
    (h : ArmsEarlier q q' top) : q'.pioneer ≤ top.ts := by
  rw [h.pioneer]
  split
  · exact UInt64.le_refl _
  · rename_i hle
    exact UInt64.not_lt.mp hle

theorem armEarlier_arms {q q' : TimerQueue κ δ} (h : q.armEarlier = .ok q') :
    ∃ top, ArmsEarlier q q' top := by
  obtain ⟨top, htop, h⟩ := bind_eq_ok.mp h
  rw [eventAt_eq_ok] at htop
  obtain rfl := Except.ok.inj h
  refine ⟨top, ?_, ?_, ?_⟩
  · split <;> exact htop
  · split <;> rfl
  · intro harmed
    split
    · exact arm_armed q top.ts
    · exact harmed

/-- `add_timer` arms the timerfd for the new top if that is earlier. -/
theorem addTimer_arms {q q' : TimerQueue κ δ} (hidx : Indexed q)
    {te : TimerEvent κ δ} {id : Int32} (h : q.addTimer te = .ok (id, q')) :
    ∃ top, ArmsEarlier q q' top := by
  obtain ⟨q₁, h₁, h⟩ := bind_eq_ok.mp h
  obtain ⟨q₂, h₂, h⟩ := bind_eq_ok.mp h
  obtain ⟨_, rfl⟩ := Prod.mk.inj (Except.ok.inj h)
  obtain ⟨q₃, h₃, hex⟩ := heapAddLoop_returns
    (({ q with nextTimerId := q.nextTimerId + 1 } : TimerQueue κ δ).pushBack
      { te with timerId := q.nextTimerId }) q.count
    (by simp [pushBack, setPosition, hidx.size])
  obtain rfl := Except.ok.inj (h₁.symm.trans h₃)
  obtain ⟨top, harm⟩ := armEarlier_arms h₂
  have hpioneer : q₁.pioneer = q.pioneer := hex.sameTimers.pioneer
  have hvalue : q₁.itValue = q.itValue := hex.itValue
  refine ⟨top, harm.isTop, hpioneer ▸ harm.pioneer, fun harmed => harm.armed ?_⟩
  rw [Armed, hvalue, hpioneer]
  exact harmed

/-- `add_timer` does not make the top later than it was or than the new timer is. -/
theorem addTimer_top {n : Nat} {q q' : TimerQueue κ δ} (hinv : Inv n q)
    {te : TimerEvent κ δ} {id : Int32} (h : q.addTimer te = .ok (id, q')) :
    (∀ a, q.eventLst[0]? = some a → ∃ b, q'.eventLst[0]? = some b ∧ b.ts ≤ a.ts) ∧
      (q.eventLst = [] → ∃ b, q'.eventLst[0]? = some b ∧ b.ts = te.ts) := by
  obtain ⟨q₁, h₁, hrest⟩ := bind_eq_ok.mp h
  obtain ⟨q₂, h₂, hrest⟩ := bind_eq_ok.mp hrest
  obtain ⟨_, rfl⟩ := Prod.mk.inj (Except.ok.inj hrest)
  have hsame := armEarlier_sameHeap h₂
  constructor
  · intro a ha
    have hlt : 0 < q.eventLst.length := (List.getElem?_eq_some_iff.mp ha).1
    obtain ⟨b, hb, hle⟩ := heapAddLoop_top h₁ (a := a) (by
      simp only [pushBack, setPosition]
      rw [List.getElem?_append_left hlt, ha])
    exact ⟨b, by rw [hsame.eventLst, hb], hle⟩
  · intro hnil
    obtain ⟨q₃, h₃, _, hperm⟩ := addTimer_spec hinv te
    obtain ⟨_, rfl⟩ := Prod.mk.inj (Except.ok.inj (h.symm.trans h₃))
    rw [hnil] at hperm
    rw [List.perm_singleton.mp hperm]
    exact ⟨_, rfl, rfl⟩

/-- `heap_del` leaves the timerfd alone. -/
theorem heapDel_itValue {q q' : TimerQueue κ δ} (hidx : Indexed q) {pos : Nat}
    {d : TimerEvent κ δ} (hd : q.eventLst[pos]? = some d) (h : q.heapDel pos = .ok q') :
    q'.itValue = q.itValue := by
  obtain ⟨r, hr⟩ := hidx.rear hd
  rw [heapDel_eq hd hr] at h
  obtain ⟨q₁, h₁, hex⟩ := heapHold_returns (q.fillDel pos d r) pos (hidx.fillDel hd hr).size
  obtain rfl := Except.ok.inj (h.symm.trans h₁)
  exact hex.itValue

/-- `del_timer` does nothing, or removes a timer; then it disarms the timerfd when
no timer is left, and else arms it for the new top if that is earlier. -/
theorem delTimer_arms {n : Nat} {q q' : TimerQueue κ δ} (hinv : Inv n q) {id : Int32}
    (h : q.delTimer id = .ok q') :
    q' = q ∨ (q'.eventLst = [] ∧ q'.pioneer = noPioneer ∧ Armed q') ∨
      ∃ top, ArmsEarlier q q' top := by
  rcases delTimer_spec hinv id with
    ⟨_, hno⟩ | ⟨pos, d, q₁, q₂, hpos, hd, _, hq₁, hrem, hq₂, _, _⟩
  · exact .inl (Except.ok.inj (h.symm.trans hno))
  · right
    rw [delTimer, hpos] at h
    simp only [hq₁, ok_bind] at h
    split at h
    · rename_i h0
      obtain rfl := Except.ok.inj h
      have hnil : q₁.eventLst = [] := List.eq_nil_of_length_eq_zero (hrem.indexed.size ▸ h0)
      exact .inl ⟨hnil, rfl, arm_armed q₁ noPioneer⟩
    · obtain ⟨top, harm⟩ := armEarlier_arms h
      refine .inr ⟨top, harm.isTop, hrem.pioneer ▸ harm.pioneer, fun harmed => harm.armed ?_⟩
      rw [Armed, heapDel_itValue hinv.indexed hd hq₁, hrem.pioneer]
      exact harmed

/-- No live timer that is due comes back, one period later, at `0` or at the
value `_pioneer` has when nothing is armed. -/
def ReaddsInRange (q : TimerQueue κ δ) : Prop :=
  ∀ te ∈ q.eventLst, te.ts = q.pioneer → te.interval ≠ 0 →
    te.advance.ts ≠ 0 ∧ te.advance.ts ≠ noPioneer

instance (q : TimerQueue κ δ) : Decidable (ReaddsInRange q) :=
  inferInstanceAs (Decidable (∀ te ∈ q.eventLst, _))

/-- `get_timo` leaves the timerfd armed for the top, or disarmed when no timer is left. -/
theorem getTimo_arms {n : Nat} {q q' : TimerQueue κ δ} {fired fired' : List (TimerEvent κ δ)}
    (hinv : Inv n q) (h : q.getTimo fired = .ok (fired', q')) :
    Armed q' ∧ ((q'.eventLst = [] ∧ q'.pioneer = noPioneer) ∨
      ∃ top, q'.eventLst[0]? = some top ∧ q'.pioneer = top.ts) := by
  have hsize : q'.count = q'.eventLst.length := by
    obtain ⟨_, _, q₁, hget, hinv₁, _⟩ := getTimo_spec hinv fired
    obtain ⟨_, rfl⟩ := Prod.mk.inj (Except.ok.inj (h.symm.trans hget))
    exact hinv₁.indexed.size
  obtain ⟨q₁, reuse, q₂, _, _, hset⟩ := getTimo_cases h
  rcases hset with ⟨h0, rfl⟩ | ⟨_, top, htop, rfl⟩
  · have hnil : q₂.eventLst = [] := List.eq_nil_of_length_eq_zero (hsize.symm.trans h0)
    exact ⟨arm_armed q₂ noPioneer, .inl ⟨hnil, rfl⟩⟩
  · exact ⟨arm_armed q₂ top.ts, .inr ⟨top, eventAt_eq_ok.mp htop, rfl⟩⟩

/-- What `get_timo` delivers was live and expires at `_pioneer`. -/
theorem getTimo_due {n : Nat} {q q' : TimerQueue κ δ} {fired fired' : List (TimerEvent κ δ)}
    (hinv : Inv n q) (h : q.getTimo fired = .ok (fired', q')) :
    ∀ te ∈ fired', te ∈ fired ∨ te.ts = q.pioneer := by
  obtain ⟨_, _, _, hloop, _⟩ := getTimo_cases h
  obtain ⟨evs, _, hloop', _, hpops⟩ := getTimoLoop_spec hinv fired []
  obtain ⟨_, hlists⟩ := Prod.mk.inj (Except.ok.inj (hloop.symm.trans hloop'))
  obtain ⟨rfl, _⟩ := Prod.mk.inj hlists
  intro te hte
  rcases List.mem_append.mp hte with hold | hnew
  · exact .inl hold
  · exact .inr (hpops.due te hnew)

/-- `get_timo` delivers nothing when the top is not at `_pioneer`, and else at least the top. -/
theorem getTimo_top {n : Nat} {q q' : TimerQueue κ δ} {evs : List (TimerEvent κ δ)}
    (hinv : Inv n q) (h : q.getTimo [] = .ok (evs, q')) :
    (evs = [] ∧ ∀ top, q.eventLst[0]? = some top → top.ts ≠ q.pioneer) ∨
      ∃ top, q.eventLst[0]? = some top ∧ top.ts = q.pioneer ∧ top ∈ evs := by
  obtain ⟨_, _, _, hloop, _⟩ := getTimo_cases h
  by_cases h0 : q.count = 0
  · rw [getTimoLoop, dif_pos h0] at hloop
    obtain ⟨_, hnil, _⟩ := by simpa using hloop
    refine .inl ⟨hnil, fun top htop => ?_⟩
    have hlt : 0 < q.eventLst.length := (List.getElem?_eq_some_iff.mp htop).1
    rw [← hinv.indexed.size, h0] at hlt
    exact absurd hlt (Nat.lt_irrefl 0)
  · obtain ⟨top, htop⟩ := exists_top hinv.indexed h0
    by_cases hts : q.pioneer = top.ts
    · obtain ⟨q₂, hpop, hrem⟩ := heapPop_removes hinv.indexed htop
      rw [getTimoLoop_pop h0 (eventAt_eq_ok.mpr htop) hts hpop] at hloop
      obtain ⟨evs₂, q₃, hloop₂, _⟩ := getTimoLoop_spec (hinv.removes hrem) ([] ++ [top])
        (if top.interval ≠ 0 then [] ++ [top.advance] else [])
      have heq := (Prod.mk.inj (Prod.mk.inj (Except.ok.inj (hloop.symm.trans hloop₂))).2).1
      simp only [List.nil_append] at heq
      exact .inr ⟨top, htop, hts.symm, heq ▸ List.mem_append_left evs₂ List.mem_cons_self⟩
    · rw [getTimoLoop, dif_neg h0] at hloop
      simp only [eventAt_eq_ok.mpr htop, if_neg hts] at hloop
      obtain ⟨_, hnil, _⟩ := by simpa using hloop
      refine .inl ⟨hnil, fun top' htop' hts' => ?_⟩
      obtain rfl := Option.some.inj (htop.symm.trans htop')
      exact hts hts'.symm

/-- A timer that is live after `get_timo` was live before, or is a due periodic one
a period later. -/
theorem getTimo_live {n : Nat} {q q' : TimerQueue κ δ} {fired' : List (TimerEvent κ δ)}
    (hinv : Inv n q) (h : q.getTimo [] = .ok (fired', q')) {e : TimerEvent κ δ}
    (he : e ∈ q'.eventLst) :
    ∃ te ∈ q.eventLst, e.ts = te.ts ∨
      (te.ts = q.pioneer ∧ te.interval ≠ 0 ∧ e.ts = te.advance.ts) := by
  obtain ⟨evs, rest, q₁, hget, _, hperm, hlive⟩ := getTimo_spec hinv []
  obtain ⟨rfl, rfl⟩ := Prod.mk.inj (Except.ok.inj (h.symm.trans hget))
  have hmem := hlive.subset (List.mem_map_of_mem he)
  rcases List.mem_append.mp hmem with hre | hrest
  · obtain ⟨te', hte', hpay⟩ := List.mem_map.mp hre
    obtain ⟨te, hte, rfl⟩ := List.mem_map.mp hte'
    obtain ⟨hevs, hint⟩ := List.mem_filter.mp hte
    have hts : te.advance.ts = e.ts := congrArg (fun p => p.2.2.1) hpay
    rcases getTimo_due hinv h te hevs with hnil | hdue
    · cases hnil
    · exact ⟨te, hperm.subset (List.mem_append_left rest hevs),
        .inr ⟨hdue, by simpa using hint, hts.symm⟩⟩
  · obtain ⟨te, hte, hpay⟩ := List.mem_map.mp hrest
    have hts : te.ts = e.ts := congrArg (fun p => p.2.2.1) hpay
    exact ⟨te, hperm.subset (List.mem_append_right _ hte), .inl hts.symm⟩

/-- A timer that is live after `del_timer` was live before. -/
theorem delTimer_live {n : Nat} {q q' : TimerQueue κ δ} (hinv : Inv n q) {id : Int32}
    (h : q.delTimer id = .ok q') {e : TimerEvent κ δ} (he : e ∈ q'.eventLst) :
    e ∈ q.eventLst := by
  rcases delTimer_spec hinv id with
    ⟨_, hno⟩ | ⟨_, d, q₁, q₂, _, _, _, _, hrem, hq₂, hsame, _⟩
  · obtain rfl := Except.ok.inj (h.symm.trans hno)
    exact he
  · obtain rfl := Except.ok.inj (h.symm.trans hq₂)
    rw [hsame.eventLst] at he
    exact hrem.perm.subset (List.mem_cons_of_mem d he)

/-- Every live timer expires at a time that can be armed. -/
def InRange (q : TimerQueue κ δ) : Prop :=
  ∀ te ∈ q.eventLst, te.ts ≠ 0 ∧ te.ts ≠ noPioneer

theorem addTimer_inRange {n : Nat} {q q' : TimerQueue κ δ} (hinv : Inv n q) (hq : InRange q)
    {te : TimerEvent κ δ} (hte : te.ts ≠ 0 ∧ te.ts ≠ noPioneer) {id : Int32}
    (h : q.addTimer te = .ok (id, q')) : InRange q' := by
  obtain ⟨q₁, hadd, _, hperm⟩ := addTimer_spec hinv te
  obtain ⟨_, rfl⟩ := Prod.mk.inj (Except.ok.inj (h.symm.trans hadd))
  intro e he
  rcases List.mem_cons.mp (hperm.subset he) with rfl | hold
  · exact hte
  · exact hq e hold

theorem getTimo_inRange {n : Nat} {q q' : TimerQueue κ δ} {fired' : List (TimerEvent κ δ)}
    (hinv : Inv n q) (hq : InRange q) (hre : ReaddsInRange q)
    (h : q.getTimo [] = .ok (fired', q')) : InRange q' := by
  intro e he
  obtain ⟨te, hte, hts | ⟨hdue, hint, hts⟩⟩ := getTimo_live hinv h he
  · rw [hts]
    exact hq te hte
  · rw [hts]
    exact hre te hte hdue hint

end TimerQueue

/-! ## No deadline is slept through -/

namespace TimerQueue

variable {κ δ : Type}

/-- If a timer is live, the timerfd is armed, and expires no later than any live timer. -/
def WakesInTime (q : TimerQueue κ δ) : Prop :=
  q.eventLst ≠ [] →
    ∃ t, q.itValue.expires = some t ∧ ∀ te ∈ q.eventLst, t ≤ te.ts.toNat * 1000000

/-- The timerfd is set to a time that is not after any live timer. -/
structure WakeInv (q : TimerQueue κ δ) : Prop where
  ordered : HeapOrdered q
  inRange : InRange q
  armed : Armed q
  nonzero : q.pioneer ≠ 0
  early : ∀ te ∈ q.eventLst, q.pioneer ≤ te.ts

theorem WakeInv.wakesInTime {q : TimerQueue κ δ} (h : WakeInv q) : WakesInTime q := by
  intro hne
  obtain ⟨e, he⟩ := List.exists_mem_of_ne_nil _ hne
  have hno : q.pioneer ≠ noPioneer := by
    intro hp
    have hle := h.early e he
    rw [hp] at hle
    exact (h.inRange e he).2 (UInt64.le_antisymm (le_noPioneer e.ts) hle)
  refine ⟨q.pioneer.toNat * 1000000, ?_, fun te hte => ?_⟩
  · rw [h.armed, expires_timo, if_neg (not_or.mpr ⟨h.nonzero, hno⟩)]
  · exact Nat.mul_le_mul_right _ (UInt64.le_iff_toNat_le.mp (h.early te hte))

theorem HeapOrdered.top_le {q : TimerQueue κ δ} (h : HeapOrdered q) {top te : TimerEvent κ δ}
    (htop : q.eventLst[0]? = some top) (hte : te ∈ q.eventLst) : top.ts ≤ te.ts := by
  obtain ⟨i, hi⟩ := List.mem_iff_getElem?.mp hte
  exact expiry_le.mp (h.root_le htop i te hi)

/-- With no timer left the timerfd is disarmed, and not by a timer that expires at `0`. -/
theorem WakeInv.of_nil {q : TimerQueue κ δ} (hord : HeapOrdered q) (hnil : q.eventLst = [])
    (harmed : Armed q) (hno : q.pioneer = noPioneer) : WakeInv q where
  ordered := hord
  inRange te hte := by
    rw [hnil] at hte
    cases hte
  armed := harmed
  nonzero := by
    rw [hno]
    decide
  early te _ := by
    rw [hnil] at *
    contradiction

/-- Re-arming for an earlier top keeps the timerfd ahead of every live timer. -/
theorem WakeInv.armsEarlier {q q' : TimerQueue κ δ} {top : TimerEvent κ δ} (h : WakeInv q)
    (hord : HeapOrdered q') (hrange : InRange q') (harm : ArmsEarlier q q' top) :
    WakeInv q' where
  ordered := hord
  inRange := hrange
  armed := harm.armed h.armed
  nonzero := by
    rw [harm.pioneer]
    split
    · exact (hrange top (List.mem_of_getElem? harm.isTop)).1
    · exact h.nonzero
  early te hte := UInt64.le_trans harm.le_top (hord.top_le harm.isTop hte)

end TimerQueue

namespace TimerRun

open TimerQueue

variable {κ δ : Type}

/-- The calls that keep the timerfd ahead of every live timer: no timer expires at
`0`, which `timerfd_settime` reads as "disarm", no deletion loses heap order, and
no periodic timer comes back at a time that disarms. -/
def KeepsAhead (r : TimerRun κ δ) : TimerOp κ δ → Prop
  | .addTimer te => te.ts ≠ 0
  | .delTimer id => DelKeepsOrder r.queue id
  | .getTimo => ReaddsInRange r.queue

/-- `run_at` is given a time below the sentinel. -/
def BelowSentinel : TimerOp κ δ → Prop
  | .addTimer te => te.ts ≠ noPioneer
  | _ => True

theorem step_wakeInv {r r' : TimerRun κ δ} (hinv : Inv r.issued r.queue) (h : WakeInv r.queue)
    {op : TimerOp κ δ} (hdom : BelowSentinel op) (hkeep : KeepsAhead r op)
    (hstep : r.step op = .ok r') : WakeInv r'.queue := by
  have hord : HeapOrdered r'.queue :=
    step_ordered hinv h.ordered (fun id hid => by subst hid; exact hkeep) hstep
  cases step_cases hstep with
  | addTimer hadd =>
    obtain ⟨top, harm⟩ := addTimer_arms hinv.indexed hadd
    exact h.armsEarlier hord (addTimer_inRange hinv h.inRange ⟨hkeep, hdom⟩ hadd) harm
  | @delTimer id q' hdel =>
    have hrange : InRange q' := fun te hte => h.inRange te (delTimer_live hinv hdel hte)
    rcases delTimer_arms hinv hdel with rfl | ⟨hnil, hno, harmed⟩ | ⟨top, harm⟩
    · exact h
    · exact WakeInv.of_nil hord hnil harmed hno
    · exact h.armsEarlier hord hrange harm
  | @getTimo evs q' hget =>
    have hrange : InRange q' := getTimo_inRange hinv h.inRange hkeep hget
    obtain ⟨harmed, ⟨hnil, hno⟩ | ⟨top, htop, hts⟩⟩ := getTimo_arms hinv hget
    · exact WakeInv.of_nil hord hnil harmed hno
    · refine ⟨hord, hrange, harmed, ?_, fun te hte => ?_⟩
      · show q'.pioneer ≠ 0
        rw [hts]
        exact (hrange top (List.mem_of_getElem? htop)).1
      · show q'.pioneer ≤ te.ts
        rw [hts]
        exact hord.top_le htop hte

/-- **No deadline is slept through.**  In every run whose calls all meet `KeepsAhead`,
in every state reached, the timerfd is armed for a time no later than any live timer. -/
theorem no_deadline_slept_through (ops : List (TimerOp κ δ))
    (hdom : ∀ op ∈ ops, BelowSentinel op) (hkeep : Meets step KeepsAhead start ops) :
    ∃ r, run ops = .ok r ∧ WakesInTime r.queue := by
  obtain ⟨r, hrun, _⟩ := run_returns ops
  have hmeets : Meets step (fun r op => KeepsAhead r op ∧ BelowSentinel op)
      (start : TimerRun κ δ) ops :=
    hkeep.imp_mem fun _ op hop hk => ⟨hk, hdom op hop⟩
  have hstart : WakeInv (start : TimerRun κ δ).queue :=
    .of_nil (BinHeap.ordered_nil expiry) rfl rfl rfl
  have hend : Ends (ops.foldlM step start)
      (fun r => Inv r.issued r.queue ∧ WakeInv r.queue) (fun _ => True) := by
    refine Ends.foldlM_meets ?_ ops start ⟨inv_empty, hstart⟩ hmeets
    rintro r op ⟨hinv, hwake⟩ ⟨hk, hd⟩
    obtain ⟨r', hstep, hinv'⟩ := step_inv hinv op
    rw [hstep]
    exact ⟨hinv', step_wakeInv hinv hwake hd hk hstep⟩
  exact ⟨r, hrun, (hend.of_ok hrun).2.wakesInTime⟩

instance (q : TimerQueue κ δ) (id : Int32) : Decidable (DelKeepsOrder q id) :=
  match hid : q.position id with
  | none => .isTrue fun pos hpos => by
      rw [hid] at hpos
      cases hpos
  | some pos =>
    decidable_of_iff
      (0 < pos → ∀ p ∈ q.eventLst[(pos - 1) / 2]?, ∀ r ∈ q.eventLst[q.count - 1]?, p.ts ≤ r.ts)
      ⟨fun h pos' hpos' hlt p r hp hr => by
        rw [hid] at hpos'
        obtain rfl := Option.some.inj hpos'
        exact h hlt p hp r hr,
      fun h hlt p hp r hr => h pos hid hlt p r hp hr⟩

instance (r : TimerRun κ δ) (op : TimerOp κ δ) : Decidable (KeepsAhead r op) :=
  match op with
  | .addTimer te => inferInstanceAs (Decidable (te.ts ≠ 0))
  | .delTimer id => inferInstanceAs (Decidable (DelKeepsOrder r.queue id))
  | .getTimo => inferInstanceAs (Decidable (ReaddsInRange r.queue))

instance (op : TimerOp κ δ) : Decidable (BelowSentinel op) :=
  match op with
  | .addTimer te => inferInstanceAs (Decidable (te.ts ≠ noPioneer))
  | .delTimer _ => .isTrue trivial
  | .getTimo => .isTrue trivial

/-- A timer of the runs below that expires every `interval` milliseconds. -/
def every (ts : UInt64) (interval : UInt32) : TimerEvent Unit Unit := ⟨(), (), ts, interval, 0⟩

/-- The earliest timer is deleted, so the timerfd goes off with nothing due; then
the next two timers expire, and one of them comes back. -/
def wakingRun : List (TimerOp Unit Unit) :=
  [.addTimer (oneShot 5), .addTimer (every 5 3), .addTimer (oneShot 2), .addTimer (oneShot 9),
    .delTimer 2, .getTimo, .getTimo]

theorem no_deadline_slept_through_wakingRun :
    Meets step KeepsAhead start wakingRun ∧ ∃ r, run wakingRun = .ok r ∧ WakesInTime r.queue := by
  have hkeep : Meets step KeepsAhead start wakingRun := by decide +kernel
  exact ⟨hkeep, no_deadline_slept_through wakingRun (by decide) hkeep⟩

/-- A timer at `0`: the time `reset_timo` sets the timerfd to is the one that disarms it. -/
theorem deadline_at_zero_slept_through :
    ¬ ∀ ops : List (TimerOp Unit Unit), (∀ op ∈ ops, BelowSentinel op) →
      ∃ r, run ops = .ok r ∧ WakesInTime r.queue := by
  intro hall
  obtain ⟨r, hrun, hwake⟩ := hall [.addTimer (oneShot 0)] (by decide)
  have hobs : (run [.addTimer (oneShot 0)]).toOption.map
      (fun r => (r.queue.eventLst.length, r.queue.itValue.expires)) = some (1, none) := by
    decide +kernel
  have hobs := observed_of_ok hrun hobs
  simp only [Prod.mk.injEq] at hobs
  obtain ⟨t, ht, _⟩ := hwake (by
    intro hnil
    rw [hnil] at hobs
    cases hobs.1)
  rw [hobs.2] at ht
  cases ht

end TimerRun

end EasyReactor.Timer
