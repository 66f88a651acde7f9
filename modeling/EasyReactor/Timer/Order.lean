import Mathlib.Data.List.Induction
import Mathlib.Tactic.IntervalCases
import EasyReactor.Timer.Position

set_option autoImplicit false

/-!
# Timer: heap order

`heap_add` sifts up, `heap_hold` sifts down, and each is right on its own.
`heap_del` however fills the hole with the rear of the heap and only sifts *down*
from there.  When the rear comes from another branch of the heap it may expire
before the parent of the hole, and then it would have to be sifted up.

So heap order is kept by every `add_timer` and `get_timo`, and by every
`del_timer` whose rear does not expire before the hole's parent
(`DelKeepsOrder`); `heap_order_lost` is a run of eight calls that loses it.
-/

namespace EasyReactor.Timer

open EasyReactor.Foundation

namespace TimerQueue

variable {κ δ : Type}

/-- What the heap is ordered by. -/
def expiry (te : TimerEvent κ δ) : Nat := te.ts.toNat

/-- `_event_lst` is a min-heap by `ts`. -/
def HeapOrdered (q : TimerQueue κ δ) : Prop := BinHeap.Ordered expiry q.eventLst

theorem expiry_lt {a b : TimerEvent κ δ} : expiry a < expiry b ↔ a.ts < b.ts :=
  UInt64.lt_iff_toNat_lt.symm

theorem expiry_le {a b : TimerEvent κ δ} : expiry a ≤ expiry b ↔ a.ts ≤ b.ts :=
  UInt64.le_iff_toNat_le.symm

/-! ## The two sifts -/

theorem heapAddLoop_ordered {q q' : TimerQueue κ δ} {currPos : Nat}
    (hole : BinHeap.UpHole expiry q.eventLst currPos)
    (h : q.heapAddLoop currPos = .ok q') : HeapOrdered q' := by
  fun_induction heapAddLoop q currPos with
  | case1 q currPos prtPos c p hc hp hlt ih =>
    rw [eventAt_eq_ok] at hc hp
    have hpos : 0 < currPos := by
      rcases Nat.eq_zero_or_pos currPos with rfl | hpos
      · exact absurd (Option.some.inj (hc.symm.trans hp) ▸ hlt) (UInt64.lt_irrefl _)
      · exact hpos
    refine ih ?_ h
    rw [exchange_eq_swap hc hp]
    exact hole.step hpos hc hp (expiry_lt.mpr hlt)
  | case2 q currPos prtPos c p hc hp hlt =>
    obtain rfl := Except.ok.inj h
    rw [eventAt_eq_ok] at hc hp
    refine hole.finish (fun _ a b ha hb => ?_)
    obtain rfl := Option.some.inj (hp.symm.trans ha)
    obtain rfl := Option.some.inj (hc.symm.trans hb)
    exact expiry_le.mpr (UInt64.not_lt.mp hlt)
  | case3 => cases h
  | case4 => cases h

/-- `min_pos` is the hole when both children are in order, and otherwise the least
child. -/
theorem minPos_least {q : TimerQueue κ δ} (hq : q.count = q.eventLst.length) {pos m : Nat}
    (h : q.minPos pos = .ok m) :
    (m = pos ∧ ∀ c, 0 < c → BinHeap.parent c = pos → BinHeap.PairOk expiry q.eventLst c) ∨
      (0 < m ∧ BinHeap.parent m = pos ∧ ∃ x v, q.eventLst[pos]? = some x ∧
        q.eventLst[m]? = some v ∧ expiry v < expiry x ∧
        ∀ s w, 0 < s → BinHeap.parent s = pos → q.eventLst[s]? = some w →
          expiry v ≤ expiry w) := by
  have hin : ∀ {i : Nat} {e : TimerEvent κ δ}, q.eventLst[i]? = some e → i < q.count :=
    fun he => hq ▸ (List.getElem?_eq_some_iff.mp he).1
  obtain ⟨m₁, h₁, h₂⟩ := bind_eq_ok.mp h
  rcases prefer_cases h₁ with ⟨rfl, hl⟩ | ⟨rfl, hlc, x, l, hx, hl, hlx⟩
  · rcases prefer_cases h₂ with ⟨rfl, hr⟩ | ⟨rfl, hrc, x, r, hx, hr, hrx⟩
    · -- neither child is earlier
      refine .inl ⟨rfl, fun c hc hpc a b ha hb => expiry_le.mpr ?_⟩
      rw [hpc] at ha
      rcases (BinHeap.parent_eq_iff hc).mp hpc with rfl | rfl
      · exact hl a b (hin hb) ha hb
      · exact hr a b (hin hb) ha hb
    · -- only the right child is earlier
      refine .inr ⟨by omega, (BinHeap.parent_eq_iff (by omega)).mpr (.inr rfl), x, r, hx, hr,
        expiry_lt.mpr hrx, fun s w hs hps hw => ?_⟩
      rcases (BinHeap.parent_eq_iff hs).mp hps with rfl | rfl
      · exact Nat.le_trans (Nat.le_of_lt (expiry_lt.mpr hrx))
          (expiry_le.mpr (hl x w (hin hw) hx hw))
      · exact Nat.le_of_eq (congrArg expiry (Option.some.inj (hr.symm.trans hw)))
  · rcases prefer_cases h₂ with ⟨rfl, hr⟩ | ⟨rfl, hrc, l', r, hl', hr, hrl⟩
    · -- the left child is earlier, and no later than the right one
      refine .inr ⟨by omega, (BinHeap.parent_eq_iff (by omega)).mpr (.inl rfl), x, l, hx, hl,
        expiry_lt.mpr hlx, fun s w hs hps hw => ?_⟩
      rcases (BinHeap.parent_eq_iff hs).mp hps with rfl | rfl
      · exact Nat.le_of_eq (congrArg expiry (Option.some.inj (hl.symm.trans hw)))
      · exact expiry_le.mpr (hr l w (hin hw) hl hw)
    · -- the right child is earlier than the left one, which is earlier than the hole
      obtain rfl := Option.some.inj (hl.symm.trans hl')
      have hrx : expiry r < expiry x := Nat.lt_trans (expiry_lt.mpr hrl) (expiry_lt.mpr hlx)
      refine .inr ⟨by omega, (BinHeap.parent_eq_iff (by omega)).mpr (.inr rfl), x, r, hx, hr,
        hrx, fun s w hs hps hw => ?_⟩
      rcases (BinHeap.parent_eq_iff hs).mp hps with rfl | rfl
      · obtain rfl := Option.some.inj (hl.symm.trans hw)
        exact Nat.le_of_lt (expiry_lt.mpr hrl)
      · exact Nat.le_of_eq (congrArg expiry (Option.some.inj (hr.symm.trans hw)))

/-- `heap_hold` closes a hole, among the indices `Q`. -/
theorem heapHold_ordered {Q : Nat → Prop} (hQ : ∀ c, 0 < c → Q (BinHeap.parent c) → Q c)
    {q q' : TimerQueue κ δ} {pos : Nat} (hq : q.count = q.eventLst.length)
    (hole : BinHeap.DownHole expiry Q q.eventLst pos) (h : q.heapHold pos = .ok q') :
    ∀ i, Q i → 0 < i → BinHeap.PairOk expiry q'.eventLst i := by
  fun_induction heapHold q pos with
  | case1 => cases h
  | case2 q m hm =>
    obtain rfl := Except.ok.inj h
    rcases minPos_least hq hm with ⟨_, hstop⟩ | ⟨hm0, hpm, _⟩
    · exact hole.finish hstop
    · exact absurd hpm (Nat.ne_of_lt (BinHeap.parent_lt hm0))
  | case3 q pos m hm hne a b hb ha ih =>
    rw [eventAt_eq_ok] at ha hb
    rcases minPos_least hq hm with ⟨heq, _⟩ | ⟨hm0, hpm, x, v, hx, hv, hlt, hmin⟩
    · exact absurd heq hne
    · refine ih (by simpa using hq) ?_ h
      have hswap : (q.exchange m pos a b).eventLst = BinHeap.swap q.eventLst pos m := by
        rw [exchange_eventLst, BinHeap.swap_eq hb ha, List.set_comm _ _ hne]
      rw [hswap]
      exact hole.step hQ hm0 hpm hx hv hlt hmin
  | case4 => cases h
  | case5 => cases h

/-! ## The heap operations -/

theorem heapAdd_ordered {q q' : TimerQueue κ δ} (hidx : Indexed q) (h : HeapOrdered q)
    {te : TimerEvent κ δ} (hadd : q.heapAdd te = .ok q') : HeapOrdered q' := by
  refine heapAddLoop_ordered ?_ hadd
  rw [hidx.size]
  exact BinHeap.UpHole.of_append h te

theorem fill_hole {l : List (TimerEvent κ δ)} (h : BinHeap.Ordered expiry l) {pos : Nat}
    {r : TimerEvent κ δ}
    (hup : 0 < pos → ∀ a, l[BinHeap.parent pos]? = some a → expiry a ≤ expiry r) :
    BinHeap.DownHole expiry (fun _ => True) (l.set pos r).dropLast pos :=
  (BinHeap.DownHole.of_set h hup).dropLast

/-- The rear of the heap, which `heap_del` moves into the hole the timer `id`
leaves, does not expire before the parent of that hole. -/
def DelKeepsOrder (q : TimerQueue κ δ) (id : Int32) : Prop :=
  ∀ pos, q.position id = some pos → 0 < pos →
    ∀ p r, q.eventLst[(pos - 1) / 2]? = some p → q.eventLst[q.count - 1]? = some r →
      p.ts ≤ r.ts

theorem heapDel_ordered {q q' : TimerQueue κ δ} (hidx : Indexed q) (h : HeapOrdered q)
    {pos : Nat} {d r : TimerEvent κ δ} (hd : q.eventLst[pos]? = some d)
    (hr : q.eventLst[q.count - 1]? = some r)
    (hup : 0 < pos → ∀ p, q.eventLst[(pos - 1) / 2]? = some p → p.ts ≤ r.ts)
    (hdel : q.heapDel pos = .ok q') : HeapOrdered q' := by
  rw [heapDel_eq hd hr] at hdel
  have hole : BinHeap.DownHole expiry (fun _ => True) (q.fillDel pos d r).eventLst pos :=
    fill_hole h (fun hpos a ha => expiry_le.mpr (hup hpos a ha))
  exact fun i hi => heapHold_ordered (fun _ _ _ => trivial) (hidx.fillDel hd hr).size hole hdel
    i trivial hi

theorem heapPop_ordered {q q' : TimerQueue κ δ} (hidx : Indexed q) (h : HeapOrdered q)
    {d : TimerEvent κ δ} (hd : q.eventLst[0]? = some d) (hpop : q.heapPop = .ok q') :
    HeapOrdered q' := by
  have hpos : 0 < q.count := hidx.size ▸ (List.getElem?_eq_some_iff.mp hd).1
  rcases Nat.lt_or_eq_of_le hpos with h1 | h1
  · obtain ⟨r, hr⟩ := hidx.rear hd
    rw [heapPop_eq h1 hd hr] at hpop
    have hole : BinHeap.DownHole expiry (fun _ => True) (q.fillPop d r).eventLst 0 :=
      fill_hole h (fun hpos => absurd hpos (Nat.lt_irrefl 0))
    exact fun i hi => heapHold_ordered (fun _ _ _ => trivial) (hidx.fillPop h1 hd hr).size hole
      hpop i trivial hi
  · rw [heapPop_one h1.symm hd] at hpop
    obtain rfl := Except.ok.inj hpop
    exact BinHeap.ordered_nil expiry

/-! ## The operations of the queue -/

theorem SameHeap.ordered {q q' : TimerQueue κ δ} (hs : SameHeap q q') (h : HeapOrdered q) :
    HeapOrdered q' := by
  rw [HeapOrdered, hs.eventLst]
  exact h

theorem armEarlier_sameHeap {q q' : TimerQueue κ δ} (h : q.armEarlier = .ok q') :
    SameHeap q q' := by
  obtain ⟨top, htop, _⟩ := bind_eq_ok.mp h
  obtain ⟨q₁, h₁, hs⟩ := armEarlier_returns (eventAt_eq_ok.mp htop)
  obtain rfl := Except.ok.inj (h.symm.trans h₁)
  exact hs

theorem addTimer_ordered {q q' : TimerQueue κ δ} (hidx : Indexed q) (h : HeapOrdered q)
    {te : TimerEvent κ δ} {id : Int32} (hadd : q.addTimer te = .ok (id, q')) :
    HeapOrdered q' := by
  obtain ⟨q₁, h₁, hadd⟩ := bind_eq_ok.mp hadd
  obtain ⟨q₂, h₂, hadd⟩ := bind_eq_ok.mp hadd
  obtain ⟨_, rfl⟩ := Prod.mk.inj (Except.ok.inj hadd)
  have hidx₀ : Indexed ({ q with nextTimerId := q.nextTimerId + 1 } : TimerQueue κ δ) :=
    ⟨hidx.size, hidx.sound⟩
  exact (armEarlier_sameHeap h₂).ordered (heapAdd_ordered hidx₀ h h₁)

theorem delTimer_ordered {n : Nat} {q q' : TimerQueue κ δ} (hinv : Inv n q)
    (h : HeapOrdered q) {id : Int32} (hkeep : DelKeepsOrder q id)
    (hdel : q.delTimer id = .ok q') : HeapOrdered q' := by
  rcases delTimer_spec hinv id with
    ⟨_, hno⟩ | ⟨pos, d, q₁, q₂, hpos, hd, _, hq₁, _, hq₂, hsame, _⟩
  · obtain rfl := Except.ok.inj (hno.symm.trans hdel)
    exact h
  · obtain rfl := Except.ok.inj (hq₂.symm.trans hdel)
    obtain ⟨r, hr⟩ := hinv.indexed.rear hd
    exact hsame.ordered (heapDel_ordered hinv.indexed h hd hr
      (fun hp p hpar => hkeep pos hpos hp p r hpar hr) hq₁)

theorem PopsDue.ordered {q q' : TimerQueue κ δ} {te : TimerEvent κ δ} (hidx : Indexed q)
    (h : HeapOrdered q) (hpop : PopsDue q te q') : HeapOrdered q' :=
  heapPop_ordered hidx h hpop.top hpop.pop

theorem readd_ordered : ∀ (reuse : List (TimerEvent κ δ)) {q q' : TimerQueue κ δ},
    Indexed q → HeapOrdered q →
    reuse.foldlM (fun q te => Prod.snd <$> q.addTimer te) q = .ok q' → HeapOrdered q' := by
  intro reuse
  induction reuse with
  | nil =>
    intro q q' _ h hadd
    obtain rfl := Except.ok.inj hadd
    exact h
  | cons te rest ih =>
    intro q q' hidx h hadd
    obtain ⟨q₁, h₁, hq₁⟩ := addTimer_adds hidx te
    rw [List.foldlM_cons, h₁] at hadd
    exact ih hq₁.indexed (addTimer_ordered hidx h h₁) hadd

theorem getTimo_ordered {q q' : TimerQueue κ δ} {fired fired' : List (TimerEvent κ δ)}
    (hidx : Indexed q) (h : HeapOrdered q) (hget : q.getTimo fired = .ok (fired', q')) :
    HeapOrdered q' := by
  obtain ⟨q₁, reuse, q₂, hloop, hadd, hset⟩ := getTimo_cases hget
  obtain ⟨_, _, hloop', ⟨hidx₁, h₁⟩, _⟩ :=
    getTimoLoop_pops (P := fun q => Indexed q ∧ HeapOrdered q) (fun _ h => h.1)
      (fun _ _ _ h hpop => ⟨hpop.removes.indexed, hpop.ordered h.1 h.2⟩) ⟨hidx, h⟩ fired []
  obtain ⟨rfl, -⟩ := Prod.mk.inj (Except.ok.inj (hloop'.symm.trans hloop))
  have h₂ := readd_ordered _ hidx₁ h₁ hadd
  rcases hset with ⟨_, rfl⟩ | ⟨_, _, _, rfl⟩
  · exact h₂
  · exact h₂

end TimerQueue

/-! ## Every run -/

namespace TimerRun

open TimerQueue

variable {κ δ : Type}

/-- Every `del_timer` of the run finds the rear of the heap not before the parent
of the hole it makes. -/
def DelsKeepOrder (ops : List (TimerOp κ δ)) : Prop :=
  ∀ (i : Nat) (id : Int32), ops[i]? = some (.delTimer id) →
    ∀ r, run (ops.take i) = .ok r → DelKeepsOrder r.queue id

theorem step_ordered {r r' : TimerRun κ δ} (hinv : Inv r.issued r.queue)
    (h : HeapOrdered r.queue) {op : TimerOp κ δ}
    (hkeep : ∀ id, op = .delTimer id → DelKeepsOrder r.queue id)
    (hstep : r.step op = .ok r') : HeapOrdered r'.queue := by
  cases step_cases hstep with
  | addTimer hadd => exact addTimer_ordered hinv.indexed h hadd
  | delTimer hdel => exact delTimer_ordered hinv h (hkeep _ rfl) hdel
  | getTimo hget => exact getTimo_ordered hinv.indexed h hget

theorem run_ordered {ops : List (TimerOp κ δ)} (hkeep : DelsKeepOrder ops)
    {r : TimerRun κ δ} (hrun : run ops = .ok r) : HeapOrdered r.queue := by
  induction ops using List.reverseRecOn generalizing r with
  | nil =>
    obtain rfl := Except.ok.inj hrun
    exact BinHeap.ordered_nil expiry
  | append_singleton ops op ih =>
    obtain ⟨r₀, hr₀, hstep⟩ := foldlM_concat_eq_ok.mp hrun
    obtain ⟨r₁, hr₁, hinv⟩ := run_returns ops
    obtain rfl := Except.ok.inj (hr₀.symm.trans hr₁)
    have hkeep₀ : DelsKeepOrder ops := by
      intro i id hi r hr
      have hlt : i < ops.length := (List.getElem?_eq_some_iff.mp hi).1
      refine hkeep i id (by rw [List.getElem?_append_left hlt, hi]) r ?_
      rwa [List.take_append_of_le_length (Nat.le_of_lt hlt)]
    refine step_ordered hinv (ih hkeep₀ hr₀) ?_ hstep
    rintro id rfl
    exact hkeep ops.length id (by simp) r₀ (by simpa [run] using hr₀)

/-- **Timer heap order.**  In every run in which each `del_timer` meets
`DelKeepsOrder`, the heap is ordered in the state reached, and its top expires
first of all live timers. -/
theorem heap_order_kept (ops : List (TimerOp κ δ)) (hkeep : DelsKeepOrder ops) :
    ∃ r, run ops = .ok r ∧
      (∀ (i : Nat) (a b : TimerEvent κ δ), 0 < i → r.queue.eventLst[(i - 1) / 2]? = some a →
        r.queue.eventLst[i]? = some b → a.ts ≤ b.ts) ∧
      (∀ top te : TimerEvent κ δ, r.queue.eventLst[0]? = some top → te ∈ r.queue.eventLst →
        top.ts ≤ te.ts) := by
  obtain ⟨r, hrun, _⟩ := run_returns ops
  have hord := run_ordered hkeep hrun
  refine ⟨r, hrun, ?_, ?_⟩
  · intro i a b hi ha hb
    exact expiry_le.mp (hord i hi a b ha hb)
  · intro top te htop hte
    obtain ⟨i, hi⟩ := List.mem_iff_getElem?.mp hte
    exact expiry_le.mp (hord.root_le htop i te hi)

/-- A one-shot timer of the runs below. -/
def oneShot (ts : UInt64) : TimerEvent Unit Unit := ⟨(), (), ts, 0, 0⟩

/-- Four timers, then the deletion of the second, in place of which the rear goes. -/
def keepingRun : List (TimerOp Unit Unit) :=
  [.addTimer (oneShot 1), .addTimer (oneShot 4), .addTimer (oneShot 2), .addTimer (oneShot 7),
    .delTimer 1]

theorem heap_order_kept_keepingRun :
    DelsKeepOrder keepingRun ∧ ∃ r, run keepingRun = .ok r ∧
      (∀ (i : Nat) (a b : TimerEvent Unit Unit), 0 < i →
        r.queue.eventLst[(i - 1) / 2]? = some a → r.queue.eventLst[i]? = some b →
          a.ts ≤ b.ts) ∧
      (∀ top te : TimerEvent Unit Unit, r.queue.eventLst[0]? = some top →
        te ∈ r.queue.eventLst → top.ts ≤ te.ts) := by
  have hkeep : DelsKeepOrder keepingRun := by
    intro i id hi r hr pos hpos _ p rear hp hrear
    have h4 : i = 4 ∧ id = 1 := by
      have hlt : i < keepingRun.length := (List.getElem?_eq_some_iff.mp hi).1
      simp only [keepingRun, List.length_cons, List.length_nil] at hlt
      interval_cases i <;> simp_all [keepingRun]
    obtain ⟨rfl, rfl⟩ := h4
    have hobs : (run (keepingRun.take 4)).toOption.map
        (fun r => (r.queue.eventLst.map (·.ts), r.queue.count, r.queue.position 1)) =
          some ([1, 4, 2, 7], 4, some 1) := by decide +kernel
    have hobs := observed_of_ok hr hobs
    simp only [Prod.mk.injEq] at hobs
    obtain ⟨hts, hcount, hpos1⟩ := hobs
    obtain rfl : pos = 1 := by simpa [hpos1] using hpos.symm
    have hcell : ∀ {i : Nat} {te : TimerEvent Unit Unit}, r.queue.eventLst[i]? = some te →
        ([1, 4, 2, 7] : List UInt64)[i]? = some te.ts := by
      intro i te hte
      rw [← hts, List.getElem?_map, hte]
      rfl
    rw [hcount] at hrear
    rw [← Option.some.inj (hcell hp), ← Option.some.inj (hcell hrear)]
    decide
  exact ⟨hkeep, heap_order_kept keepingRun hkeep⟩

/-- Seven timers in a heap of two branches, `1 (10 (11 12)) (2 (3 4))`, and the
deletion of `11`: the rear `4` goes below `10`. -/
def losingRun : List (TimerOp Unit Unit) :=
  [.addTimer (oneShot 1), .addTimer (oneShot 10), .addTimer (oneShot 2), .addTimer (oneShot 11),
    .addTimer (oneShot 12), .addTimer (oneShot 3), .addTimer (oneShot 4), .delTimer 3]

theorem heap_order_lost :
    ¬ ∀ (ops : List (TimerOp Unit Unit)) (r : TimerRun Unit Unit), run ops = .ok r →
      ∀ (i : Nat) (a b : TimerEvent Unit Unit), 0 < i →
        r.queue.eventLst[(i - 1) / 2]? = some a → r.queue.eventLst[i]? = some b →
          a.ts ≤ b.ts := by
  intro hall
  obtain ⟨r, hrun, _⟩ := run_returns losingRun
  have hobs : (run losingRun).toOption.map (fun r => (r.queue.eventLst[1]?, r.queue.eventLst[3]?)) =
      some (some { oneShot 10 with timerId := 1 }, some { oneShot 4 with timerId := 6 }) := by
    decide +kernel
  have hobs := observed_of_ok hrun hobs
  simp only [Prod.mk.injEq] at hobs
  exact absurd (hall losingRun r hrun 3 _ _ (by decide) hobs.1 hobs.2) (by decide)

end TimerRun

end EasyReactor.Timer
