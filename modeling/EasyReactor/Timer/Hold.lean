import EasyReactor.Foundation.Subtree
import EasyReactor.Timer.Order

set_option autoImplicit false

/-!
# Timer: `heap_hold` and the subtree it is called on

`heap_hold` is called on an index whose children are in order below themselves, with
whatever its caller has put there.  It restores the order of that subtree and leaves every
other cell alone.  What `heap_del` gets wrong lies outside: the parent of the index.
-/

namespace EasyReactor.Timer.TimerQueue

open EasyReactor.Foundation

variable {κ δ : Type} {q q' : TimerQueue κ δ} {pos : Nat}

/-- The timers in the subtree of an index. -/
def subtree (q : TimerQueue κ δ) (root : Nat) : List (TimerEvent κ δ) :=
  BinHeap.cells (BinHeap.Subtree root) q.eventLst

/-- The subtree of an index is heap-ordered. -/
def SubtreeOrdered (q : TimerQueue κ δ) (root : Nat) : Prop :=
  BinHeap.SubtreeOrdered expiry q.eventLst root

/-- `heap_hold` exchanges cells of the subtree only. -/
theorem heapHold_frame (hq : q.count = q.eventLst.length) (h : q.heapHold pos = .ok q') :
    ∀ i, ¬ BinHeap.Subtree pos i → q'.eventLst[i]? = q.eventLst[i]? := by
  fun_induction heapHold q pos with
  | case1 => cases h
  | case2 q pos hm =>
    obtain rfl := Except.ok.inj h
    exact fun _ _ => rfl
  | case3 q pos m hm hne a b hb ha ih =>
    rw [eventAt_eq_ok] at ha hb
    intro i hi
    rcases minPos_least hq hm with ⟨heq, -⟩ | ⟨hm0, hpm, -⟩
    · exact absurd heq hne
    · have hnotm : ¬ BinHeap.Subtree m i := fun hsub => hi (hsub.of_child hm0 hpm)
      have him : i ≠ m := by
        rintro rfl
        exact hnotm .root
      have hipos : i ≠ pos := by
        rintro rfl
        exact hi .root
      rw [ih (by simpa using hq) h i hnotm, exchange_eq_swap ha hb,
        BinHeap.getElem?_swap ha hb, if_neg hipos, if_neg him]
  | case4 => cases h
  | case5 => cases h

/-- **`heap_hold` restores the subtree of `pos`** when those of its children are in order,
and touches nothing else. -/
theorem heapHold_restores (h : Consistent q) (pos : Nat)
    (hleft : SubtreeOrdered q (2 * pos + 1)) (hright : SubtreeOrdered q (2 * pos + 2)) :
    ∃ q', q.heapHold pos = .ok q' ∧ SubtreeOrdered q' pos ∧
      (q'.subtree pos).Perm (q.subtree pos) ∧
      (∀ i, ¬ BinHeap.Subtree pos i → q'.eventLst[i]? = q.eventLst[i]?) ∧
      Consistent q' ∧ q'.count = q.count ∧ q'.nextTimerId = q.nextTimerId ∧
      q'.pioneer = q.pioneer ∧ q'.itValue = q.itValue := by
  obtain ⟨q', hq', hex⟩ := heapHold_returns q pos h.size
  have hsame := hex.sameTimers
  have hframe := heapHold_frame h.size hq'
  have hordered : SubtreeOrdered q' pos := by
    intro i hi hsub
    refine heapHold_ordered ?_ h.size (.of_subtrees hleft hright) hq' i ⟨hi, hsub⟩ hi
    exact fun c hc hQ => ⟨hc, .child hQ.1 hQ.2⟩
  exact ⟨q', hq', hordered, BinHeap.cells_perm hsame.perm hframe, hframe, hex.consistent h,
    hsame.count, hsame.nextTimerId, hsame.pioneer, hex.itValue⟩

/-- Three timers, the last to expire put at the root. -/
def rearAtRoot : TimerQueue Unit Unit where
  eventLst := [{ TimerRun.oneShot 5 with timerId := 0 }, { TimerRun.oneShot 1 with timerId := 1 },
    { TimerRun.oneShot 2 with timerId := 2 }]
  position id := if id = 0 then some 0 else if id = 1 then some 1 else if id = 2 then some 2
    else none
  count := 3
  nextTimerId := 3
  pioneer := 1
  itValue := ⟨0, 1000000⟩

theorem heapHold_restores_rearAtRoot :
    Consistent rearAtRoot ∧ SubtreeOrdered rearAtRoot 1 ∧ SubtreeOrdered rearAtRoot 2 ∧
    ∃ q', rearAtRoot.heapHold 0 = .ok q' ∧ SubtreeOrdered q' 0 ∧
      (q'.subtree 0).Perm (rearAtRoot.subtree 0) ∧
      (∀ i, ¬ BinHeap.Subtree 0 i → q'.eventLst[i]? = rearAtRoot.eventLst[i]?) ∧
      Consistent q' ∧ q'.count = 3 ∧ q'.nextTimerId = 3 ∧
      q'.pioneer = 1 ∧ q'.itValue = ⟨0, 1000000⟩ := by
  have hcons : Consistent rearAtRoot := by
    refine ⟨⟨rfl, fun id p hp => ?_⟩, fun i te hi => ?_⟩
    · simp only [rearAtRoot] at hp
      split at hp
      · obtain rfl := Option.some.inj hp
        exact ⟨_, rfl, by simp [*]⟩
      split at hp
      · obtain rfl := Option.some.inj hp
        exact ⟨_, rfl, by simp [*]⟩
      split at hp
      · obtain rfl := Option.some.inj hp
        exact ⟨_, rfl, by simp [*]⟩
      cases hp
    · have hlt : i < 3 := (List.getElem?_eq_some_iff.mp hi).1
      interval_cases i <;> obtain rfl := Option.some.inj hi <;> rfl
  -- the children are leaves
  have hleaf : ∀ root, 0 < root → SubtreeOrdered rearAtRoot root := by
    intro root hroot i hi hsub a b _ hb
    have hlt : i < 3 := (List.getElem?_eq_some_iff.mp hb).1
    have hle := hsub.le
    unfold BinHeap.parent at hle
    omega
  exact ⟨hcons, hleaf 1 (by decide), hleaf 2 (by decide),
    heapHold_restores hcons 0 (hleaf 1 (by decide)) (hleaf 2 (by decide))⟩

end EasyReactor.Timer.TimerQueue
