import Mathlib.Data.List.Induction
import Mathlib.Data.List.Perm.Lattice
import EasyReactor.Foundation.BinHeap

set_option autoImplicit false

/-!
# Foundation: subtrees of a heap laid out in a list

The subtree of index `root` is `root` and what lies below it.  Its cells are read in the
order of their indices.  Where a list is rearranged and nothing outside a subtree changes,
the subtree keeps its cells (`cells_perm`), so that a sift from `root` needs a frame lemma
and nothing else.
-/

namespace EasyReactor.Foundation.BinHeap

variable {α κ : Type} [LinearOrder κ] {root i : Nat}

/-- The index `i` is `root` or lies below it. -/
inductive Subtree (root : Nat) : Nat → Prop where
  | root : Subtree root root
  | child {i : Nat} (hi : 0 < i) (h : Subtree root (parent i)) : Subtree root i

theorem Subtree.le (h : Subtree root i) : root ≤ i := by
  induction h with
  | root => exact Nat.le_refl root
  | child hi _ ih => exact Nat.le_trans ih (Nat.le_of_lt (parent_lt hi))

theorem subtree_iff (hlt : root < i) : Subtree root i ↔ Subtree root (parent i) := by
  constructor
  · intro h
    cases h with
    | root => exact absurd hlt (Nat.lt_irrefl root)
    | child _ h => exact h
  · intro h
    exact .child (Nat.zero_lt_of_lt hlt) h

/-- `Subtree` is decided by walking up from the index. -/
def decidableSubtree (root i : Nat) : Decidable (Subtree root i) :=
  if heq : i = root then .isTrue (heq ▸ .root)
  else if hlt : root < i then
    have := decidableSubtree root (parent i)
    decidable_of_iff (Subtree root (parent i)) (subtree_iff hlt).symm
  else .isFalse fun h => hlt (Nat.lt_of_le_of_ne h.le (Ne.symm heq))
  termination_by i
  decreasing_by exact parent_lt (Nat.zero_lt_of_lt hlt)

instance (root : Nat) : DecidablePred (Subtree root) := decidableSubtree root

/-- What lies below a child lies below its parent. -/
theorem Subtree.of_child {child : Nat} (hchild : 0 < child) (hparent : parent child = root)
    (h : Subtree child i) : Subtree root i := by
  induction h with
  | root => exact .child hchild (hparent ▸ .root)
  | child hi _ ih => exact .child hi ih

/-- What lies in a subtree is its root or lies in the subtree of a child. -/
theorem Subtree.cases_child (h : Subtree root i) :
    i = root ∨ Subtree (2 * root + 1) i ∨ Subtree (2 * root + 2) i := by
  induction h with
  | root => exact .inl rfl
  | child hi _ ih =>
    rcases ih with hroot | hleft | hright
    · rcases (parent_eq_iff hi).mp hroot with rfl | rfl
      · exact .inr (.inl .root)
      · exact .inr (.inr .root)
    · exact .inr (.inl (.child hi hleft))
    · exact .inr (.inr (.child hi hright))

/-- Heap order within a subtree. -/
def SubtreeOrdered (key : α → κ) (l : List α) (root : Nat) : Prop :=
  ∀ i, 0 < i → Subtree root (parent i) → PairOk key l i

/-- Two ordered subtrees leave a hole at their parent. -/
theorem DownHole.of_subtrees {key : α → κ} {l : List α} {pos : Nat}
    (hleft : SubtreeOrdered key l (2 * pos + 1)) (hright : SubtreeOrdered key l (2 * pos + 2)) :
    DownHole key (fun i => 0 < i ∧ Subtree pos (parent i)) l pos where
  off i hQ hi hne := by
    rcases hQ.2.cases_child with heq | h | h
    · exact absurd heq hne
    · exact hleft i hi h
    · exact hright i hi h
  grand hQ hpos := absurd hQ.2.le (Nat.not_le_of_lt (parent_lt hpos))

/-! ## The cells of a set of indices -/

/-- The cells whose index satisfies `P`. -/
def cells (P : Nat → Prop) [DecidablePred P] (l : List α) : List α :=
  ((List.range l.length).filter fun i => P i).filterMap (l[·]?)

theorem filterMap_range (l : List α) : (List.range l.length).filterMap (l[·]?) = l := by
  induction l using List.reverseRecOn with
  | nil => rfl
  | append_singleton l a ih =>
    rw [List.length_append, List.length_singleton, List.range_succ, List.filterMap_append]
    have hrest : (List.range l.length).filterMap ((l ++ [a])[·]?) =
        (List.range l.length).filterMap (l[·]?) := by
      refine List.filterMap_congr fun i hi => ?_
      exact List.getElem?_append_left (List.mem_range.mp hi)
    rw [hrest, ih]
    simp

variable {P : Nat → Prop} [DecidablePred P] {l l' : List α}

/-- The cells inside and outside are all cells. -/
theorem cells_append_perm (P : Nat → Prop) [DecidablePred P] (l : List α) :
    (cells P l ++ cells (fun i => ¬ P i) l).Perm l := by
  unfold cells
  rw [← List.filterMap_append]
  have hall := (List.filter_append_perm (fun i => decide (P i)) (List.range l.length)).filterMap
    (l[·]?)
  rw [filterMap_range] at hall
  simpa using hall

theorem cells_congr (hlen : l'.length = l.length) (h : ∀ i, P i → l'[i]? = l[i]?) :
    cells P l' = cells P l := by
  unfold cells
  rw [hlen]
  refine List.filterMap_congr fun i hi => ?_
  exact h i (of_decide_eq_true (List.mem_filter.mp hi).2)

/-- A rearrangement that changes nothing outside of `P` rearranges what is inside. -/
theorem cells_perm (hperm : l'.Perm l) (hframe : ∀ i, ¬ P i → l'[i]? = l[i]?) :
    (cells P l').Perm (cells P l) := by
  have houter : cells (fun i => ¬ P i) l' = cells (fun i => ¬ P i) l :=
    cells_congr hperm.length_eq hframe
  have hall : (cells P l' ++ cells (fun i => ¬ P i) l).Perm
      (cells P l ++ cells (fun i => ¬ P i) l) := by
    calc List.Perm (cells P l' ++ cells (fun i => ¬ P i) l) l' := by
            rw [← houter]
            exact cells_append_perm P l'
      List.Perm _ l := hperm
      List.Perm _ (cells P l ++ cells (fun i => ¬ P i) l) := (cells_append_perm P l).symm
  exact (List.perm_append_right_iff _).mp hall

end EasyReactor.Foundation.BinHeap
