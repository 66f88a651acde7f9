import Mathlib.Data.List.Basic
import Mathlib.Data.List.Perm.Basic

set_option autoImplicit false

/-!
# Foundation: a table of slots

A list whose cells are replaced one at a time, and what all cells hold together: `f x` is
what a cell `x` holds.
-/

namespace EasyReactor.Foundation

variable {α β : Type}

/-- What one cell holds, and what the other cells hold. -/
theorem flatMap_perm_of_getElem? (f : α → List β) {l : List α} {i : Nat} {x : α}
    (h : l[i]? = some x) : (l.flatMap f).Perm (f x ++ (l.eraseIdx i).flatMap f) := by
  obtain ⟨hlt, rfl⟩ := List.getElem?_eq_some_iff.mp h
  have hperm := (List.getElem_cons_eraseIdx_perm hlt).flatMap_right f
  rw [List.flatMap_cons] at hperm
  exact hperm.symm

/-- The same after the cell was replaced. -/
theorem flatMap_set_perm (f : α → List β) {l : List α} {i : Nat} (hlt : i < l.length) (x : α) :
    ((l.set i x).flatMap f).Perm (f x ++ (l.eraseIdx i).flatMap f) := by
  have h := flatMap_perm_of_getElem? f (l := l.set i x) (List.getElem?_set_self hlt)
  rwa [List.eraseIdx_set_eq] at h

/-- What another cell holds is among what the others hold. -/
theorem mem_flatMap_eraseIdx (f : α → List β) {l : List α} {i j : Nat} {x : α} {b : β}
    (hne : j ≠ i) (h : l[j]? = some x) (hb : b ∈ f x) : b ∈ (l.eraseIdx i).flatMap f :=
  List.mem_flatMap.mpr ⟨x, List.mem_eraseIdx_iff_getElem?.mpr ⟨j, hne, h⟩, hb⟩

/-- How many cells satisfy `p` after one was replaced. -/
theorem countP_set_eq (p : α → Bool) {l : List α} {i : Nat} (hlt : i < l.length) (x : α) :
    ((l.set i x).countP p : Int) =
      l.countP p - (if p l[i] then 1 else 0) + (if p x then 1 else 0) := by
  have hpos : p l[i] = true → 0 < l.countP p := fun hp =>
    List.countP_pos_iff.mpr ⟨l[i], List.getElem_mem hlt, hp⟩
  rw [List.countP_set hlt]
  cases hold : p l[i] with
  | false => cases p x <;> simp
  | true =>
    have := hpos hold
    cases p x <;> simp <;> omega

end EasyReactor.Foundation
