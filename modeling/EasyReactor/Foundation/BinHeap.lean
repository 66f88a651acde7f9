import Mathlib.Data.List.Perm.Basic
import Mathlib.Order.Lattice

set_option autoImplicit false

/-!
# Foundation: binary heaps laid out in a list

The array layout of a binary heap: index `i > 0` has its parent at `(i - 1) / 2`.
Nothing here runs a heap; the lemmas say what one exchange of a sift does to the
order of the list, so that a program that sifts with its own loop, over its own
record, only has to show which exchanges it makes.

A sift is described by its *hole*: the one index whose neighbours may be out of
order.  `UpHole` is the situation of a sift towards the root and `DownHole` that
of a sift towards the leaves.  `DownHole` carries a set `Q` of indices whose
order is of interest, closed under children; taking all indices gives the whole
heap, taking the strict descendants of one index gives a subtree.
-/

namespace EasyReactor.Foundation.BinHeap

variable {α κ : Type} [LinearOrder κ]

/-- The parent of index `i` in the array layout.  `parent 0` is `0`. -/
def parent (i : Nat) : Nat := (i - 1) / 2

theorem parent_lt {i : Nat} (h : 0 < i) : parent i < i := by
  unfold parent; omega

theorem parent_eq_iff {c p : Nat} (h : 0 < c) :
    parent c = p ↔ c = 2 * p + 1 ∨ c = 2 * p + 2 := by
  unfold parent; omega

/-! ## Exchanging two cells -/

/-- The list with the cells `i` and `j` exchanged; the list itself when one of
them is out of range. -/
def swap (l : List α) (i j : Nat) : List α :=
  match l[i]?, l[j]? with
  | some a, some b => (l.set i b).set j a
  | _, _ => l

theorem swap_eq {l : List α} {i j : Nat} {a b : α}
    (hi : l[i]? = some a) (hj : l[j]? = some b) :
    swap l i j = (l.set i b).set j a := by
  simp [swap, hi, hj]

theorem getElem?_swap {l : List α} {i j : Nat} {a b : α}
    (hi : l[i]? = some a) (hj : l[j]? = some b) (k : Nat) :
    (swap l i j)[k]? = if k = j then some a else if k = i then some b else l[k]? := by
  have hil : i < l.length := (List.getElem?_eq_some_iff.mp hi).1
  have hjl : j < l.length := (List.getElem?_eq_some_iff.mp hj).1
  rw [swap_eq hi hj, List.getElem?_set, List.length_set, List.getElem?_set]
  by_cases hkj : k = j
  · simp [hkj, hjl]
  · by_cases hki : k = i
    · subst hki
      simp [hil, hkj, Ne.symm hkj]
    · simp [hkj, hki, Ne.symm hkj, Ne.symm hki]

theorem swap_perm (l : List α) (i j : Nat) : (swap l i j).Perm l := by
  unfold swap
  split
  · rename_i a b hi hj
    obtain ⟨hil, rfl⟩ := List.getElem?_eq_some_iff.mp hi
    obtain ⟨hjl, rfl⟩ := List.getElem?_eq_some_iff.mp hj
    exact List.set_set_perm hil hjl
  · exact List.Perm.refl l

/-! ## Filling a hole from the rear -/

/-- Overwriting cell `pos` by the rear and cutting the rear off removes exactly
the cell that stood at `pos`. -/
theorem cons_set_dropLast_perm {l : List α} {pos : Nat} {d r : α}
    (hd : l[pos]? = some d) (hr : l[l.length - 1]? = some r) :
    (d :: (l.set pos r).dropLast).Perm l := by
  have hne : l ≠ [] := by
    rintro rfl
    simp at hd
  obtain ⟨init, last, rfl⟩ : ∃ init last, l = init ++ [last] :=
    ⟨l.dropLast, l.getLast hne, (List.dropLast_concat_getLast hne).symm⟩
  have hlast : last = r := by simpa using hr
  subst hlast
  have hpos : pos < (init ++ [last]).length := (List.getElem?_eq_some_iff.mp hd).1
  simp only [List.length_append, List.length_singleton] at hpos
  cases Nat.lt_or_eq_of_le (Nat.le_of_lt_succ hpos) with
  | inr hrear =>
    subst hrear
    have hdl : d = last := by simpa using hd.symm
    subst hdl
    simpa using (List.perm_append_singleton d init).symm
  | inl hlt =>
    rw [List.getElem?_append_left hlt] at hd
    obtain ⟨_, rfl⟩ := List.getElem?_eq_some_iff.mp hd
    rw [List.set_append_left _ _ hlt, List.dropLast_concat]
    -- both sides are `last`, the cell at `pos` and what is left of `init`
    calc List.Perm (init[pos] :: init.set pos last)
          (init[pos] :: last :: init.eraseIdx pos) :=
            (List.set_perm_cons_eraseIdx hlt last).cons _
      List.Perm _ (last :: init[pos] :: init.eraseIdx pos) := .swap _ _ _
      List.Perm _ (last :: init) := (List.getElem_cons_eraseIdx_perm hlt).cons _
      List.Perm _ (init ++ [last]) := (List.perm_append_singleton last init).symm

theorem getElem?_set_dropLast {l : List α} {pos : Nat} {r : α} {i : Nat} {a : α} :
    ((l.set pos r).dropLast)[i]? = some a ↔
      i < l.length - 1 ∧ ((i = pos ∧ a = r) ∨ (i ≠ pos ∧ l[i]? = some a)) := by
  rw [List.getElem?_dropLast, List.length_set]
  by_cases hi : i < l.length - 1
  · rw [if_pos hi, List.getElem?_set]
    by_cases hip : i = pos
    · subst hip
      have : i < l.length := by omega
      simp [hi, this, eq_comm]
    · simp [hi, hip, Ne.symm hip]
  · simp [hi]

/-! ## Heap order -/

/-- The cell `i` is not before its parent. -/
def PairOk (key : α → κ) (l : List α) (i : Nat) : Prop :=
  ∀ a b, l[parent i]? = some a → l[i]? = some b → key a ≤ key b

/-- Heap order: every cell but the root is in order with its parent. -/
def Ordered (key : α → κ) (l : List α) : Prop :=
  ∀ i, 0 < i → PairOk key l i

theorem ordered_nil (key : α → κ) : Ordered key ([] : List α) := by
  intro i _ a b _ hb
  simp at hb

/-- The root of an ordered list has the least key. -/
theorem Ordered.root_le {key : α → κ} {l : List α} (h : Ordered key l) {r : α}
    (hr : l[0]? = some r) : ∀ (i : Nat) (b : α), l[i]? = some b → key r ≤ key b := by
  intro i
  induction i using Nat.strongRecOn with
  | ind i ih =>
    intro b hb
    by_cases hi : i = 0
    · subst hi
      rw [hr] at hb
      exact le_of_eq (congrArg key (Option.some.inj hb))
    · have hlt : parent i < i := parent_lt (Nat.pos_of_ne_zero hi)
      have hil : i < l.length := (List.getElem?_eq_some_iff.mp hb).1
      have hp : l[parent i]? = some l[parent i] := List.getElem?_eq_getElem (by omega)
      exact le_trans (ih (parent i) hlt _ hp) (h i (Nat.pos_of_ne_zero hi) _ _ hp hb)

/-! ## Sifting towards the root -/

/-- Heap order but for the hole `pos` and its parent; the hole's children are
already in order with the hole's parent. -/
structure UpHole (key : α → κ) (l : List α) (pos : Nat) : Prop where
  off : ∀ i, 0 < i → i ≠ pos → PairOk key l i
  grand : 0 < pos → ∀ c, 0 < c → parent c = pos →
    ∀ a b, l[parent pos]? = some a → l[c]? = some b → key a ≤ key b

/-- A new cell at the end of an ordered list is a hole to sift up from. -/
theorem UpHole.of_append {key : α → κ} {l : List α} (h : Ordered key l) (x : α) :
    UpHole key (l ++ [x]) l.length where
  off i hi hne a b ha hb := by
    have hil : i < l.length := by
      have := (List.getElem?_eq_some_iff.mp hb).1
      simp only [List.length_append, List.length_singleton] at this
      omega
    have hpl : parent i < l.length := Nat.lt_trans (parent_lt hi) hil
    rw [List.getElem?_append_left hpl] at ha
    rw [List.getElem?_append_left hil] at hb
    exact h i hi a b ha hb
  grand _ c hc hpc a b _ hb := by
    have hlt : l.length < c := hpc ▸ parent_lt hc
    have := (List.getElem?_eq_some_iff.mp hb).1
    simp only [List.length_append, List.length_singleton] at this
    omega

/-- An exchange with a later parent moves the hole to that parent. -/
theorem UpHole.step {key : α → κ} {l : List α} {pos : Nat} {x p : α}
    (h : UpHole key l pos) (hpos : 0 < pos) (hx : l[pos]? = some x)
    (hp : l[parent pos]? = some p) (hlt : key x < key p) :
    UpHole key (swap l pos (parent pos)) (parent pos) := by
  have hpp : parent pos < pos := parent_lt hpos
  have cell := getElem?_swap hx hp
  constructor
  · intro i hi hne a b ha hb
    rw [cell] at ha hb
    rw [if_neg hne] at hb
    by_cases hip : i = pos
    · -- the old parent now stands below the sifted cell
      subst hip
      rw [if_pos rfl] at ha hb
      obtain rfl := Option.some.inj ha
      obtain rfl := Option.some.inj hb
      exact le_of_lt hlt
    · rw [if_neg hip] at hb
      by_cases hpar : parent i = parent pos
      · rw [if_pos hpar] at ha
        obtain rfl := Option.some.inj ha
        exact le_trans (le_of_lt hlt) (h.off i hi hip p b (hpar ▸ hp) hb)
      · rw [if_neg hpar] at ha
        by_cases hpi : parent i = pos
        · rw [if_pos hpi] at ha
          obtain rfl := Option.some.inj ha
          exact h.grand hpos i hi hpi p b hp hb
        · rw [if_neg hpi] at ha
          exact h.off i hi hip a b ha hb
  · intro hpar0 c hc hcp a b ha hb
    have hgp : parent (parent pos) < parent pos := parent_lt hpar0
    rw [cell, if_neg (by omega), if_neg (by omega)] at ha
    have hup : key a ≤ key p := h.off (parent pos) hpar0 (by omega) a p ha hp
    rw [cell] at hb
    have hcgt : parent pos < c := hcp ▸ parent_lt hc
    rw [if_neg (by omega)] at hb
    by_cases hcpos : c = pos
    · rw [if_pos hcpos] at hb
      obtain rfl := Option.some.inj hb
      exact hup
    · rw [if_neg hcpos] at hb
      exact le_trans hup (h.off c hc hcpos p b (hcp ▸ hp) hb)

/-- A hole in order with its parent is no hole. -/
theorem UpHole.finish {key : α → κ} {l : List α} {pos : Nat} (h : UpHole key l pos)
    (hstop : 0 < pos → PairOk key l pos) : Ordered key l := by
  intro i hi
  by_cases hip : i = pos
  · subst hip
    exact hstop hi
  · exact h.off i hi hip

/-! ## Sifting towards the leaves -/

/-- Heap order, among the indices `Q`, but for the hole `pos` and its children;
the hole's children are already in order with the hole's parent. -/
structure DownHole (key : α → κ) (Q : Nat → Prop) (l : List α) (pos : Nat) : Prop where
  off : ∀ i, Q i → 0 < i → parent i ≠ pos → PairOk key l i
  grand : Q pos → 0 < pos → ∀ c, 0 < c → parent c = pos →
    ∀ a b, l[parent pos]? = some a → l[c]? = some b → key a ≤ key b

/-- An exchange with the least child moves the hole to that child. -/
theorem DownHole.step {key : α → κ} {Q : Nat → Prop} {l : List α} {pos m : Nat} {x v : α}
    (h : DownHole key Q l pos) (hQ : ∀ c, 0 < c → Q (parent c) → Q c)
    (hm : 0 < m) (hpm : parent m = pos) (hx : l[pos]? = some x) (hv : l[m]? = some v)
    (hlt : key v < key x)
    (hmin : ∀ s w, 0 < s → parent s = pos → l[s]? = some w → key v ≤ key w) :
    DownHole key Q (swap l pos m) m := by
  have hpos : pos < m := hpm ▸ parent_lt hm
  have cell := getElem?_swap hx hv
  constructor
  · intro i hi hi0 hne a b ha hb
    rw [cell] at ha hb
    rw [if_neg hne] at ha
    by_cases hpi : parent i = pos
    · -- the least child stands above the sifted cell and its sibling
      rw [if_pos hpi] at ha
      obtain rfl := Option.some.inj ha
      by_cases him : i = m
      · rw [if_pos him] at hb
        obtain rfl := Option.some.inj hb
        exact le_of_lt hlt
      · have hipos : i ≠ pos := by
          have := parent_lt hi0
          omega
        rw [if_neg him, if_neg hipos] at hb
        exact hmin i b hi0 hpi hb
    · rw [if_neg hpi] at ha
      have him : i ≠ m := fun e => hpi (e ▸ hpm)
      rw [if_neg him] at hb
      by_cases hip : i = pos
      · subst hip
        rw [if_pos rfl] at hb
        obtain rfl := Option.some.inj hb
        exact h.grand hi hi0 m hm hpm a v ha hv
      · rw [if_neg hip] at hb
        exact h.off i hi hi0 hpi a b ha hb
  · intro hQm _ c hc hcm a b ha hb
    have hcgt : m < c := hcm ▸ parent_lt hc
    rw [hpm, cell, if_neg (by omega), if_pos rfl] at ha
    rw [cell, if_neg (by omega), if_neg (by omega)] at hb
    obtain rfl := Option.some.inj ha
    exact h.off c (hQ c hc (hcm ▸ hQm)) hc (by omega) v b (hcm ▸ hv) hb

/-- A hole in order with its children is no hole. -/
theorem DownHole.finish {key : α → κ} {Q : Nat → Prop} {l : List α} {pos : Nat}
    (h : DownHole key Q l pos)
    (hstop : ∀ c, 0 < c → parent c = pos → PairOk key l c) :
    ∀ i, Q i → 0 < i → PairOk key l i := by
  intro i hi hi0
  by_cases hpi : parent i = pos
  · exact hstop i hi0 hpi
  · exact h.off i hi hi0 hpi

/-- Overwriting a cell of an ordered list by one that is not before the cell's
parent leaves a hole to sift down from. -/
theorem DownHole.of_set {key : α → κ} {l : List α} (h : Ordered key l) {pos : Nat} {x : α}
    (hup : 0 < pos → ∀ a, l[parent pos]? = some a → key a ≤ key x) :
    DownHole key (fun _ => True) (l.set pos x) pos where
  off i _ hi hne a b ha hb := by
    rw [List.getElem?_set_ne (Ne.symm hne)] at ha
    by_cases hip : i = pos
    · subst hip
      rw [List.getElem?_set] at hb
      split at hb
      · split at hb
        · obtain rfl := Option.some.inj hb
          exact hup hi a ha
        · simp at hb
      · exact absurd rfl ‹_›
    · rw [List.getElem?_set_ne (Ne.symm hip)] at hb
      exact h i hi a b ha hb
  grand _ hpos c hc hpc a b ha hb := by
    have hpp : parent pos < pos := parent_lt hpos
    have hcp : pos < c := hpc ▸ parent_lt hc
    rw [List.getElem?_set_ne (by omega)] at ha hb
    have hlen : pos < l.length := by
      have := (List.getElem?_eq_some_iff.mp hb).1
      omega
    have hx : l[pos]? = some l[pos] := List.getElem?_eq_getElem hlen
    exact le_trans (h pos hpos a _ ha hx) (h c hc _ b (hpc ▸ hx) hb)

/-- Cutting the rear off does not make a hole worse. -/
theorem DownHole.dropLast {key : α → κ} {Q : Nat → Prop} {l : List α} {pos : Nat}
    (h : DownHole key Q l pos) : DownHole key Q l.dropLast pos := by
  have cell : ∀ {i : Nat} {a : α}, l.dropLast[i]? = some a → l[i]? = some a := by
    intro i a hi
    rw [List.getElem?_dropLast] at hi
    split at hi
    · exact hi
    · cases hi
  exact ⟨fun i hQ hi hne a b ha hb => h.off i hQ hi hne a b (cell ha) (cell hb),
    fun hQ hpos c hc hpc a b ha hb => h.grand hQ hpos c hc hpc a b (cell ha) (cell hb)⟩

end EasyReactor.Foundation.BinHeap
