import Mathlib.Data.List.Basic

set_option autoImplicit false

/-!
# Foundation: stretches of a flat memory

A memory is a function from offsets to cells.  `slice` reads a stretch of it as a
list and `store` writes a list over a stretch, so that a copy is the `store` of a
`slice`, whatever stale cells lie around it.
-/

namespace EasyReactor.Foundation

variable {β : Type}

/-- The `n` cells from `off` on. -/
def slice (data : Nat → β) (off n : Nat) : List β :=
  (List.range n).map fun i => data (off + i)

/-- `bs` written over the cells from `off` on. -/
def store (data : Nat → β) (off : Nat) (bs : List β) : Nat → β := fun i =>
  if i < off then data i else (bs[i - off]?).getD (data i)

@[simp] theorem length_slice (data : Nat → β) (off n : Nat) : (slice data off n).length = n := by
  simp [slice]

theorem getElem?_slice (data : Nat → β) (off n i : Nat) :
    (slice data off n)[i]? = if i < n then some (data (off + i)) else none := by
  unfold slice
  rw [List.getElem?_map]
  by_cases h : i < n
  · rw [if_pos h, List.getElem?_range h]
    rfl
  · rw [if_neg h, List.getElem?_eq_none (by simpa using h)]
    rfl

/-- Two stretches with the same cells read the same. -/
theorem slice_congr {d e : Nat → β} {i j n : Nat} (h : ∀ k, k < n → d (i + k) = e (j + k)) :
    slice d i n = slice e j n := by
  apply List.map_congr_left
  intro k hk
  exact h k (List.mem_range.mp hk)

/-- A stretch is its first part followed by the rest. -/
theorem slice_add (data : Nat → β) (off m n : Nat) :
    slice data off (m + n) = slice data off m ++ slice data (off + m) n := by
  unfold slice
  rw [List.range_add, List.map_append, List.map_map]
  simp [Function.comp_def, Nat.add_assoc]

theorem take_slice (data : Nat → β) (off : Nat) {m n : Nat} (h : m ≤ n) :
    (slice data off n).take m = slice data off m := by
  obtain ⟨k, rfl⟩ := Nat.exists_eq_add_of_le h
  rw [slice_add, List.take_left' (length_slice ..)]

theorem drop_slice (data : Nat → β) (off : Nat) {m n : Nat} (h : m ≤ n) :
    (slice data off n).drop m = slice data (off + m) (n - m) := by
  obtain ⟨k, rfl⟩ := Nat.exists_eq_add_of_le h
  rw [slice_add, List.drop_left' (length_slice ..), Nat.add_sub_cancel_left]

/-- What was written is read back. -/
theorem slice_store (data : Nat → β) (off : Nat) (bs : List β) :
    slice (store data off bs) off bs.length = bs := by
  apply List.ext_getElem?
  intro i
  rw [getElem?_slice]
  split
  next h =>
    have hlt : ¬ off + i < off := by omega
    simp only [store, if_neg hlt, Nat.add_sub_cancel_left, List.getElem?_eq_getElem h,
      Option.getD_some]
  next h =>
    rw [List.getElem?_eq_none (by omega)]

@[simp] theorem store_nil (data : Nat → β) (off : Nat) : store data off [] = data := by
  funext i
  unfold store
  split <;> rfl

/-- A write leaves the cells before it alone. -/
theorem slice_store_before (data : Nat → β) {i n off : Nat} (bs : List β) (h : i + n ≤ off) :
    slice (store data off bs) i n = slice data i n := by
  apply slice_congr
  intro k hk
  have hlt : i + k < off := by omega
  simp only [store, if_pos hlt]

/-- Appending `bs` at the end of a stretch. -/
theorem slice_store_append (data : Nat → β) (off n : Nat) (bs : List β) :
    slice (store data (off + n) bs) off (n + bs.length) = slice data off n ++ bs := by
  rw [slice_add, slice_store_before data bs (Nat.le_refl _), slice_store]

end EasyReactor.Foundation
