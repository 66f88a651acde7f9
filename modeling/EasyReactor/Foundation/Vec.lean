import Mathlib.Data.List.Basic

set_option autoImplicit false

/-!
# Foundation: growing vectors and their iterators

A vector keeps its elements in one block of memory.  When the block is full the next
element moves them all to a larger one, and every iterator into the old block is
invalid from then on; clearing a vector invalidates its iterators too.  An iterator
therefore remembers the *epoch* it was made in, and can be used in that epoch only.
-/

namespace EasyReactor.Foundation

/-- The capacity a full vector grows to. -/
structure Growth where
  next : Nat → Nat
  grows : ∀ n, n < next n

/-- A vector.  `epoch` counts what has invalidated its iterators. -/
structure Vec (α : Type) where
  items : List α
  capacity : Nat
  epoch : Nat
  fits : items.length ≤ capacity

namespace Vec

variable {α : Type}

structure Iter where
  epoch : Nat
  index : Nat

/-- The iterator `begin()`. -/
def first (v : Vec α) : Iter := ⟨v.epoch, 0⟩

def Iter.next (it : Iter) : Iter := { it with index := it.index + 1 }

/-- What `it` points at, `none` inside for `end()`; no answer for an invalid iterator. -/
def read (v : Vec α) (it : Iter) : Option (Option α) :=
  if it.epoch = v.epoch ∧ it.index ≤ v.items.length then some v.items[it.index]? else none

def pushBack (g : Growth) (v : Vec α) (a : α) : Vec α :=
  if h : v.items.length < v.capacity then
    { v with
      items := v.items ++ [a]
      fits := by rwa [List.length_append, List.length_singleton] }
  else
    ⟨v.items ++ [a], g.next v.capacity, v.epoch + 1, by
      have hgrows := g.grows v.capacity
      have hfits := v.fits
      simp only [List.length_append, List.length_singleton]
      omega⟩

/-- `clear()` keeps the block. -/
def clear (v : Vec α) : Vec α :=
  ⟨[], v.capacity, v.epoch + 1, Nat.zero_le _⟩

/-- One element after the other is appended. -/
def pushAll (g : Growth) (v : Vec α) (as : List α) : Vec α := as.foldl (pushBack g) v

variable {g : Growth}

theorem pushBack_items (v : Vec α) (a : α) : (v.pushBack g a).items = v.items ++ [a] := by
  unfold pushBack
  split <;> rfl

/-- With room left the block stays. -/
theorem pushBack_room {v : Vec α} (h : v.items.length < v.capacity) (a : α) :
    (v.pushBack g a).capacity = v.capacity ∧ (v.pushBack g a).epoch = v.epoch := by
  unfold pushBack
  rw [dif_pos h]
  exact ⟨rfl, rfl⟩

theorem pushBack_full {v : Vec α} (h : ¬ v.items.length < v.capacity) (a : α) :
    (v.pushBack g a).epoch = v.epoch + 1 := by
  unfold pushBack
  rw [dif_neg h]

theorem le_epoch_pushBack (v : Vec α) (a : α) : v.epoch ≤ (v.pushBack g a).epoch := by
  by_cases h : v.items.length < v.capacity
  · exact Nat.le_of_eq (pushBack_room h a).2.symm
  · rw [pushBack_full h]
    exact Nat.le_succ _

theorem pushAll_items (v : Vec α) (as : List α) :
    (v.pushAll g as).items = v.items ++ as := by
  induction as generalizing v with
  | nil => exact (List.append_nil _).symm
  | cons a as ih =>
    show ((v.pushBack g a).pushAll g as).items = _
    rw [ih, pushBack_items, List.append_assoc]
    rfl

theorem le_epoch_pushAll (v : Vec α) (as : List α) : v.epoch ≤ (v.pushAll g as).epoch := by
  induction as generalizing v with
  | nil => exact Nat.le_refl _
  | cons a as ih => exact Nat.le_trans (le_epoch_pushBack v a) (ih (v.pushBack g a))

/-- With room for all of them the block stays. -/
theorem pushAll_room {v : Vec α} {as : List α} (h : v.items.length + as.length ≤ v.capacity) :
    (v.pushAll g as).capacity = v.capacity ∧ (v.pushAll g as).epoch = v.epoch := by
  induction as generalizing v with
  | nil => exact ⟨rfl, rfl⟩
  | cons a as ih =>
    rw [List.length_cons] at h
    obtain ⟨hcap, hepoch⟩ := pushBack_room (g := g) (v := v) (by omega) a
    have hrest := ih (v := v.pushBack g a) (by
      rw [pushBack_items, hcap, List.length_append, List.length_singleton]
      omega)
    exact ⟨hrest.1.trans hcap, hrest.2.trans hepoch⟩

/-- Without room for all of them every iterator is invalid afterwards. -/
theorem pushAll_full {v : Vec α} {as : List α} (h : v.capacity < v.items.length + as.length) :
    v.epoch < (v.pushAll g as).epoch := by
  induction as generalizing v with
  | nil => exact absurd h (Nat.not_lt.mpr v.fits)
  | cons a as ih =>
    by_cases hroom : v.items.length < v.capacity
    · obtain ⟨hcap, hepoch⟩ := pushBack_room (g := g) hroom a
      rw [List.length_cons] at h
      have hrest := ih (v := v.pushBack g a) (by
        rw [pushBack_items, hcap, List.length_append, List.length_singleton]
        omega)
      rw [hepoch] at hrest
      exact hrest
    · have hle := le_epoch_pushAll (g := g) (v.pushBack g a) as
      rw [pushBack_full hroom] at hle
      exact hle

end Vec

end EasyReactor.Foundation
