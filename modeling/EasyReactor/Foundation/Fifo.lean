import Mathlib.Data.List.Basic

set_option autoImplicit false

/-!
# Foundation: first in, first out

A queue that remembers what was put in and what was taken out: in the order in which they
came, the items taken and then those still there are the items put in.
-/

namespace EasyReactor.Foundation

variable {α : Type}

structure Fifo (α : Type) where
  items : List α
  put : List α
  taken : List α

namespace Fifo

def empty : Fifo α := ⟨[], [], []⟩

/-- `xs` are put in at the back. -/
def push (q : Fifo α) (xs : List α) : Fifo α :=
  { q with items := q.items ++ xs, put := q.put ++ xs }

/-- The first `n` are taken out. -/
def drop (q : Fifo α) (n : Nat) : Fifo α :=
  { q with items := q.items.drop n, taken := q.taken ++ q.items.take n }

/-- Nothing is lost, made up or overtaken. -/
def Conserved (q : Fifo α) : Prop := q.taken ++ q.items = q.put

theorem conserved_empty : Conserved (empty : Fifo α) := rfl

theorem Conserved.push {q : Fifo α} (h : Conserved q) (xs : List α) : Conserved (q.push xs) := by
  show q.taken ++ (q.items ++ xs) = q.put ++ xs
  rw [← List.append_assoc, h]

theorem Conserved.drop {q : Fifo α} (h : Conserved q) (n : Nat) : Conserved (q.drop n) := by
  show q.taken ++ q.items.take n ++ q.items.drop n = q.put
  rw [List.append_assoc, List.take_append_drop, h]

/-- Pushing nothing and taking nothing are no steps. -/
theorem push_nil (q : Fifo α) : q.push [] = q := by
  simp [push]

theorem drop_zero (q : Fifo α) : q.drop 0 = q := by
  simp [drop]

end Fifo

end EasyReactor.Foundation
