import Mathlib.Data.List.Basic

set_option autoImplicit false

/-!
# Foundation: singly linked lists

`Linked next p l`: from `p`, the links `next` lead through the nodes of `l` in order
and end at the null link.
-/

namespace EasyReactor.Foundation

variable {ι : Type}

def Linked (next : ι → Option ι) : Option ι → List ι → Prop
  | p, [] => p = none
  | p, a :: l => p = some a ∧ Linked next (next a) l

@[simp] theorem linked_nil (next : ι → Option ι) (p : Option ι) :
    Linked next p [] ↔ p = none := Iff.rfl

@[simp] theorem linked_cons (next : ι → Option ι) (p : Option ι) (a : ι) (l : List ι) :
    Linked next p (a :: l) ↔ p = some a ∧ Linked next (next a) l := Iff.rfl

/-- Only the links of the nodes on the list matter. -/
theorem Linked.congr {next next' : ι → Option ι} {p : Option ι} {l : List ι}
    (h : Linked next p l) (heq : ∀ a ∈ l, next' a = next a) : Linked next' p l := by
  induction l generalizing p with
  | nil => exact h
  | cons a l ih =>
    refine ⟨h.1, ?_⟩
    rw [heq a (List.mem_cons_self ..)]
    exact ih h.2 fun b hb => heq b (List.mem_cons_of_mem _ hb)

/-- The empty list is the one the null link starts. -/
theorem Linked.eq_nil {next : ι → Option ι} {l : List ι} (h : Linked next none l) : l = [] := by
  cases l with
  | nil => rfl
  | cons a l => cases h.1

/-- A link to a node starts a list that begins with it. -/
theorem Linked.eq_cons {next : ι → Option ι} {a : ι} {l : List ι} (h : Linked next (some a) l) :
    ∃ l', l = a :: l' ∧ Linked next (next a) l' := by
  cases l with
  | nil => cases h
  | cons b l =>
    obtain rfl := Option.some.inj h.1
    exact ⟨l, rfl, h.2⟩

/-- A node linked behind the last one. -/
theorem Linked.concat {next next' : ι → Option ι} {p : Option ι} {l : List ι} {a b : ι}
    (h : Linked next p (l ++ [a])) (hl : ∀ x ∈ l, next' x = next x) (ha : next' a = some b)
    (hb : next' b = none) : Linked next' p (l ++ [a] ++ [b]) := by
  induction l generalizing p with
  | nil => exact ⟨h.1, ha, hb⟩
  | cons x l ih =>
    refine ⟨h.1, ?_⟩
    rw [hl x (List.mem_cons_self ..)]
    exact ih h.2 fun y hy => hl y (List.mem_cons_of_mem _ hy)

end EasyReactor.Foundation
