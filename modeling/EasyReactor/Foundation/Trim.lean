import Mathlib.Data.List.DropRight

set_option autoImplicit false

/-!
# Foundation: padding

`trim` takes the elements that satisfy `p` off both ends of a list.  A list that has
none there is what is left of it, however it is padded.
-/

namespace EasyReactor.Foundation

variable {α : Type} {p : α → Bool} {l left right : List α}

/-- Nothing can be trimmed. -/
structure Tidy (p : α → Bool) (l : List α) : Prop where
  head : ∀ c ∈ l.head?, p c = false
  last : ∀ c ∈ l.getLast?, p c = false

instance (p : α → Bool) (l : List α) : Decidable (Tidy p l) :=
  decidable_of_iff ((∀ c ∈ l.head?, p c = false) ∧ ∀ c ∈ l.getLast?, p c = false)
    ⟨fun h => ⟨h.1, h.2⟩, fun h => ⟨h.head, h.last⟩⟩

/-- The list without what satisfies `p` at its ends. -/
def trim (p : α → Bool) (l : List α) : List α := (l.rdropWhile p).dropWhile p

theorem rdropWhile_append_of_pos (hright : ∀ c ∈ right, p c = true) :
    (l ++ right).rdropWhile p = l.rdropWhile p := by
  unfold List.rdropWhile
  rw [List.reverse_append, List.dropWhile_append_of_pos]
  intro c hc
  exact hright c (List.mem_reverse.mp hc)

theorem Tidy.dropWhile (h : Tidy p l) : l.dropWhile p = l := by
  cases l with
  | nil => rfl
  | cons c l => exact List.dropWhile_cons_of_neg (by simp [h.head c rfl])

/-- Padding is trimmed, and nothing else. -/
theorem trim_padded (hleft : ∀ c ∈ left, p c = true) (hright : ∀ c ∈ right, p c = true)
    (h : Tidy p l) : trim p (left ++ l ++ right) = l := by
  unfold trim
  rw [rdropWhile_append_of_pos hright]
  cases l with
  | nil =>
    have hnil : (left ++ []).rdropWhile p = [] := by
      rw [List.append_nil]
      exact List.rdropWhile_eq_nil_iff.mpr hleft
    rw [hnil]
    rfl
  | cons c l =>
    have hkeep : (left ++ c :: l).rdropWhile p = left ++ c :: l := by
      rw [List.rdropWhile_eq_self_iff]
      intro hne
      rw [List.getLast_append_of_ne_nil _ (List.cons_ne_nil c l)]
      rw [h.last _ (List.getLast?_eq_some_getLast (List.cons_ne_nil c l))]
      exact Bool.false_ne_true
    rw [hkeep, List.dropWhile_append_of_pos hleft, h.dropWhile]

/-- What follows an element that stays does not matter to what comes before it. -/
theorem rdropWhile_append_cons {c : α} (hc : p c = false) (right : List α) :
    (left ++ c :: right).rdropWhile p = left ++ c :: right.rdropWhile p := by
  induction right using List.reverseRecOn with
  | nil => exact List.rdropWhile_concat_neg _ _ _ (by simp [hc])
  | append_singleton right x ih =>
    rw [← List.cons_append, ← List.append_assoc]
    cases hx : p x with
    | true => rw [List.rdropWhile_concat_pos _ _ _ hx, ih, List.rdropWhile_concat_pos _ _ _ hx]
    | false =>
      rw [List.rdropWhile_concat_neg _ _ _ (by simp [hx]),
        List.rdropWhile_concat_neg _ _ _ (by simp [hx])]
      simp

/-- Behind padding, a list starts with its first element that stays. -/
theorem head?_trim {c : α} (hleft : ∀ x ∈ left, p x = true) (hc : p c = false)
    (right : List α) : (trim p (left ++ c :: right)).head? = some c := by
  unfold trim
  rw [rdropWhile_append_cons hc, List.dropWhile_append_of_pos hleft,
    List.dropWhile_cons_of_neg (by simp [hc])]
  rfl

theorem trim_eq_nil (h : ∀ c ∈ l, p c = true) : trim p l = [] := by
  unfold trim
  rw [List.rdropWhile_eq_nil_iff.mpr h]
  rfl

end EasyReactor.Foundation
