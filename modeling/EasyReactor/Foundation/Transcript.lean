import Mathlib.Data.List.Infix

set_option autoImplicit false

/-!
# Foundation: what a machine says to what it hears

A machine hears messages one after the other, and says something after each of them, and
before the first; `out` is what, given everything heard so far.
-/

namespace EasyReactor.Foundation

section Transcript

variable {α β : Type} {out : List α → List β} {xs ys : List α}

/-- Everything that is said while `xs` are heard. -/
def transcript (out : List α → List β) (xs : List α) : List β := xs.inits.flatMap out

@[simp] theorem transcript_nil : transcript out [] = out [] := by
  simp [transcript]

@[simp] theorem transcript_concat (x : α) :
    transcript out (xs ++ [x]) = transcript out xs ++ out (xs ++ [x]) := by
  simp [transcript, List.inits_append]

/-- What is said is not taken back. -/
theorem transcript_mono (h : xs <+: ys) : transcript out xs <+: transcript out ys := by
  obtain ⟨rest, rfl⟩ := h
  unfold transcript
  rw [List.inits_append, List.flatMap_append]
  exact List.prefix_append _ _

theorem mem_transcript {y : β} : y ∈ transcript out xs ↔ ∃ hist, hist <+: xs ∧ y ∈ out hist := by
  simp [transcript, List.mem_inits]

end Transcript

end EasyReactor.Foundation
