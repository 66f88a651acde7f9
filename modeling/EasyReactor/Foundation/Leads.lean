import EasyReactor.Foundation.Outcome

set_option autoImplicit false

/-!
# Foundation: what can still be reached

`Leads` says of a state that some steps, each of which meets a condition, take it to a
state with `P`, or fail as expected on the way.  It is built a step at a time, the next
one chosen with the state in hand.
-/

namespace EasyReactor.Foundation

section Leads

variable {σ τ ε : Type} {step : σ → τ → Except ε σ} {C : σ → τ → Prop} {P Q : σ → Prop}
  {fail : ε → Prop}

/-- Steps that meet `C` lead to `P`, unless one of them fails with `fail`. -/
inductive Leads (step : σ → τ → Except ε σ) (C : σ → τ → Prop) (fail : ε → Prop)
    (P : σ → Prop) : σ → Prop where
  | here {s : σ} (holds : P s) : Leads step C fail P s
  | step {s : σ} (t : τ) (meets : C s t)
      (next : ∀ s', step s t = .ok s' → Leads step C fail P s')
      (failed : ∀ e, step s t = .error e → fail e) : Leads step C fail P s

/-- One step that returns, and what follows it. -/
theorem Leads.next {s s' : σ} {t : τ} (meets : C s t) (hstep : step s t = .ok s')
    (h : Leads step C fail P s') : Leads step C fail P s := by
  refine .step t meets (fun s₁ hs₁ => ?_) (fun e he => ?_)
  · obtain rfl := Except.ok.inj (hstep.symm.trans hs₁)
    exact h
  · rw [hstep] at he
    cases he

/-- One step with a specification, and what follows it. -/
theorem Leads.of_ends {s : σ} {t : τ} (meets : C s t) (hstep : Ends (step s t) Q fail)
    (h : ∀ s', Q s' → Leads step C fail P s') : Leads step C fail P s :=
  .step t meets (fun _ hs' => h _ (hstep.of_ok hs')) (fun _ he => hstep.of_error he)

theorem Leads.trans {s : σ} (h : Leads step C fail P s)
    (hnext : ∀ s', P s' → Leads step C fail Q s') : Leads step C fail Q s := by
  induction h with
  | here hp => exact hnext _ hp
  | step t meets _ failed ih => exact .step t meets ih failed

/-- The steps that were chosen, as a list. -/
theorem Leads.exists_run {s : σ} (h : Leads step C fail P s) :
    ∃ ts : List τ, (∀ t ∈ ts, ∃ s', C s' t) ∧ Meets step C s ts ∧
      Ends (ts.foldlM step s) P fail := by
  induction h with
  | here hp => exact ⟨[], nofun, trivial, hp⟩
  | @step s t meets next failed ih =>
    cases hstep : step s t with
    | error e =>
      refine ⟨[t], fun u hu => ?_, ⟨meets, ?_⟩, ?_⟩
      · obtain rfl := List.mem_singleton.mp hu
        exact ⟨s, meets⟩
      · rw [hstep]
        trivial
      · rw [List.foldlM_cons, hstep, error_bind]
        exact failed e hstep
    | ok s' =>
      obtain ⟨ts, hts, hmeets, hends⟩ := ih s' hstep
      refine ⟨t :: ts, fun u hu => ?_, ⟨meets, ?_⟩, ?_⟩
      · cases List.mem_cons.mp hu with
        | inl heq => exact heq ▸ ⟨s, meets⟩
        | inr hmem => exact hts u hmem
      · rw [hstep]
        exact hmeets
      · rw [List.foldlM_cons, hstep, ok_bind]
        exact hends

end Leads

end EasyReactor.Foundation
