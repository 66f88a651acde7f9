import Mathlib.Data.List.Basic

set_option autoImplicit false

/-!
# Foundation: fallible steps and their runs

A call that may fail is a value of `Except ε α`, a system that takes one event
after another is `List.foldlM` of a fallible step.  The rules below take a
sequence of calls apart, and lift what one step does to a whole run.
-/

namespace EasyReactor.Foundation

section Bind

variable {ε α β : Type}

@[simp] theorem ok_bind (a : α) (f : α → Except ε β) :
    ((Except.ok a : Except ε α) >>= f) = f a := rfl

@[simp] theorem error_bind (e : ε) (f : α → Except ε β) :
    ((Except.error e : Except ε α) >>= f) = .error e := rfl

/-- A sequence returns exactly when its first call returns and the rest does. -/
theorem bind_eq_ok {x : Except ε α} {f : α → Except ε β} {b : β} :
    (x >>= f) = .ok b ↔ ∃ a, x = .ok a ∧ f a = .ok b := by
  cases x with
  | error e => simp
  | ok a => simp

/-- A sequence fails exactly when its first call fails or the rest does. -/
theorem bind_eq_error {x : Except ε α} {f : α → Except ε β} {e : ε} :
    (x >>= f) = .error e ↔ x = .error e ∨ ∃ a, x = .ok a ∧ f a = .error e := by
  cases x with
  | error e' => simp
  | ok a => simp

end Bind

section Observations

variable {ε α β : Type} {x : Except ε α} {f : α → β} {b : β}

/-- Where something is seen of a result, there is a result. -/
theorem ok_of_observed (h : x.toOption.map f = some b) : ∃ a, x = .ok a ∧ f a = b := by
  cases x with
  | error e => cases h
  | ok a => exact ⟨a, rfl, Option.some.inj h⟩

/-- What is seen of a result at hand. -/
theorem observed_of_ok {a : α} (hx : x = .ok a) (h : x.toOption.map f = some b) : f a = b := by
  obtain ⟨a', ha', hb⟩ := ok_of_observed h
  obtain rfl := Except.ok.inj (hx.symm.trans ha')
  exact hb

end Observations

section Triples

variable {ε α β : Type} {x : Except ε α} {f : α → Except ε β}
  {post : α → Prop} {fail : ε → Prop}

/-- `x` returns a value that satisfies `post`, or fails for a reason `fail` admits. -/
def Ends (x : Except ε α) (post : α → Prop) (fail : ε → Prop) : Prop :=
  match x with
  | .ok a => post a
  | .error e => fail e

@[simp] theorem ends_ok (a : α) : Ends (.ok a : Except ε α) post fail ↔ post a := Iff.rfl

@[simp] theorem ends_pure (a : α) : Ends (pure a : Except ε α) post fail ↔ post a := Iff.rfl

@[simp] theorem ends_error (e : ε) : Ends (.error e : Except ε α) post fail ↔ fail e := Iff.rfl

theorem Ends.of_ok {a : α} (h : Ends x post fail) (hx : x = .ok a) : post a := by
  subst hx
  exact h

theorem Ends.of_error {e : ε} (h : Ends x post fail) (hx : x = .error e) : fail e := by
  subst hx
  exact h

/-- What holds of every return and of every failure. -/
theorem Ends.intro (hok : ∀ a, x = .ok a → post a) (herr : ∀ e, x = .error e → fail e) :
    Ends x post fail := by
  cases x with
  | ok a => exact hok a rfl
  | error e => exact herr e rfl

theorem Ends.any (x : Except ε α) : Ends x (fun _ => True) (fun _ => True) :=
  .intro (fun _ _ => trivial) (fun _ _ => trivial)

theorem Ends.imp {post' : α → Prop} {fail' : ε → Prop} (h : Ends x post fail)
    (hpost : ∀ a, post a → post' a) (hfail : ∀ e, fail e → fail' e) : Ends x post' fail' := by
  cases x with
  | ok a => exact hpost a h
  | error e => exact hfail e h

/-- What is known of a call in two ways is known together. -/
theorem Ends.and {post' : α → Prop} {fail' : ε → Prop} (h : Ends x post fail)
    (h' : Ends x post' fail') : Ends x (fun a => post a ∧ post' a) (fun e => fail e ∧ fail' e) := by
  cases x with
  | ok a => exact ⟨h, h'⟩
  | error e => exact ⟨h, h'⟩

/-- What else is known of every return. -/
theorem Ends.and_post {post' : α → Prop} (h : Ends x post fail)
    (h' : Ends x post' (fun _ => True)) : Ends x (fun a => post a ∧ post' a) fail :=
  (h.and h').imp (fun _ hp => hp) (fun _ he => he.1)

/-- A call that fails for one reason fails for one of two. -/
theorem Ends.or_fail {fail' : ε → Prop} (h : Ends x post fail) :
    Ends x post (fun e => fail e ∨ fail' e) :=
  h.imp (fun _ hp => hp) (fun _ he => .inl he)

/-- The rule for a sequence of calls. -/
theorem Ends.bind {mid : α → Prop} {post : β → Prop} (hx : Ends x mid fail)
    (hf : ∀ a, mid a → Ends (f a) post fail) : Ends (x >>= f) post fail := by
  cases x with
  | ok a => exact hf a hx
  | error e => exact hx

/-- The rule for a sequence, with the first call at hand. -/
theorem Ends.bind_eq {mid : α → Prop} {post : β → Prop} {fail' : ε → Prop} (hx : Ends x mid fail')
    (hfail : ∀ e, fail' e → fail e) (hf : ∀ a, x = .ok a → mid a → Ends (f a) post fail) :
    Ends (x >>= f) post fail := by
  cases x with
  | ok a => exact hf a rfl hx
  | error e => exact hfail e hx

end Triples

section Runs

variable {ε σ τ : Type} {step : σ → τ → Except ε σ}

/-- A run of no steps. -/
theorem foldlM_nil_eq (step : σ → τ → Except ε σ) (s : σ) : [].foldlM step s = .ok s := rfl

/-- The rule for a run: `P done s` relates the events taken so far to the state. -/
theorem Ends.foldlM {P : List τ → σ → Prop} {fail : ε → Prop} {ts : List τ}
    (hstep : ∀ done t post s, ts = done ++ t :: post → P done s →
      Ends (step s t) (P (done ++ [t])) fail) {s : σ} (hs : P [] s) :
    Ends (ts.foldlM step s) (P ts) fail := by
  suffices h : ∀ post done s, ts = done ++ post → P done s →
      Ends (post.foldlM step s) (P ts) fail from h ts [] s rfl hs
  intro post
  induction post with
  | nil =>
    intro done s hts hdone
    rw [List.append_nil] at hts
    subst hts
    exact hdone
  | cons t post ih =>
    intro done s hts hdone
    rw [List.foldlM_cons]
    apply (hstep done t post s hts hdone).bind
    intro s₁ hs₁
    apply ih (done ++ [t]) s₁ _ hs₁
    rw [hts, List.append_assoc]
    rfl

/-- A property kept by every step that returns is kept by every run that returns. -/
theorem foldlM_keeps (P : σ → Prop)
    (hstep : ∀ s t s', P s → step s t = .ok s' → P s') :
    ∀ (ts : List τ) (s s' : σ), P s → ts.foldlM step s = .ok s' → P s' := by
  intro ts
  induction ts with
  | nil =>
    intro s s' hs h
    obtain rfl := Except.ok.inj h
    exact hs
  | cons t ts ih =>
    intro s s' hs h
    rw [List.foldlM_cons] at h
    obtain ⟨s₁, h₁, h₂⟩ := bind_eq_ok.mp h
    exact ih s₁ s' (hstep s t s₁ hs h₁) h₂

/-- When every step returns and keeps a property, so does every run. -/
theorem foldlM_returns (P : σ → Prop)
    (hstep : ∀ s t, P s → ∃ s', step s t = .ok s' ∧ P s') :
    ∀ (ts : List τ) (s : σ), P s → ∃ s', ts.foldlM step s = .ok s' ∧ P s' := by
  intro ts
  induction ts with
  | nil =>
    intro s hs
    exact ⟨s, rfl, hs⟩
  | cons t ts ih =>
    intro s hs
    obtain ⟨s₁, h₁, hs₁⟩ := hstep s t hs
    obtain ⟨s', h', hs'⟩ := ih s₁ hs₁
    refine ⟨s', ?_, hs'⟩
    rw [List.foldlM_cons, h₁, ok_bind]
    exact h'

/-- An entry of a list with one more element is an old one or the new one. -/
theorem getElem?_concat_cases {ts : List τ} {t u : τ} {i : Nat} (h : (ts ++ [t])[i]? = some u) :
    i < ts.length ∧ ts[i]? = some u ∨ i = ts.length ∧ t = u := by
  rcases Nat.lt_or_ge i ts.length with hlt | hge
  · rw [List.getElem?_append_left hlt] at h
    exact .inl ⟨hlt, h⟩
  · have hlast : i = ts.length := by
      have hlt := (List.getElem?_eq_some_iff.mp h).1
      rw [List.length_append, List.length_singleton] at hlt
      omega
    subst hlast
    rw [List.getElem?_concat_length] at h
    exact .inr ⟨rfl, Option.some.inj h⟩

/-- A run ends in a step: the state before it, and the last event. -/
theorem foldlM_concat_eq_ok {ts : List τ} {t : τ} {s s' : σ} :
    (ts ++ [t]).foldlM step s = .ok s' ↔
      ∃ s₁, ts.foldlM step s = .ok s₁ ∧ step s₁ t = .ok s' := by
  rw [List.foldlM_append, bind_eq_ok]
  simp

/-- Every step of a run from `s` starts in a state that, with its event, meets `C`. -/
def Meets (step : σ → τ → Except ε σ) (C : σ → τ → Prop) : σ → List τ → Prop
  | _, [] => True
  | s, t :: ts => C s t ∧ match step s t with
    | .ok s' => Meets step C s' ts
    | .error _ => True

instance decidableMeets (C : σ → τ → Prop) [∀ s t, Decidable (C s t)] :
    ∀ s ts, Decidable (Meets step C s ts)
  | _, [] => .isTrue trivial
  | s, t :: ts =>
    have : Decidable (match step s t with
        | .ok s' => Meets step C s' ts
        | .error _ => True) :=
      match step s t with
      | .ok s' => decidableMeets C s' ts
      | .error _ => .isTrue trivial
    inferInstanceAs (Decidable (_ ∧ _))

theorem meets_cons_iff {C : σ → τ → Prop} {s : σ} {t : τ} {ts : List τ} :
    Meets step C s (t :: ts) ↔ C s t ∧ ∀ s', step s t = .ok s' → Meets step C s' ts := by
  constructor
  · rintro ⟨hc, hrest⟩
    refine ⟨hc, fun s' hs' => ?_⟩
    rw [hs'] at hrest
    exact hrest
  · rintro ⟨hc, hrest⟩
    refine ⟨hc, ?_⟩
    cases hstep : step s t with
    | error e => trivial
    | ok s₁ => exact hrest s₁ hstep

/-- The condition holds at each step of the run. -/
theorem Meets.at_step {C : σ → τ → Prop} {t : τ} : ∀ {ts : List τ} {s s' : σ} {i : Nat},
    Meets step C s ts → ts[i]? = some t → (ts.take i).foldlM step s = .ok s' → C s' t := by
  intro ts
  induction ts with
  | nil =>
    intro s s' i _ hi
    cases hi
  | cons u ts ih =>
    intro s s' i hmeets hi hrun
    obtain ⟨hc, hrest⟩ := meets_cons_iff.mp hmeets
    cases i with
    | zero =>
      obtain rfl := Except.ok.inj hrun
      obtain rfl := Option.some.inj hi
      exact hc
    | succ i =>
      rw [List.take_succ_cons, List.foldlM_cons] at hrun
      obtain ⟨s₁, hstep, hrun⟩ := bind_eq_ok.mp hrun
      exact ih (hrest s₁ hstep) hi hrun

/-- Every run meets a condition that always holds. -/
theorem Meets.of_forall {C : σ → τ → Prop} (h : ∀ s t, C s t) :
    ∀ (ts : List τ) (s : σ), Meets step C s ts := by
  intro ts
  induction ts with
  | nil => exact fun _ => trivial
  | cons t ts ih =>
    intro s
    refine ⟨h s t, ?_⟩
    split
    · exact ih _
    · trivial

/-- A condition on the steps of a run may be weakened for the events that occur in it. -/
theorem Meets.imp_mem {C C' : σ → τ → Prop} :
    ∀ {ts : List τ} {s : σ}, (∀ s, ∀ t ∈ ts, C s t → C' s t) → Meets step C s ts →
      Meets step C' s ts := by
  intro ts
  induction ts with
  | nil => exact fun _ _ => trivial
  | cons t ts ih =>
    intro s himp hmeets
    obtain ⟨hc, hrest⟩ := hmeets
    refine ⟨himp s t List.mem_cons_self hc, ?_⟩
    split at hrest
    · exact ih (fun s t ht => himp s t (List.mem_cons_of_mem _ ht)) hrest
    · trivial

/-- The last step of a run starts where the steps before it lead. -/
theorem Meets.concat {C : σ → τ → Prop} {t : τ} :
    ∀ {ts : List τ} {s : σ}, Meets step C s ts →
      (∀ s', ts.foldlM step s = .ok s' → C s' t) → Meets step C s (ts ++ [t]) := by
  intro ts
  induction ts with
  | nil =>
    intro s _ hlast
    refine ⟨hlast s rfl, ?_⟩
    split <;> trivial
  | cons u ts ih =>
    intro s hmeets hlast
    obtain ⟨hc, hrest⟩ := hmeets
    refine ⟨hc, ?_⟩
    cases hu : step s u with
    | error e => trivial
    | ok s₁ =>
      rw [hu] at hrest
      refine ih hrest fun s' hs' => hlast s' ?_
      rw [List.foldlM_cons, hu]
      exact hs'

/-- The rule for a run whose steps all meet a condition. -/
theorem Ends.foldlM_meets {P : σ → Prop} {C : σ → τ → Prop} {fail : ε → Prop}
    (hstep : ∀ s t, P s → C s t → Ends (step s t) P fail) :
    ∀ (ts : List τ) (s : σ), P s → Meets step C s ts → Ends (ts.foldlM step s) P fail := by
  intro ts
  induction ts with
  | nil => exact fun s hs _ => hs
  | cons t ts ih =>
    intro s hs hmeets
    obtain ⟨hc, hrest⟩ := hmeets
    rw [List.foldlM_cons]
    apply (hstep s t hs hc).bind_eq (fun _ he => he)
    intro s' hs' hp
    rw [hs'] at hrest
    exact ih s' hp hrest

/-! ## Runs that remember

A condition on a step may ask about an earlier state.  What is remembered of it is no part
of the machine: `remembering` runs beside it. -/

section Memory

variable {η : Type}

/-- A step, and what is remembered after it, given the state before it and the memory. -/
def remembering (step : σ → τ → Except ε σ) (note : σ → η → η) (w : σ × η) (t : τ) :
    Except ε (σ × η) := do
  let s ← step w.1 t
  return (s, note w.1 w.2)

/-- The rule for a run whose steps all meet a condition on the state and the memory. -/
theorem Ends.foldlM_remembering {note : σ → η → η} {P : σ × η → Prop} {C : σ × η → τ → Prop}
    {fail : ε → Prop}
    (hstep : ∀ w t, P w → C w t → Ends (step w.1 t) (fun s => P (s, note w.1 w.2)) fail) :
    ∀ (ts : List τ) (w : σ × η), P w → Meets (remembering step note) C w ts →
      Ends (ts.foldlM step w.1) (fun s => ∃ m, P (s, m)) fail := by
  intro ts
  induction ts with
  | nil => exact fun w hw _ => ⟨w.2, hw⟩
  | cons t ts ih =>
    intro w hw hmeets
    obtain ⟨hc, hrest⟩ := meets_cons_iff.mp hmeets
    rw [List.foldlM_cons]
    apply (hstep w t hw hc).bind_eq (fun _ he => he)
    intro s hs hp
    refine ih (s, note w.1 w.2) hp (hrest _ ?_)
    rw [remembering, hs]
    rfl

end Memory

end Runs

end EasyReactor.Foundation
