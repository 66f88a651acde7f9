import Mathlib.Data.List.TakeWhile

set_option autoImplicit false

/-!
# Foundation: tokens

`tokens` cuts a list at the elements that satisfy `p`, the separators, and keeps what is
not empty.  `Spells` says how a list of tokens can be written down: separators stand
between any two tokens, and may stand before and after.  Writing tokens down and cutting
are inverse to each other (`tokens_eq_iff`).
-/

namespace EasyReactor.Foundation

variable {α : Type} {p : α → Bool} {c : α} {l lead run : List α} {ts : List (List α)}

/-- The maximal non-empty runs of elements that are no separators. -/
def tokens (p : α → Bool) (l : List α) : List (List α) :=
  (l.splitOnP p).filter fun run => !run.isEmpty

/-- A token: not empty, and without separators. -/
structure Token (p : α → Bool) (run : List α) : Prop where
  ne_nil : run ≠ []
  free : ∀ c ∈ run, p c = false

/-- The list `l` is the tokens `ts`, with separators before, between and after them. -/
inductive Spells (p : α → Bool) : List (List α) → List α → Prop where
  | nil {lead : List α} (hlead : ∀ c ∈ lead, p c = true) : Spells p [] lead
  | last {lead run : List α} (hlead : ∀ c ∈ lead, p c = true) (hrun : Token p run) :
      Spells p [run] (lead ++ run)
  | cons {lead run l : List α} {c : α} {ts : List (List α)} (hlead : ∀ c ∈ lead, p c = true)
      (hrun : Token p run) (hsep : p c = true) (rest : Spells p ts l) :
      Spells p (run :: ts) (lead ++ run ++ c :: l)

/-! ## Cutting -/

/-- A separator at the head gives no token. -/
theorem tokens_cons_sep (hsep : p c = true) : tokens p (c :: l) = tokens p l := by
  unfold tokens
  rw [List.splitOnP_cons_eq_if_modifyHead, if_pos hsep]
  rfl

theorem tokens_append_seps (hlead : ∀ c ∈ lead, p c = true) :
    tokens p (lead ++ l) = tokens p l := by
  induction lead with
  | nil => rfl
  | cons c lead ih =>
    rw [List.cons_append, tokens_cons_sep (hlead c List.mem_cons_self)]
    exact ih fun d hd => hlead d (List.mem_cons_of_mem c hd)

theorem tokens_seps (hlead : ∀ c ∈ lead, p c = true) : tokens p lead = [] := by
  rw [← List.append_nil lead, tokens_append_seps hlead]
  rfl

theorem Token.kept (h : Token p run) : (!run.isEmpty) = true := by
  rw [Bool.not_eq_true', List.isEmpty_eq_false_iff]
  exact h.ne_nil

theorem tokens_token (h : Token p run) : tokens p run = [run] := by
  unfold tokens
  rw [List.splitOnP_eq_singleton h.free]
  exact List.filter_cons_of_pos h.kept

/-- A token ends at the separator after it. -/
theorem tokens_token_sep (h : Token p run) (hsep : p c = true) :
    tokens p (run ++ c :: l) = run :: tokens p l := by
  unfold tokens
  rw [List.splitOnP_append_cons_of_forall_mem h.free c hsep]
  exact List.filter_cons_of_pos h.kept

/-- No token is empty. -/
theorem ne_nil_of_mem_tokens (h : run ∈ tokens p l) : run ≠ [] := by
  obtain ⟨-, hkept⟩ := List.mem_filter.mp h
  rwa [Bool.not_eq_true', List.isEmpty_eq_false_iff] at hkept

/-! ## The first token -/

theorem takeWhile_token (hhead : p c = false) :
    Token p ((c :: l).takeWhile fun d => !p d) where
  ne_nil := by
    rw [List.takeWhile_cons_of_pos (by simp [hhead])]
    exact List.cons_ne_nil _ _
  free d hd := by
    have h := List.mem_takeWhile_imp hd
    simpa using h

/-- What follows the first run is empty or begins with a separator. -/
theorem dropWhile_sep (l : List α) :
    l.dropWhile (fun d => !p d) = [] ∨
      ∃ c l', l.dropWhile (fun d => !p d) = c :: l' ∧ p c = true := by
  cases hrest : l.dropWhile fun d => !p d with
  | nil => exact .inl rfl
  | cons c l' =>
    refine .inr ⟨c, l', rfl, ?_⟩
    have hne : l.dropWhile (fun d => !p d) ≠ [] := by
      rw [hrest]
      exact List.cons_ne_nil _ _
    have hstop := List.head_dropWhile_not (fun d => !p d) hne
    simpa [hrest] using hstop

/-- The first token is what stands before the first separator. -/
theorem tokens_of_head (hhead : p c = false) :
    tokens p (c :: l) = (c :: l).takeWhile (fun d => !p d) ::
      tokens p ((c :: l).dropWhile fun d => !p d) := by
  have htoken : Token p ((c :: l).takeWhile fun d => !p d) := takeWhile_token hhead
  have hparts := List.takeWhile_append_dropWhile (p := fun d => !p d) (l := c :: l)
  rcases dropWhile_sep (p := p) (c :: l) with hnil | ⟨d, l', hrest, hsep⟩
  · rw [hnil, List.append_nil] at hparts
    rw [hnil, hparts]
    rw [hparts] at htoken
    exact tokens_token htoken
  · rw [hrest] at hparts
    rw [hrest, tokens_cons_sep hsep, ← tokens_token_sep htoken hsep, hparts]

/-! ## Writing down -/

theorem Spells.tokens_eq (h : Spells p ts l) : tokens p l = ts := by
  induction h with
  | nil hlead => exact tokens_seps hlead
  | last hlead hrun => rw [tokens_append_seps hlead, tokens_token hrun]
  | cons hlead hrun hsep _ ih =>
    rw [List.append_assoc, tokens_append_seps hlead, tokens_token_sep hrun hsep, ih]

/-- One more separator in front changes nothing. -/
theorem Spells.cons_sep (hsep : p c = true) (h : Spells p ts l) : Spells p ts (c :: l) := by
  have hlonger : ∀ lead : List α, (∀ d ∈ lead, p d = true) → ∀ d ∈ c :: lead, p d = true :=
    fun lead hlead => List.forall_mem_cons.mpr ⟨hsep, hlead⟩
  cases h with
  | nil hlead => exact .nil (hlonger _ hlead)
  | last hlead hrun => exact .last (hlonger _ hlead) hrun
  | cons hlead hrun hsep' rest => exact .cons (hlonger _ hlead) hrun hsep' rest

theorem spells_tokens (p : α → Bool) (l : List α) : Spells p (tokens p l) l := by
  induction hlen : l.length using Nat.strong_induction_on generalizing l with
  | _ n ih =>
    cases l with
    | nil => exact .nil fun d hd => by cases hd
    | cons c l =>
      cases hc : p c with
      | true =>
        rw [tokens_cons_sep hc]
        exact (ih l.length (by rw [← hlen, List.length_cons]; omega) l rfl).cons_sep hc
      | false =>
        have htoken : Token p ((c :: l).takeWhile fun d => !p d) := takeWhile_token hc
        have hparts := List.takeWhile_append_dropWhile (p := fun d => !p d) (l := c :: l)
        have hnone : ∀ d ∈ ([] : List α), p d = true := fun d hd => by cases hd
        rw [tokens_of_head hc]
        rcases dropWhile_sep (p := p) (c :: l) with hnil | ⟨d, l', hrest, hsep⟩
        · rw [hnil, List.append_nil] at hparts
          rw [hnil, tokens_seps hnone]
          have hlast := Spells.last hnone htoken
          rw [List.nil_append] at hlast
          rw [hparts] at hlast ⊢
          exact hlast
        · rw [hrest] at hparts ⊢
          have hlt : l'.length < n := by
            have hlength := congrArg List.length hparts
            rw [List.length_append, List.length_cons, hlen] at hlength
            omega
          have hcons := Spells.cons hnone htoken hsep (ih l'.length hlt l' rfl)
          rw [tokens_cons_sep hsep]
          rwa [List.nil_append, hparts] at hcons

/-- The tokens are exactly what a list can be written down from. -/
theorem tokens_eq_iff : tokens p l = ts ↔ Spells p ts l := by
  constructor
  · rintro rfl
    exact spells_tokens p l
  · exact Spells.tokens_eq

end EasyReactor.Foundation
