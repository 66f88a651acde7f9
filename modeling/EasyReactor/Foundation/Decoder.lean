import Mathlib.Data.List.Basic

set_option autoImplicit false

/-!
# Foundation: incremental decoding of a stream

A `Decoder` looks at the front of what has arrived.  Its verdict is to wait, to give
up on the stream, or to emit a message and drop the symbols it took up.  The two
stability fields say that a verdict other than `wait` does not change when more
arrives.  They are all that makes decoding independent of how the stream was cut:
`decode_append` resumes a decoding where it waited, and `decode_stuck` says that one
that was given up stays given up.
-/

namespace EasyReactor.Foundation

variable {β μ : Type}

/-- What the front of a stream calls for. -/
inductive Verdict (μ : Type) where
  /-- more symbols are needed -/
  | wait
  /-- the stream is not well formed -/
  | reject
  /-- a message that takes up the first `n` symbols -/
  | emit (m : μ) (n : Nat)
  deriving DecidableEq

structure Decoder (β μ : Type) where
  next : List β → Verdict μ
  /-- a message takes up at least one symbol, and only what is there -/
  emit_size : ∀ {s m n}, next s = .emit m n → 0 < n ∧ n ≤ s.length
  emit_stable : ∀ {s m n} (t : List β), next s = .emit m n → next (s ++ t) = .emit m n
  reject_stable : ∀ {s} (t : List β), next s = .reject → next (s ++ t) = .reject

/-- What a decoding produced: the messages, and what is left, or `none` when the
stream was given up. -/
structure Decoded (β μ : Type) where
  msgs : List μ
  rest : Option (List β)
  deriving DecidableEq

namespace Decoded

/-- `m` was emitted before the rest of the decoding. -/
def push (m : μ) (d : Decoded β μ) : Decoded β μ := ⟨m :: d.msgs, d.rest⟩

/-- `ms` were emitted before the rest of the decoding. -/
def after (ms : List μ) (d : Decoded β μ) : Decoded β μ := ⟨ms ++ d.msgs, d.rest⟩

@[simp] theorem push_msgs (m : μ) (d : Decoded β μ) : (d.push m).msgs = m :: d.msgs := rfl
@[simp] theorem after_msgs (ms : List μ) (d : Decoded β μ) : (d.after ms).msgs = ms ++ d.msgs := rfl

@[simp] theorem after_rest (ms : List μ) (d : Decoded β μ) : (d.after ms).rest = d.rest := rfl

end Decoded

namespace Decoder

variable (D : Decoder β μ)

/-- Decode a whole stream. -/
def decode (s : List β) : Decoded β μ :=
  match h : D.next s with
  | .wait => ⟨[], some s⟩
  | .reject => ⟨[], none⟩
  | .emit m n =>
    have := D.emit_size h
    (decode (s.drop n)).push m
  termination_by s.length
  decreasing_by rw [List.length_drop]; omega

variable {D} {s : List β}

theorem decode_wait (h : D.next s = .wait) : D.decode s = ⟨[], some s⟩ := by
  rw [decode]
  split
  next => rfl
  next h' => rw [h] at h'; cases h'
  next h' => rw [h] at h'; cases h'

theorem decode_reject (h : D.next s = .reject) : D.decode s = ⟨[], none⟩ := by
  rw [decode]
  split
  next h' => rw [h] at h'; cases h'
  next => rfl
  next h' => rw [h] at h'; cases h'

theorem decode_emit {m : μ} {n : Nat} (h : D.next s = .emit m n) :
    D.decode s = (D.decode (s.drop n)).push m := by
  rw [decode]
  split
  next h' => rw [h] at h'; cases h'
  next h' => rw [h] at h'; cases h'
  next m' n' h' =>
    rw [h] at h'
    obtain ⟨rfl, rfl⟩ := Verdict.emit.inj h'
    rfl

/-- Induction along a decoding: one case for each verdict. -/
theorem decode_induction {P : List β → Prop}
    (wait : ∀ s, D.next s = .wait → P s)
    (reject : ∀ s, D.next s = .reject → P s)
    (emit : ∀ s m n, D.next s = .emit m n → P (s.drop n) → P s) (s : List β) : P s := by
  generalize hk : s.length = k
  induction k using Nat.strongRecOn generalizing s with
  | _ k ih =>
    cases h : D.next s with
    | wait => exact wait s h
    | reject => exact reject s h
    | emit m n =>
      have hn := D.emit_size h
      apply emit s m n h
      apply ih (s.drop n).length _ (s.drop n) rfl
      rw [List.length_drop]
      omega

/-- What is left is a suffix of the stream, and calls for more symbols. -/
theorem decode_rest {r : List β} (h : (D.decode s).rest = some r) :
    D.next r = .wait ∧ ∃ taken, s = taken ++ r := by
  induction s using decode_induction (D := D) with
  | wait s hs =>
    rw [decode_wait hs] at h
    obtain rfl := Option.some.inj h
    exact ⟨hs, [], rfl⟩
  | reject s hs =>
    rw [decode_reject hs] at h
    cases h
  | emit s m n hs ih =>
    rw [decode_emit hs] at h
    obtain ⟨hw, taken, ht⟩ := ih h
    refine ⟨hw, s.take n ++ taken, ?_⟩
    rw [List.append_assoc, ← ht, List.take_append_drop]

/-- A decoding without messages leaves the whole stream. -/
theorem decode_idle {r : List β} (h : D.decode s = ⟨[], some r⟩) : r = s := by
  cases hn : D.next s with
  | wait =>
    rw [decode_wait hn] at h
    exact (Option.some.inj (congrArg Decoded.rest h)).symm
  | reject =>
    rw [decode_reject hn] at h
    cases congrArg Decoded.rest h
  | emit m n =>
    rw [decode_emit hn] at h
    cases congrArg Decoded.msgs h

/-- A decoding resumes where it waited. -/
theorem decode_append {r : List β} (h : (D.decode s).rest = some r) (t : List β) :
    D.decode (s ++ t) = (D.decode (r ++ t)).after (D.decode s).msgs := by
  induction s using decode_induction (D := D) with
  | wait s hs =>
    rw [decode_wait hs] at h ⊢
    obtain rfl := Option.some.inj h
    rfl
  | reject s hs =>
    rw [decode_reject hs] at h
    cases h
  | emit s m n hs ih =>
    have hn := (D.emit_size hs).2
    rw [decode_emit hs] at h ⊢
    rw [decode_emit (D.emit_stable t hs), List.drop_append_of_le_length hn, ih h]
    rfl

/-- A stream that was given up stays given up. -/
theorem decode_stuck (h : (D.decode s).rest = none) (t : List β) :
    D.decode (s ++ t) = D.decode s := by
  induction s using decode_induction (D := D) with
  | wait s hs =>
    rw [decode_wait hs] at h
    cases h
  | reject s hs =>
    rw [decode_reject hs, decode_reject (D.reject_stable t hs)]
  | emit s m n hs ih =>
    have hn := (D.emit_size hs).2
    rw [decode_emit hs] at h ⊢
    rw [decode_emit (D.emit_stable t hs), List.drop_append_of_le_length hn, ih h]

/-- The messages of a stream are the first messages of every longer one. -/
theorem decode_msgs_prefix (s t : List β) :
    (D.decode s).msgs <+: (D.decode (s ++ t)).msgs := by
  cases h : (D.decode s).rest with
  | none =>
    refine ⟨[], ?_⟩
    rw [decode_stuck h, List.append_nil]
  | some r =>
    rw [decode_append h]
    exact List.prefix_append _ _

end Decoder

end EasyReactor.Foundation
