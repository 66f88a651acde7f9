import Mathlib.Data.List.Basic
import Mathlib.Data.List.Perm.Subperm
import Mathlib.Logic.Function.Basic

set_option autoImplicit false

/-!
# Foundation: a table of numbered slots

A process gets descriptors by number: the lowest free one below a limit, until it
is closed.  Here a slot is owned by an `ω`, whatever that is, or free.
-/

namespace EasyReactor.Foundation

/-- The slots, the free ones being those without an owner. -/
structure Descriptors (ω : Type) where
  limit : Nat
  owner : Nat → Option ω

/-- Different numbers in a window of `m` are at most `m`. -/
theorem length_le_of_window {l : List Nat} {lo : Int} {m : Nat} (hnodup : l.Nodup)
    (hwindow : ∀ n ∈ l, lo ≤ n ∧ (n : Int) < lo + m) : l.length ≤ m := by
  have hsub : l ⊆ List.range' lo.toNat m := by
    intro n hn
    obtain ⟨hlo, hhi⟩ := hwindow n hn
    rw [List.mem_range'_1]
    omega
  have hlen := (List.subperm_of_subset hnodup hsub).length_le
  rwa [List.length_range'] at hlen

namespace Descriptors

variable {ω : Type}

/-- The lowest free number. -/
def lowestFree (t : Descriptors ω) : Option Nat :=
  (List.range t.limit).find? fun n => (t.owner n).isNone

/-- Take the lowest free number for `w`; `none` when the table is full. -/
def alloc (t : Descriptors ω) (w : ω) : Option (Nat × Descriptors ω) :=
  t.lowestFree.map fun n => (n, { t with owner := Function.update t.owner n (some w) })

def close (t : Descriptors ω) (n : Nat) : Descriptors ω :=
  { t with owner := Function.update t.owner n none }

/-- How many of the first `m` numbers are taken. -/
def crowd (t : Descriptors ω) (m : Nat) : Nat :=
  (List.range m).countP fun n => (t.owner n).isSome

theorem owner_close (t : Descriptors ω) (n m : Nat) :
    (t.close n).owner m = if m = n then none else t.owner m :=
  Function.update_apply t.owner n none m

/-- What it means to get a number. -/
theorem alloc_eq_some {t t' : Descriptors ω} {w : ω} {n : Nat} (h : t.alloc w = some (n, t')) :
    n < t.limit ∧ t.owner n = none ∧ (∀ m < n, t.owner m ≠ none) ∧
      t'.limit = t.limit ∧ ∀ m, t'.owner m = if m = n then some w else t.owner m := by
  obtain ⟨k, hk, heq⟩ := Option.map_eq_some_iff.mp h
  obtain ⟨rfl, rfl⟩ := Prod.mk.inj heq
  obtain ⟨hfree, as, bs, hrange, hbefore⟩ := List.find?_eq_some_iff_append.mp hk
  have hmem : k ∈ List.range t.limit := by
    rw [hrange]
    exact List.mem_append_right as List.mem_cons_self
  refine ⟨List.mem_range.mp hmem, Option.isNone_iff_eq_none.mp hfree, fun m hm hnone => ?_, rfl,
    fun m => Function.update_apply t.owner k (some w) m⟩
  -- the numbers below `k` come before it in the range
  have hlt : m ∈ as := by
    have hm' : m ∈ List.range t.limit :=
      List.mem_range.mpr (Nat.lt_trans hm (List.mem_range.mp hmem))
    rw [hrange] at hm'
    rcases List.mem_append.mp hm' with has | hbs
    · exact has
    · have hsorted : (as ++ k :: bs).Pairwise (· < ·) := hrange ▸ List.pairwise_lt_range
      have hkb := (List.pairwise_append.mp hsorted).2.1
      rcases List.mem_cons.mp hbs with rfl | hbs
      · exact absurd hm (Nat.lt_irrefl m)
      · exact absurd hm (Nat.lt_asymm (List.rel_of_pairwise_cons hkb hbs))
  have hbusy := hbefore m hlt
  rw [hnone] at hbusy
  cases hbusy

/-- The number is free before, and its owner is all that changes. -/
theorem alloc_update {t t' : Descriptors ω} {w : ω} {n : Nat} (h : t.alloc w = some (n, t')) :
    t.owner n = none ∧ t'.owner = Function.update t.owner n (some w) := by
  obtain ⟨-, hfree, -, -, howner⟩ := alloc_eq_some h
  refine ⟨hfree, funext fun m => ?_⟩
  rw [howner, Function.update_apply]

/-- The first `m` numbers are not all taken exactly when one is free. -/
theorem crowd_lt_iff (t : Descriptors ω) (m : Nat) :
    t.crowd m < m ↔ ∃ n < m, t.owner n = none := by
  have hle : t.crowd m ≤ m := by
    have := List.countP_le_length (p := fun n => (t.owner n).isSome) (l := List.range m)
    rwa [List.length_range] at this
  have hall : t.crowd m = m ↔ ∀ n < m, t.owner n ≠ none := by
    have h := List.countP_eq_length (p := fun n => (t.owner n).isSome) (l := List.range m)
    rw [List.length_range] at h
    simpa [crowd, Option.isSome_iff_ne_none] using h
  constructor
  · intro hlt
    by_contra hno
    refine Nat.ne_of_lt hlt (hall.mpr fun n hn hnone => hno ⟨n, hn, hnone⟩)
  · rintro ⟨n, hn, hnone⟩
    refine Nat.lt_of_le_of_ne hle fun heq => ?_
    exact hall.mp heq n hn hnone

/-- **The pigeonhole.**  The number handed out is below `m` exactly when the first `m`
numbers were not all taken. -/
theorem alloc_lt_iff {t t' : Descriptors ω} {w : ω} {n : Nat} (h : t.alloc w = some (n, t'))
    (m : Nat) : n < m ↔ t.crowd m < m := by
  obtain ⟨_, hfree, hbelow, _⟩ := alloc_eq_some h
  rw [crowd_lt_iff]
  constructor
  · exact fun hn => ⟨n, hn, hfree⟩
  · rintro ⟨k, hk, hnone⟩
    by_contra hge
    exact hbelow k (by omega) hnone

end Descriptors

end EasyReactor.Foundation
