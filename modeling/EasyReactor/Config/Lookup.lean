import EasyReactor.Config.Load

set_option autoImplicit false

/-!
# Config: the typed getters

`GetString`, `GetNumber` and `GetBool` each look a key up and fall back on the default of
the caller.  The first two return what the last assignment to the key says.  `GetBool`
leaves its branch only for a value that is `true`: any other value gives the default too.
-/

namespace EasyReactor.Config

open EasyReactor.Foundation

/-! ## `strcasecmp` -/

/-- The characters of a string up to its first NUL. -/
def cStr (s : Str) : Str := s.takeWhile (· ≠ 0)

/-- The strings are equal but for the case of their letters. -/
def equalsNoCase (s t : Str) : Prop := s.map tolower = t.map tolower

instance (s t : Str) : Decidable (equalsNoCase s t) :=
  inferInstanceAs (Decidable (s.map tolower = t.map tolower))

theorem tolower_eq_zero_iff (c : UInt8) : tolower c = 0 ↔ c = 0 := by
  unfold tolower
  split
  · next hupper =>
    obtain ⟨hlo, hhi⟩ := Bool.and_eq_true_iff.mp hupper
    have hlo : 65 ≤ c.toNat := UInt8.le_iff_toNat_le.mp (of_decide_eq_true hlo)
    have hhi : c.toNat ≤ 90 := UInt8.le_iff_toNat_le.mp (of_decide_eq_true hhi)
    rw [← UInt8.toNat_inj, ← UInt8.toNat_inj, UInt8.toNat_add, UInt8.toNat_zero]
    have hstep : UInt8.toNat 32 = 32 := rfl
    omega
  · exact Iff.rfl

theorem tolower_toNat_eq_zero_iff (c : UInt8) : (tolower c).toNat = 0 ↔ c = 0 := by
  rw [← tolower_eq_zero_iff, ← UInt8.toNat_inj, UInt8.toNat_zero]

theorem cStr_cons {c : UInt8} (s : Str) (h : c ≠ 0) : cStr (c :: s) = c :: cStr s :=
  List.takeWhile_cons_of_pos (by simpa using h)

theorem cStr_eq_nil_iff (c : UInt8) (s : Str) : cStr (c :: s) = [] ↔ c = 0 := by
  constructor
  · intro h
    by_contra hc
    rw [cStr_cons s hc] at h
    cases h
  · rintro rfl
    rfl

/-- Two strings that both have a character to compare. -/
theorem equalsNoCase_cons (c d : UInt8) (cs ds : Str) :
    equalsNoCase (cStr (c :: cs)) (cStr (d :: ds)) ↔
      tolower c = tolower d ∧ (c = 0 ∨ equalsNoCase (cStr cs) (cStr ds)) := by
  unfold equalsNoCase
  by_cases hc : c = 0
  · subst hc
    rw [(cStr_eq_nil_iff 0 cs).mpr rfl, List.map_nil, eq_comm, List.map_eq_nil_iff,
      cStr_eq_nil_iff, ← tolower_eq_zero_iff d]
    constructor
    · intro h
      exact ⟨h.symm, .inl rfl⟩
    · intro h
      exact h.1.symm
  · have hlow : tolower c ≠ 0 := fun h => hc ((tolower_eq_zero_iff c).mp h)
    rw [cStr_cons cs hc, List.map_cons, or_iff_right hc]
    by_cases hd : d = 0
    · subst hd
      rw [(cStr_eq_nil_iff 0 ds).mpr rfl, List.map_nil]
      constructor
      · intro h
        cases h
      · intro h
        exact absurd h.1 hlow
    · rw [cStr_cons ds hd, List.map_cons, List.cons.injEq]

/-- `strcasecmp` compares up to the first NUL. -/
theorem strcasecmp_eq_zero_iff :
    ∀ s t : Str, strcasecmp s t = 0 ↔ equalsNoCase (cStr s) (cStr t) := by
  intro s
  induction s with
  | nil =>
    intro t
    cases t with
    | nil => exact ⟨fun _ => rfl, fun _ => rfl⟩
    | cons d ds =>
      have hzero : strcasecmp [] (d :: ds) = 0 ↔ d = 0 := by
        rw [strcasecmp, Int.neg_eq_zero, Int.natCast_eq_zero, tolower_toNat_eq_zero_iff]
      rw [hzero, ← cStr_eq_nil_iff d ds]
      exact ⟨fun h => by rw [h]; rfl, fun h => List.map_eq_nil_iff.mp h.symm⟩
  | cons c cs ih =>
    intro t
    cases t with
    | nil =>
      have hzero : strcasecmp (c :: cs) [] = 0 ↔ c = 0 := by
        rw [strcasecmp, Int.natCast_eq_zero, tolower_toNat_eq_zero_iff]
      rw [hzero, ← cStr_eq_nil_iff c cs]
      exact ⟨fun h => by rw [h]; rfl, List.map_eq_nil_iff.mp⟩
    | cons d ds =>
      rw [strcasecmp, equalsNoCase_cons]
      by_cases hlow : tolower c = tolower d
      · rw [if_neg (not_not.mpr hlow), and_iff_right hlow]
        by_cases hc : c = 0
        · rw [if_pos hc]
          exact ⟨fun _ => .inl hc, fun _ => rfl⟩
        · rw [if_neg hc, or_iff_right hc]
          exact ih ds
      · rw [if_pos hlow, ← UInt8.toNat_inj] at *
        constructor
        · intro h
          omega
        · intro h
          exact absurd h.1 hlow

/-- A string that reads `true` but for the case is `true` for `strcasecmp`. -/
theorem strcasecmp_of_equalsNoCase {value : Str} (h : equalsNoCase value (text "true")) :
    strcasecmp value (text "true") = 0 := by
  have hnul : ∀ c ∈ value, c ≠ 0 := by
    rintro c hc rfl
    have hmem : tolower 0 ∈ (text "true").map tolower := h ▸ List.mem_map_of_mem hc
    revert hmem
    decide
  have hwhole : cStr value = value := List.takeWhile_eq_self_iff.mpr (by simpa using hnul)
  rw [strcasecmp_eq_zero_iff, hwhole]
  exact h

/-! ## The lookup -/

theorem getNumber_eq (map : StrMap (StrMap Str)) (sect key : Str) (default : UInt32) :
    getNumber map sect key default =
      (((map sect).bind (· key)).map parseNumber).getD default := by
  unfold getNumber
  cases map sect with
  | none => rfl
  | some inner => cases hkey : inner key <;> simp [hkey]

theorem getBool_eq (map : StrMap (StrMap Str)) (sect key : Str) (default : Bool) :
    getBool map sect key default = (((map sect).bind (· key)).map fun value =>
      if strcasecmp value (text "true") = 0 then true else default).getD default := by
  unfold getBool
  cases map sect with
  | none => rfl
  | some inner => cases hkey : inner key <;> simp [hkey]

/-- A result of each getter, or a default for it. -/
structure Typed where
  string : Str
  number : UInt32
  bool : Bool
  deriving DecidableEq

/-- What the getters return for a key. -/
def getTyped (map : StrMap (StrMap Str)) (sect key : Str) (d : Typed) : Typed where
  string := getString map sect key d.string
  number := getNumber map sect key d.number
  bool := getBool map sect key d.bool

/-- What a value says. -/
def reading (value : Str) : Typed where
  string := value
  number := parseNumber value
  bool := equalsNoCase value (text "true")

/-- The getters return what the last value of the key says, whatever the default is, and
the default when there is none. -/
def ReadsLast (map : StrMap (StrMap Str)) (last : Option Str) (sect key : Str) (d e : Typed) :
    Prop :=
  match last with
  | some value => getTyped map sect key d = getTyped map sect key e ∧
      getTyped map sect key d = reading value
  | none => getTyped map sect key d = d ∧ getTyped map sect key e = e

variable {map : StrMap (StrMap Str)} {sect key value : Str}

theorem getTyped_unset (h : (map sect).bind (· key) = none) (d : Typed) :
    getTyped map sect key d = d := by
  unfold getTyped
  rw [getString_eq, getNumber_eq, getBool_eq, h]
  rfl

/-- Whether a value is returned as it reads. -/
theorem getTyped_set (h : (map sect).bind (· key) = some value) (d : Typed) :
    getTyped map sect key d = reading value ↔
      equalsNoCase value (text "true") ∨
        strcasecmp value (text "true") ≠ 0 ∧ d.bool = false := by
  unfold getTyped reading
  rw [getString_eq, getNumber_eq, getBool_eq, h]
  simp only [Option.map_some, Option.getD_some, Typed.mk.injEq, true_and]
  by_cases heq : equalsNoCase value (text "true")
  · rw [if_pos (strcasecmp_of_equalsNoCase heq), decide_eq_true heq]
    exact ⟨fun _ => .inl heq, fun _ => rfl⟩
  · rw [decide_eq_false heq, or_iff_right heq]
    by_cases hcmp : strcasecmp value (text "true") = 0
    · rw [if_pos hcmp]
      constructor
      · intro h
        cases h
      · intro h
        exact absurd hcmp h.1
    · rw [if_neg hcmp]
      exact ⟨fun h => ⟨hcmp, h⟩, fun h => h.2⟩

/-- **Typed lookups read the last assignment** whatever the default is, exactly if the key
is not assigned, or its value is `true` but for the case, or its value up to the first NUL
is not and both defaults of `GetBool` are `false`. -/
theorem getTyped_reads_last_iff {content : Str} (hhead : Headed (lines content))
    (sect key : Str) (d e : Typed) :
    ∃ map, load (some content) = .ok (true, map) ∧
      (ReadsLast map (lastValue (assignments none (lines content)) sect key) sect key d e ↔
        ∀ value ∈ lastValue (assignments none (lines content)) sect key,
          equalsNoCase value (text "true") ∨
            strcasecmp value (text "true") ≠ 0 ∧ d.bool = false ∧ e.bool = false) := by
  obtain ⟨map, hload, -, hmap⟩ := load_spec hhead
  refine ⟨map, hload, ?_⟩
  have hkey := hmap sect key
  unfold ReadsLast
  cases hlast : lastValue (assignments none (lines content)) sect key with
  | none =>
    rw [hlast] at hkey
    have hvacuous : ∀ value ∈ (none : Option Str), equalsNoCase value (text "true") ∨
        strcasecmp value (text "true") ≠ 0 ∧ d.bool = false ∧ e.bool = false := by
      intro value h
      cases h
    exact ⟨fun _ => hvacuous, fun _ => ⟨getTyped_unset hkey d, getTyped_unset hkey e⟩⟩
  | some value =>
    rw [hlast] at hkey
    have hreads : (getTyped map sect key d = getTyped map sect key e ∧
          getTyped map sect key d = reading value) ↔
        getTyped map sect key d = reading value ∧ getTyped map sect key e = reading value :=
      ⟨fun h => ⟨h.2, h.1 ▸ h.2⟩, fun h => ⟨h.1.trans h.2.symm, h.1⟩⟩
    simp only [Option.mem_some_iff, forall_eq']
    rw [hreads, getTyped_set hkey, getTyped_set hkey, ← or_and_left]
    refine or_congr_right ?_
    constructor
    · intro h
      exact ⟨h.1.1, h.1.2, h.2.2⟩
    · intro h
      exact ⟨⟨h.1, h.2.1⟩, h.1, h.2.2⟩

/-- Two blocks of one section, and a last value that is not `true`. -/
theorem getTyped_reads_last_reopened :
    Headed (lines (text "[a]\nb=yes\n[c]\nb=TRUE\n[a]\nb=12\n")) ∧
    ∃ map, load (some (text "[a]\nb=yes\n[c]\nb=TRUE\n[a]\nb=12\n")) = .ok (true, map) ∧
      (ReadsLast map (lastValue (assignments none
            (lines (text "[a]\nb=yes\n[c]\nb=TRUE\n[a]\nb=12\n"))) (text "a") (text "b"))
          (text "a") (text "b") ⟨[], 0, false⟩ ⟨text "x", 1, true⟩ ↔
        ∀ value ∈ lastValue (assignments none
            (lines (text "[a]\nb=yes\n[c]\nb=TRUE\n[a]\nb=12\n"))) (text "a") (text "b"),
          equalsNoCase value (text "true") ∨
            strcasecmp value (text "true") ≠ 0 ∧ false = false ∧ true = false) :=
  ⟨by decide +kernel, getTyped_reads_last_iff (by decide +kernel) _ _ _ _⟩

/-- A value that is not `true`, and the default `true`. -/
theorem getBool_no_gives_default :
    ¬ ∀ content : Str, Headed (lines content) → ∀ (sect key : Str) (d e : Typed),
        ∃ map, load (some content) = .ok (true, map) ∧
          ReadsLast map (lastValue (assignments none (lines content)) sect key) sect key d e := by
  intro hall
  obtain ⟨map, hload, hreads⟩ := hall (text "[a]\nb=no") (by decide +kernel) (text "a") (text "b")
    ⟨[], 0, true⟩ ⟨[], 0, false⟩
  have hlast : lastValue (assignments none (lines (text "[a]\nb=no"))) (text "a") (text "b") =
      some (text "no") := by decide +kernel
  have hobs : (load (some (text "[a]\nb=no"))).toOption.map
      (fun r => getBool r.2 (text "a") (text "b") true) = some true := by decide +kernel
  rw [hlast] at hreads
  have hfalse : getBool map (text "a") (text "b") true = false :=
    (congrArg Typed.bool hreads.2).trans (by decide +kernel)
  rw [observed_of_ok hload hobs] at hfalse
  cases hfalse

end EasyReactor.Config
