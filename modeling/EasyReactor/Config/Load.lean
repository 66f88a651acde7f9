import EasyReactor.Config.Reader

set_option autoImplicit false

/-!
# Config: what `Load` leaves in `_map`

A line names a section, assigns to a key of the current section, or is skipped.  `Load`
is described by the assignments that its lines make, in order: it gets to its end exactly
when the first line that is not skipped names a section, and then `_map` holds for each
key the value of the last assignment.
-/

namespace EasyReactor.Config

open EasyReactor.Foundation

/-- An assignment: section, key and value. -/
abbrev Assignment := Str × Str × Str

/-- The section a line leaves `Load` in. -/
def current (m : Option Str) (line : Str) : Option Str := (isSection line).or m

/-- The assignment that a line makes in section `m`. -/
def lineAssignment (m : Option Str) (line : Str) : List Assignment :=
  match isSection line, m, keyValue line with
  | none, some sect, some (key, value) => [(sect, key, value)]
  | _, _, _ => []

/-- The assignments that lines make, from section `m` on. -/
def assignments : Option Str → List Str → List Assignment
  | _, [] => []
  | m, line :: ls => lineAssignment m line ++ assignments (current m line) ls

/-- What was last assigned to a key. -/
def lastValue (as : List Assignment) (sect key : Str) : Option Str :=
  ((as.filter fun a => a.1 = sect ∧ a.2.1 = key).getLast?).map fun a => a.2.2

theorem lastValue_nil (sect key : Str) : lastValue [] sect key = none := rfl

theorem lastValue_append (as bs : List Assignment) (sect key : Str) :
    lastValue (as ++ bs) sect key = (lastValue bs sect key).or (lastValue as sect key) := by
  unfold lastValue
  rw [List.filter_append, List.getLast?_append, Option.map_or]

theorem lastValue_singleton (sect key value s k : Str) :
    lastValue [(sect, key, value)] s k = if sect = s ∧ key = k then some value else none := by
  unfold lastValue
  by_cases h : sect = s ∧ key = k
  · rw [if_pos h, List.filter_cons_of_pos (by simpa using h)]
    rfl
  · rw [if_neg h, List.filter_cons_of_neg (by simpa using h)]
    rfl

/-- A last value is the value of an assignment. -/
theorem mem_of_lastValue {as : List Assignment} {sect key value : Str}
    (h : lastValue as sect key = some value) : (sect, key, value) ∈ as := by
  obtain ⟨⟨s, k, v⟩, hlast, rfl⟩ := Option.map_eq_some_iff.mp h
  obtain ⟨hmem, hkey⟩ := List.mem_filter.mp (List.mem_of_getLast? hlast)
  obtain ⟨rfl, rfl⟩ := of_decide_eq_true hkey
  exact hmem

/-- What is assigned at all has a last value. -/
theorem lastValue_of_mem {as : List Assignment} {sect key value : Str}
    (h : (sect, key, value) ∈ as) : ∃ v, lastValue as sect key = some v := by
  have hmem : (sect, key, value) ∈ as.filter fun a => a.1 = sect ∧ a.2.1 = key :=
    List.mem_filter.mpr ⟨h, by simp⟩
  cases hlast : (as.filter fun a => a.1 = sect ∧ a.2.1 = key).getLast? with
  | none =>
    rw [List.getLast?_eq_none_iff.mp hlast] at hmem
    cases hmem
  | some a => exact ⟨a.2.2, by rw [lastValue, hlast]; rfl⟩

/-! ## One line -/

/-- `Load` does nothing with the line. -/
def skipped (line : Str) : Bool := (isSection line).isNone && (keyValue line).isNone

/-- The first line that is not skipped names a section. -/
def Headed (ls : List Str) : Prop :=
  ∀ line ∈ ls.find? fun line => !skipped line, (isSection line).isSome

instance (ls : List Str) : Decidable (Headed ls) :=
  inferInstanceAs (Decidable (∀ line ∈ ls.find? _, _))

theorem headed_skipped {line : Str} {ls : List Str} (h : skipped line = true) :
    Headed (line :: ls) ↔ Headed ls := by
  unfold Headed
  rw [List.find?_cons_of_neg (by simp [h])]

theorem headed_cons {line : Str} {ls : List Str} (h : skipped line = false) :
    Headed (line :: ls) ↔ (isSection line).isSome := by
  unfold Headed
  rw [List.find?_cons_of_pos (by simp [h])]
  simp

/-- The section `m` is in the map. -/
def Loading.Entered (s : Loading) : Prop := ∀ sect ∈ s.m, (s.map sect).isSome

/-- What lines that make the assignments `as` and name the sections `sects` do. -/
structure Loaded (s : Loading) (sects : List Str) (as : List Assignment) (t : Loading) :
    Prop where
  entered : t.Entered
  sections : ∀ sect, (t.map sect).isSome ↔ (s.map sect).isSome ∨ sect ∈ sects
  values : ∀ sect key, t.inner sect key = (lastValue as sect key).or (s.inner sect key)

theorem Loaded.refl {s : Loading} (h : s.Entered) : Loaded s [] [] s where
  entered := h
  sections sect := by simp
  values sect key := by rw [lastValue_nil, Option.none_or]

theorem Loaded.trans {s t u : Loading} {sects sects' : List Str} {as as' : List Assignment}
    (h : Loaded s sects as t) (h' : Loaded t sects' as' u) :
    Loaded s (sects ++ sects') (as ++ as') u where
  entered := h'.entered
  sections sect := by rw [h'.sections, h.sections, List.mem_append, or_assoc]
  values sect key := by rw [h'.values, h.values, lastValue_append, Option.or_assoc]

variable {s : Loading} {line : Str}

theorem loadLine_section {sect : Str} (hsect : isSection line = some sect) :
    ∃ t, loadLine s line = .ok t ∧ t.m = some sect ∧ Loaded s [sect] [] t := by
  unfold loadLine
  rw [hsect]
  simp only
  cases hmap : s.map sect with
  | some inner =>
    refine ⟨_, rfl, rfl, ?_, fun x => ?_, fun x key => ?_⟩
    · intro x hx
      obtain rfl := Option.some.inj hx
      rw [hmap]
      rfl
    · rw [List.mem_singleton]
      refine (or_iff_left_of_imp ?_).symm
      rintro rfl
      rw [hmap]
      rfl
    · rw [lastValue_nil, Option.none_or]
      rfl
  | none =>
    refine ⟨_, rfl, rfl, ?_, fun x => ?_, fun x key => ?_⟩
    · intro x hx
      obtain rfl := Option.some.inj hx
      simp
    · rw [List.mem_singleton]
      by_cases hx : x = sect
      · subst hx
        simp
      · simp [StrMap.set_ne _ _ hx, hx]
    · rw [lastValue_nil, Option.none_or]
      by_cases hx : x = sect
      · subst hx
        rw [Loading.inner_set_self, Loading.inner, hmap]
        rfl
      · rw [Loading.inner_set_ne _ _ _ hx]
        rfl

theorem loadLine_skipped (h : skipped line = true) : loadLine s line = .ok s := by
  obtain ⟨hsect, hkey⟩ := Bool.and_eq_true_iff.mp h
  unfold loadLine
  rw [Option.isNone_iff_eq_none.mp hsect, Option.isNone_iff_eq_none.mp hkey]

theorem loadLine_assign {sect key value : Str} (h : s.Entered) (hsect : isSection line = none)
    (hkey : keyValue line = some (key, value)) (hm : s.m = some sect) :
    ∃ t, loadLine s line = .ok t ∧ t.m = some sect ∧ Loaded s [] [(sect, key, value)] t := by
  unfold loadLine
  rw [hsect]
  simp only [hkey, hm]
  have hhere : (s.map sect).isSome := h sect hm
  refine ⟨_, rfl, rfl, ?_, fun x => ?_, fun x k => ?_⟩
  · intro x hx
    obtain rfl := Option.some.inj hx
    simp
  · by_cases hx : x = sect
    · subst hx
      simp [hhere]
    · simp [StrMap.set_ne _ _ hx]
  · rw [lastValue_singleton]
    by_cases hx : x = sect
    · subst hx
      rw [Loading.inner_set_self]
      by_cases hk : k = key
      · subst hk
        simp
      · rw [StrMap.set_ne _ _ hk, if_neg (fun h => hk h.2.symm), Option.none_or]
    · rw [Loading.inner_set_ne _ _ _ hx, if_neg (fun h => hx h.1.symm), Option.none_or]
      rfl

theorem loadLine_null (hsect : isSection line = none) (hkey : (keyValue line).isSome)
    (hm : s.m = none) : loadLine s line = .error .undefined := by
  obtain ⟨⟨key, value⟩, hkey⟩ := Option.isSome_iff_exists.mp hkey
  unfold loadLine
  rw [hsect]
  simp only [hkey, hm]

/-- A line that finds a current section or needs none is taken in. -/
theorem loadLine_spec (h : s.Entered)
    (hhead : s.m.isSome ∨ skipped line = true ∨ (isSection line).isSome) :
    ∃ t, loadLine s line = .ok t ∧ t.m = current s.m line ∧
      Loaded s (isSection line).toList (lineAssignment s.m line) t := by
  unfold current lineAssignment
  cases hsect : isSection line with
  | some sect =>
    obtain ⟨t, ht, hm, hloaded⟩ := loadLine_section hsect
    exact ⟨t, ht, hm, hloaded⟩
  | none =>
    cases hkey : keyValue line with
    | none =>
      have hskip : skipped line = true := by
        unfold skipped
        rw [hsect, hkey]
        rfl
      refine ⟨s, loadLine_skipped hskip, rfl, ?_⟩
      cases s.m <;> exact .refl h
    | some kv =>
      obtain ⟨key, value⟩ := kv
      cases hm : s.m with
      | none => simp [hm, skipped, hsect, hkey] at hhead
      | some sect =>
        obtain ⟨t, ht, htm, hloaded⟩ := loadLine_assign h hsect hkey hm
        exact ⟨t, ht, htm, hloaded⟩

/-! ## All lines -/

theorem loadLines_spec : ∀ (ls : List Str) {s : Loading}, s.Entered → s.m.isSome ∨ Headed ls →
    ∃ t, ls.foldlM loadLine s = .ok t ∧
      Loaded s (ls.filterMap isSection) (assignments s.m ls) t := by
  intro ls
  induction ls with
  | nil => exact fun h _ => ⟨_, rfl, .refl h⟩
  | cons line ls ih =>
    intro s h hhead
    have hline : s.m.isSome ∨ skipped line = true ∨ (isSection line).isSome := by
      refine hhead.imp_right fun hheaded => ?_
      cases hskip : skipped line with
      | true => exact .inl rfl
      | false => exact .inr ((headed_cons hskip).mp hheaded)
    obtain ⟨t, ht, htm, hloaded⟩ := loadLine_spec h hline
    have hrest : t.m.isSome ∨ Headed ls := by
      rw [htm, current, Option.isSome_or, Bool.or_eq_true]
      rcases hhead with hm | hheaded
      · exact .inl (.inr hm)
      · cases hskip : skipped line with
        | true => exact .inr ((headed_skipped hskip).mp hheaded)
        | false => exact .inl (.inl ((headed_cons hskip).mp hheaded))
    obtain ⟨u, hu, hloaded'⟩ := ih hloaded.entered hrest
    refine ⟨u, by rw [List.foldlM_cons, ht, ok_bind, hu], ?_⟩
    have hsects : (line :: ls).filterMap isSection =
        (isSection line).toList ++ ls.filterMap isSection := by
      cases hsect : isSection line with
      | none => exact List.filterMap_cons_none hsect
      | some sect => exact List.filterMap_cons_some hsect
    rw [hsects, assignments, ← htm]
    exact hloaded.trans hloaded'

/-- Without a section the first key line uses `m` while it is `NULL`. -/
theorem loadLines_null : ∀ (ls : List Str) {s : Loading}, s.m = none → ¬ Headed ls →
    ls.foldlM loadLine s = .error .undefined := by
  intro ls
  induction ls with
  | nil => exact fun _ hhead => absurd (fun _ h => by cases h) hhead
  | cons line ls ih =>
    intro s hm hhead
    rw [List.foldlM_cons]
    cases hskip : skipped line with
    | true =>
      rw [loadLine_skipped hskip, ok_bind]
      exact ih hm fun h => hhead ((headed_skipped hskip).mpr h)
    | false =>
      rw [headed_cons hskip, Bool.not_eq_true, Option.isSome_eq_false_iff,
        Option.isNone_iff_eq_none] at hhead
      have hkey : (keyValue line).isSome := by
        unfold skipped at hskip
        rw [hhead] at hskip
        simpa using hskip
      rw [loadLine_null hhead hkey hm, error_bind]

/-- What `Load` makes of a file whose key lines all follow a section. -/
theorem load_spec {content : Str} (hhead : Headed (lines content)) :
    ∃ map, load (some content) = .ok (true, map) ∧
      (∀ sect, (map sect).isSome ↔ sect ∈ (lines content).filterMap isSection) ∧
      ∀ sect key, (map sect).bind (· key) =
        lastValue (assignments none (lines content)) sect key := by
  obtain ⟨t, ht, hloaded⟩ := loadLines_spec (lines content) (s := ⟨fun _ => none, none⟩)
    (fun _ h => by cases h) (.inr hhead)
  refine ⟨t.map, by rw [load, ht, ok_bind], fun sect => ?_, fun sect key => ?_⟩
  · simpa using hloaded.sections sect
  · have hvalue := hloaded.values sect key
    unfold Loading.inner at hvalue
    rw [Option.getD_none, Option.or_none] at hvalue
    rw [← hvalue]
    cases t.map sect <;> rfl

/-- **`Load` never uses `m` while it is `NULL`** exactly when the first line of the file
that is not skipped names a section. -/
theorem load_returns_iff (content : Str) :
    (∃ map, load (some content) = .ok (true, map)) ↔ Headed (lines content) := by
  constructor
  · rintro ⟨map, hmap⟩
    by_contra hhead
    rw [load, loadLines_null _ rfl hhead, error_bind] at hmap
    cases hmap
  · intro hhead
    obtain ⟨map, hmap, -⟩ := load_spec hhead
    exact ⟨map, hmap⟩

/-- A key before any section. -/
theorem load_null :
    ¬ ∀ content : Str, ∃ map, load (some content) = .ok (true, map) := by
  intro hall
  obtain ⟨map, hmap⟩ := hall (text "a=1")
  have hnull : (load (some (text "a=1"))).toOption.isSome = false := by decide
  rw [hmap] at hnull
  cases hnull

end EasyReactor.Config
