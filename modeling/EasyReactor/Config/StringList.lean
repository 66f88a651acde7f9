import EasyReactor.Config.Reader
import EasyReactor.Foundation.Tokens

set_option autoImplicit false

/-!
# Config: `GetStringList`

The loop looks for the next separator, keeps what stands before it, and skips separators.
What it keeps after that is never empty.  The first element is kept before any separator is
skipped: it is empty when the value is, or begins with a separator.
-/

namespace EasyReactor.Config

open EasyReactor.Foundation

variable {str : Str} {pos i : Nat}

/-- What a search in the rest of a string finds. -/
theorem findIdx?_drop {p : UInt8 → Bool} (h : (str.drop pos).findIdx? p = some i) :
    ∃ c, str[pos + i]? = some c ∧ p c = true := by
  obtain ⟨hlt, hp, -⟩ := List.findIdx?_eq_some_iff_getElem.mp h
  exact ⟨_, by rw [← List.getElem?_drop, List.getElem?_eq_getElem hlt], hp⟩

theorem findFirstOf_spec {index : Nat} (h : findFirstOf str pos = some index) :
    pos ≤ index ∧ ∃ c, str[index]? = some c ∧ isSep c = true := by
  obtain ⟨i, hi, rfl⟩ := Option.map_eq_some_iff.mp h
  exact ⟨Nat.le_add_right pos i, findIdx?_drop hi⟩

theorem findFirstNotOf_spec {start : Nat} (h : findFirstNotOf str pos = some start) :
    pos ≤ start ∧ ∃ c, str[start]? = some c ∧ isSep c = false := by
  obtain ⟨i, hi, rfl⟩ := Option.map_eq_some_iff.mp h
  obtain ⟨c, hc, hsep⟩ := findIdx?_drop hi
  exact ⟨Nat.le_add_right pos i, c, hc, by simpa using hsep⟩

/-- Each turn of the loop gets further. -/
theorem find_advances {start index next : Nat} (hindex : findFirstOf str start = some index)
    (hnext : findFirstNotOf str index = some next) : start < next ∧ next < str.length := by
  obtain ⟨hle, c, hc, hsep⟩ := findFirstOf_spec hindex
  obtain ⟨hle', d, hd, hfree⟩ := findFirstNotOf_spec hnext
  have hne : index ≠ next := by
    rintro rfl
    obtain rfl := Option.some.inj (hc.symm.trans hd)
    rw [hsep] at hfree
    cases hfree
  exact ⟨by omega, List.getElem?_eq_some_iff.mp hd |>.1⟩

/-- The loop of `GetStringList`, from `start` on and with `v` pushed before. -/
def getStringListLoop (str : Str) (start : Nat) (v : List Str) : List Str :=
  match hindex : findFirstOf str start with
  | none => v ++ [str.drop start]
  | some index =>
    let v := v ++ [(str.drop start).take (index - start)]
    match hnext : findFirstNotOf str index with
    | none => v
    | some next =>
      have := find_advances hindex hnext
      getStringListLoop str next v
  termination_by str.length - start

/-- `config_reader::GetStringList` -/
def getStringList (map : StrMap (StrMap Str)) (sect key : Str) : List Str :=
  getStringListLoop (getString map sect key []) 0 []

/-! ## The searches -/

/-- Up to the separator that `find_first_of` finds there is none. -/
theorem findFirstOf_run {index : Nat} (h : findFirstOf str pos = some index) :
    (str.drop pos).takeWhile (fun c => !isSep c) = (str.drop pos).take (index - pos) ∧
      (str.drop pos).dropWhile (fun c => !isSep c) = str.drop index := by
  obtain ⟨i, hi, rfl⟩ := Option.map_eq_some_iff.mp h
  obtain ⟨-, hfind⟩ := List.findIdx?_eq_some_iff_findIdx_eq.mp hi
  rw [List.takeWhile_eq_take_findIdx_not, List.dropWhile_eq_drop_findIdx_not,
    List.drop_drop, Nat.add_sub_cancel_left]
  simp only [Bool.not_not]
  rw [hfind]
  exact ⟨rfl, rfl⟩

theorem findFirstOf_none (h : findFirstOf str pos = none) :
    (str.drop pos).takeWhile (fun c => !isSep c) = str.drop pos ∧
      (str.drop pos).dropWhile (fun c => !isSep c) = [] := by
  have hfree := List.findIdx?_eq_none_iff.mp (Option.map_eq_none_iff.mp h)
  have hall : ∀ c ∈ str.drop pos, (!isSep c) = true := by
    intro c hc
    rw [hfree c hc]
    rfl
  exact ⟨List.takeWhile_eq_self_iff.mpr hall, List.dropWhile_eq_nil_iff.mpr hall⟩

/-- What `find_first_not_of` skips gives no token. -/
theorem findFirstNotOf_skips {start : Nat} (h : findFirstNotOf str pos = some start) :
    tokens isSep (str.drop pos) = tokens isSep (str.drop start) := by
  obtain ⟨i, hi, rfl⟩ := Option.map_eq_some_iff.mp h
  obtain ⟨-, hfind⟩ := List.findIdx?_eq_some_iff_findIdx_eq.mp hi
  have hrest : (str.drop pos).dropWhile isSep = str.drop (pos + i) := by
    rw [List.dropWhile_eq_drop_findIdx_not, hfind, List.drop_drop]
  rw [← List.takeWhile_append_dropWhile (p := isSep) (l := str.drop pos), hrest]
  exact tokens_append_seps fun c hc => List.mem_takeWhile_imp hc

theorem findFirstNotOf_none (h : findFirstNotOf str pos = none) :
    tokens isSep (str.drop pos) = [] := by
  have hall := List.findIdx?_eq_none_iff.mp (Option.map_eq_none_iff.mp h)
  exact tokens_seps fun c hc => by simpa using hall c hc

/-! ## The loop -/

/-- The loop keeps what stands before the next separator, and then every token. -/
theorem getStringListLoop_eq (str : Str) (start : Nat) (v : List Str) :
    getStringListLoop str start v =
      v ++ (str.drop start).takeWhile (fun c => !isSep c) ::
        tokens isSep ((str.drop start).dropWhile fun c => !isSep c) := by
  fun_induction getStringListLoop str start v with
  | case1 start v hindex =>
    obtain ⟨htake, hdrop⟩ := findFirstOf_none hindex
    rw [htake, hdrop]
    rfl
  | case2 start v index hindex v' hnext =>
    obtain ⟨htake, hdrop⟩ := findFirstOf_run hindex
    rw [htake, hdrop, findFirstNotOf_none hnext]
  | case3 start v index hindex v' next hnext hadvance ih =>
    obtain ⟨htake, hdrop⟩ := findFirstOf_run hindex
    obtain ⟨-, c, hc, hfree⟩ := findFirstNotOf_spec hnext
    have hhead : str.drop next = c :: str.drop (next + 1) := by
      rw [List.drop_eq_getElem?_toList_append, hc]
      rfl
    rw [ih, htake, hdrop, findFirstNotOf_skips hnext, hhead, ← tokens_of_head hfree,
      List.append_assoc]
    rfl

theorem getStringList_eq (map : StrMap (StrMap Str)) (sect key : Str) :
    getStringList map sect key = (getString map sect key []).takeWhile (fun c => !isSep c) ::
      tokens isSep ((getString map sect key []).dropWhile fun c => !isSep c) := by
  unfold getStringList
  rw [getStringListLoop_eq, List.drop_zero, List.nil_append]

/-- **`GetStringList` cuts the value into its tokens**, however they are written down,
exactly if the value is not empty and does not begin with a separator. -/
theorem getStringList_tokens_iff (map : StrMap (StrMap Str)) (sect key : Str) :
    (getStringList map sect key = tokens isSep (getString map sect key []) ∧
        ∀ ts, Spells isSep ts (getString map sect key []) → getStringList map sect key = ts) ↔
      ∃ c ∈ (getString map sect key []).head?, isSep c = false := by
  have hall : (getStringList map sect key = tokens isSep (getString map sect key []) ∧
        ∀ ts, Spells isSep ts (getString map sect key []) → getStringList map sect key = ts) ↔
      getStringList map sect key = tokens isSep (getString map sect key []) := by
    constructor
    · intro h
      exact h.1
    · intro h
      exact ⟨h, fun ts hts => h.trans (tokens_eq_iff.mpr hts)⟩
  rw [hall, getStringList_eq]
  cases getString map sect key [] with
  | nil =>
    constructor
    · intro h
      cases h
    · rintro ⟨c, hc, -⟩
      cases hc
  | cons c l =>
    constructor
    · intro h
      refine ⟨c, rfl, ?_⟩
      by_contra hsep
      rw [Bool.not_eq_false] at hsep
      have hempty : ([] : Str) ∈ tokens isSep (c :: l) := by
        rw [← h, List.takeWhile_cons_of_neg (by simp [hsep])]
        exact List.mem_cons_self
      exact ne_nil_of_mem_tokens hempty rfl
    · rintro ⟨c', hc, hfree⟩
      obtain rfl := Option.some.inj hc
      exact (tokens_of_head hfree).symm

/-- A key that is missing has no tokens. -/
theorem getStringList_missing :
    ¬ ∀ (map : StrMap (StrMap Str)) (sect key : Str),
        getStringList map sect key = tokens isSep (getString map sect key []) := by
  intro hall
  have h := hall (fun _ => none) (text "reactor") (text "hosts")
  rw [getStringList_eq] at h
  cases h

end EasyReactor.Config
