import EasyReactor.Foundation.Outcome
import EasyReactor.Foundation.Trim
import EasyReactor.Machine
import Mathlib.Logic.Function.Basic

set_option autoImplicit false

/-!
# Config: `config_reader.cc`

`Load` reads a file line by line into a map of maps, with a pointer `m` to the inner map
of the section it is in.  A `std::string` is the list of its bytes and a `std::map` is a
partial function.  Inner maps are never removed while `Load` runs, so that `m` is known by
the name of its section.
-/

namespace EasyReactor.Config

open EasyReactor.Foundation

/-- `std::string` -/
abbrev Str := List UInt8

/-- `std::map<std::string, β>` -/
abbrev StrMap (β : Type) := Str → Option β

/-- The text that a string literal spells. -/
def text (s : String) : Str := s.toList.map Char.toUInt8

def newline : UInt8 := '\n'.toUInt8

/-- `isspace`, in the locale of a program that sets none. -/
def isspace (c : UInt8) : Bool := c == 32 || (9 ≤ c && c ≤ 13)

/-- `std::map::insert` of a new key, and the assignment through `find` of an old one. -/
def StrMap.set {β : Type} (m : StrMap β) (key : Str) (value : β) : StrMap β :=
  Function.update m key (some value)

@[simp] theorem StrMap.set_self {β : Type} (m : StrMap β) (key : Str) (value : β) :
    m.set key value key = some value := Function.update_self ..

theorem StrMap.set_ne {β : Type} (m : StrMap β) {key k : Str} (value : β) (h : k ≠ key) :
    m.set key value k = m k := Function.update_of_ne h ..

/-! ## One line -/

/-- `config_reader::trimLeft` -/
def trimLeft (s : Str) : Str := s.dropWhile isspace

/-- `config_reader::trimRight` -/
def trimRight (s : Str) : Str := s.rdropWhile isspace

/-- `config_reader::trim` -/
def trim (s : Str) : Str := trimLeft (trimRight s)

theorem trim_eq (s : Str) : trim s = Foundation.trim isspace s := rfl

/-- `config_reader::isSection`: the name of the section, if it returns `true`. -/
def isSection (line : Str) : Option Str :=
  let sect := trim line
  if sect = [] ∨ sect.length ≤ 2 then none
  else if sect.head? ≠ some '['.toUInt8 ∨ sect.getLast? ≠ some ']'.toUInt8 then none
  else some (trim ((sect.drop 1).take (sect.length - 2)))

/-- What `Load` makes of a line that is no section: a key and its value, or nothing. -/
def keyValue (line : Str) : Option (Str × Str) :=
  match line.idxOf? '='.toUInt8 with
  | none => none
  | some equPos =>
    let key := trim (line.take equPos)
    let value := trim (line.drop (equPos + 1))
    match key with
    | [] => none
    | c :: _ =>
      -- skip comment
      if c = '#'.toUInt8 ∨ c = ';'.toUInt8 then none
      else some (key, value)

/-! ## `Load` -/

/-- `_map` and `m`: the section whose inner map `m` points to, `none` for `NULL`. -/
structure Loading where
  map : StrMap (StrMap Str)
  m : Option Str

/-- The inner map of a section. -/
def Loading.inner (s : Loading) (sect : Str) : StrMap Str := (s.map sect).getD fun _ => none

@[simp] theorem Loading.inner_set_self (map : StrMap (StrMap Str)) (sect : Str)
    (inner : StrMap Str) (m : Option Str) :
    Loading.inner ⟨map.set sect inner, m⟩ sect = inner := by
  simp [Loading.inner]

theorem Loading.inner_set_ne (map : StrMap (StrMap Str)) {sect x : Str} (inner : StrMap Str)
    (m : Option Str) (h : x ≠ sect) :
    Loading.inner ⟨map.set sect inner, m⟩ x = Loading.inner ⟨map, m⟩ x := by
  simp [Loading.inner, StrMap.set_ne _ _ h]

/-- One turn of the loop of `Load`, for the line that `getline` has read. -/
def loadLine (s : Loading) (line : Str) : Except Fault Loading :=
  match isSection line with
  | some sect =>
    match s.map sect with
    | none => .ok ⟨s.map.set sect fun _ => none, some sect⟩
    | some _ => .ok { s with m := some sect }
  | none =>
    match keyValue line with
    | none => .ok s
    | some (key, value) =>
      match s.m with
      | none => .error .undefined
      | some sect => .ok { s with map := s.map.set sect ((s.inner sect).set key value) }

/-- What `getline` reads until `ifs.eof()`. -/
def lines : Str → List Str
  | [] => [[]]
  | c :: cs => if c = newline then [] :: lines cs else (lines cs).modifyHead (c :: ·)

/-- `config_reader::Load` on a new `config_reader`: what it returns, and `_map`.  There is
no text when the file cannot be opened. -/
def load : Option Str → Except Fault (Bool × StrMap (StrMap Str))
  | none => .ok (false, fun _ => none)
  | some content => do
    let s ← (lines content).foldlM loadLine ⟨fun _ => none, none⟩
    .ok (true, s.map)

/-! ## The getters -/

/-- `config_reader::GetString` -/
def getString (map : StrMap (StrMap Str)) (sect key default : Str) : Str :=
  match map sect with
  | none => default
  | some inner =>
    match inner key with
    | none => default
    | some value => value

theorem getString_eq (map : StrMap (StrMap Str)) (sect key default : Str) :
    getString map sect key default = ((map sect).bind (· key)).getD default := by
  unfold getString
  cases map sect with
  | none => rfl
  | some inner => cases hkey : inner key <;> simp [hkey]

/-- `isdigit` -/
def isdigit (c : UInt8) : Bool := 48 ≤ c && c ≤ 57

/-- What `iss >> v` reads into a `long long`: the nearest one, if the number is none. -/
def readLongLong (s : Str) : Int :=
  let s := s.dropWhile isspace
  let negative : Bool := s.head? = some '-'.toUInt8
  let signed : Bool := negative || s.head? = some '+'.toUInt8
  let digits := (if signed then s.drop 1 else s).takeWhile isdigit
  let v : Int := digits.foldl (fun v c => 10 * v + (c.toNat - 48)) 0
  if negative then max (-v) (-9223372036854775808) else min v 9223372036854775807

/-- `config_reader::parseNumber` -/
def parseNumber (s : Str) : UInt32 := UInt32.ofInt (readLongLong s)

/-- `config_reader::GetNumber` -/
def getNumber (map : StrMap (StrMap Str)) (sect key : Str) (default : UInt32) : UInt32 :=
  match map sect with
  | none => default
  | some inner =>
    match inner key with
    | none => default
    | some value => parseNumber value

/-- `tolower`, in the locale of a program that sets none. -/
def tolower (c : UInt8) : UInt8 := if 65 ≤ c && c ≤ 90 then c + 32 else c

/-- `strcasecmp` of what `c_str` returns: a string ends at its first NUL. -/
def strcasecmp : Str → Str → Int
  | [], [] => 0
  | [], d :: _ => -(tolower d).toNat
  | c :: _, [] => (tolower c).toNat
  | c :: cs, d :: ds =>
    if tolower c ≠ tolower d then (tolower c).toNat - (tolower d).toNat
    else if c = 0 then 0
    else strcasecmp cs ds

/-- `config_reader::GetBool` -/
def getBool (map : StrMap (StrMap Str)) (sect key : Str) (default : Bool) : Bool :=
  match map sect with
  | none => default
  | some inner =>
    match inner key with
    | none => default
    | some value => if strcasecmp value (text "true") = 0 then true else default

/-- `sep`: `", \t"` -/
def isSep (c : UInt8) : Bool := c == ','.toUInt8 || c == ' '.toUInt8 || c == '\t'.toUInt8

/-- `str.find_first_of(sep, pos)` -/
def findFirstOf (str : Str) (pos : Nat) : Option Nat :=
  ((str.drop pos).findIdx? isSep).map (pos + ·)

/-- `str.find_first_not_of(sep, pos)` -/
def findFirstNotOf (str : Str) (pos : Nat) : Option Nat :=
  ((str.drop pos).findIdx? fun c => !isSep c).map (pos + ·)

end EasyReactor.Config
