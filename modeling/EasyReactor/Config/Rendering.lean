import EasyReactor.Config.Load

set_option autoImplicit false

/-!
# Config: files as people write them

A `Rendering` is a file made of blocks: a section line, then key lines, with blank lines,
comments and padding anywhere.  The parts of a line are structures that carry what makes
them readable, so that every `Rendering` is well formed.  `Load` of its text is the map
that it renders.
-/

namespace EasyReactor.Config

open EasyReactor.Foundation

/-! ## The parts of a line -/

/-- Characters that `trim` takes off, all on one line. -/
structure Padding where
  str : Str
  space : ∀ c ∈ str, isspace c = true
  line : newline ∉ str

/-- A value: one line, without `isspace` characters at its ends. -/
structure Value where
  str : Str
  tidy : Tidy isspace str
  line : newline ∉ str

/-- The name of a section. -/
structure Name extends Value where
  ne_nil : str ≠ []

/-- A key. -/
structure Key extends Name where
  start : ∀ c ∈ str.head?, c ≠ '#'.toUInt8 ∧ c ≠ ';'.toUInt8 ∧ c ≠ '['.toUInt8
  noEqu : '='.toUInt8 ∉ str

/-- A line that says nothing. -/
inductive Remark where
  | blank (pad : Padding)
  | comment (left : Padding) (mark : UInt8) (rest : Str)
      (isMark : mark = '#'.toUInt8 ∨ mark = ';'.toUInt8) (line : newline ∉ rest)

def Remark.text : Remark → Str
  | .blank pad => pad.str
  | .comment left mark rest _ _ => left.str ++ mark :: rest

/-- `[name]` -/
structure Header where
  left : Padding
  before : Padding
  name : Name
  after : Padding
  right : Padding

def Header.text (h : Header) : Str :=
  h.left.str ++
    '['.toUInt8 :: (h.before.str ++ h.name.str ++ h.after.str ++ ']'.toUInt8 :: h.right.str)

/-- `key=value` -/
structure Entry where
  left : Padding
  key : Key
  before : Padding
  after : Padding
  value : Value
  right : Padding

def Entry.text (e : Entry) : Str :=
  e.left.str ++ e.key.str ++ e.before.str ++
    '='.toUInt8 :: (e.after.str ++ e.value.str ++ e.right.str)

/-! ## How `Load` reads a line -/

/-- Where a character is found behind a text without it. -/
theorem idxOf?_append {c : UInt8} {l : Str} (r : Str) (h : c ∉ l) :
    (l ++ r).idxOf? c = (r.idxOf? c).map (l.length + ·) := by
  have hl : l.findIdx? (· == c) = none := by
    rw [List.findIdx?_eq_none_iff]
    intro x hx
    rw [beq_eq_false_iff_ne]
    rintro rfl
    exact h hx
  simp only [List.idxOf?, List.findIdx?_append, hl, Option.none_or, Nat.add_comm]

theorem Padding.notMem (pad : Padding) {c : UInt8} (hc : isspace c = false) : c ∉ pad.str := by
  intro h
  rw [pad.space c h] at hc
  cases hc

/-- A line is a section only if it starts with a bracket. -/
theorem isSection_eq_none {line : Str} (h : (trim line).head? ≠ some '['.toUInt8) :
    isSection line = none := by
  unfold isSection
  simp only
  split
  · rfl
  · exact if_pos (.inl h)

theorem head?_trim_pad (left : Padding) {c : UInt8} (hc : isspace c = false) (rest : Str) :
    (trim (left.str ++ c :: rest)).head? = some c :=
  head?_trim left.space hc rest

theorem skipped_blank (pad : Padding) : skipped pad.str = true := by
  have hsect : isSection pad.str = none := by
    apply isSection_eq_none
    rw [trim_eq, trim_eq_nil pad.space]
    simp
  have hkey : keyValue pad.str = none := by
    unfold keyValue
    rw [List.idxOf?_eq_none_iff.mpr (pad.notMem (by decide))]
  rw [skipped, hsect, hkey]
  rfl

/-- What stands before the first `=` of a comment starts with the mark. -/
theorem skipped_comment (left : Padding) {mark : UInt8} (rest : Str)
    (hmark : mark = '#'.toUInt8 ∨ mark = ';'.toUInt8) :
    skipped (left.str ++ mark :: rest) = true := by
  have hspace : isspace mark = false := by
    rcases hmark with rfl | rfl <;> decide
  have hsect : isSection (left.str ++ mark :: rest) = none := by
    apply isSection_eq_none
    rw [head?_trim_pad left hspace]
    rcases hmark with rfl | rfl <;> decide
  have hequ : '='.toUInt8 ∉ left.str ++ [mark] := by
    rw [List.mem_append, List.mem_singleton, not_or]
    refine ⟨left.notMem (by decide), ?_⟩
    rcases hmark with rfl | rfl <;> decide
  have hkey : keyValue (left.str ++ mark :: rest) = none := by
    unfold keyValue
    rw [List.append_cons, idxOf?_append rest hequ]
    cases rest.idxOf? '='.toUInt8 with
    | none => rfl
    | some n =>
      simp only [Option.map_some]
      rw [List.take_length_add_append, ← List.append_cons]
      have hhead := head?_trim_pad left hspace (rest.take n)
      split
      · rfl
      · rename_i c key hc
        rw [hc] at hhead
        obtain rfl := Option.some.inj hhead
        exact if_pos hmark
  rw [skipped, hsect, hkey]
  rfl

theorem Remark.skipped : ∀ r : Remark, skipped r.text = true
  | .blank pad => skipped_blank pad
  | .comment left _ rest isMark _ => skipped_comment left rest isMark

/-- The middle of a text between two characters. -/
theorem take_drop_between (a b : UInt8) (mid : Str) :
    ((a :: (mid ++ [b])).drop 1).take ((a :: (mid ++ [b])).length - 2) = mid := by
  simp

theorem Header.isSection (h : Header) : isSection h.text = some h.name.str := by
  have hline : h.text = h.left.str ++
      ('['.toUInt8 :: (h.before.str ++ h.name.str ++ h.after.str ++ [']'.toUInt8])) ++
        h.right.str := by
    simp [Header.text]
  have htrim : trim h.text =
      '['.toUInt8 :: (h.before.str ++ h.name.str ++ h.after.str ++ [']'.toUInt8]) := by
    rw [hline, trim_eq]
    apply trim_padded h.left.space h.right.space
    constructor
    · intro c hc
      obtain rfl := Option.some.inj hc
      decide
    · intro c hc
      rw [← List.cons_append, List.getLast?_concat] at hc
      obtain rfl := Option.some.inj hc
      decide
  have hlen : 0 < h.name.str.length := List.length_pos_of_ne_nil h.name.ne_nil
  unfold Config.isSection
  simp only [htrim]
  rw [if_neg, if_neg, take_drop_between, trim_eq,
    trim_padded h.before.space h.after.space h.name.tidy]
  · rw [← List.cons_append, List.getLast?_concat]
    simp
  · simp only [List.length_cons, List.length_append, reduceCtorEq, false_or]
    omega

theorem Entry.key_cons (e : Entry) : ∃ c rest, e.key.str = c :: rest ∧ isspace c = false ∧
    c ≠ '#'.toUInt8 ∧ c ≠ ';'.toUInt8 ∧ c ≠ '['.toUInt8 := by
  cases hkey : e.key.str with
  | nil => exact absurd hkey e.key.ne_nil
  | cons c rest =>
    have hhead : c ∈ e.key.str.head? := by rw [hkey]; rfl
    exact ⟨c, rest, rfl, e.key.tidy.head c hhead, e.key.start c hhead⟩

theorem Entry.isSection (e : Entry) : Config.isSection e.text = none := by
  obtain ⟨c, rest, hkey, hspace, -, -, hbracket⟩ := e.key_cons
  apply isSection_eq_none
  rw [Entry.text, hkey, List.append_assoc, List.append_assoc, List.cons_append,
    head?_trim_pad e.left hspace]
  exact fun h => hbracket (Option.some.inj h)

theorem Entry.keyValue (e : Entry) : keyValue e.text = some (e.key.str, e.value.str) := by
  have hequ : '='.toUInt8 ∉ e.left.str ++ e.key.str ++ e.before.str := by
    rw [List.mem_append, List.mem_append, not_or, not_or]
    exact ⟨⟨e.left.notMem (by decide), e.key.noEqu⟩, e.before.notMem (by decide)⟩
  have hkey : trim (e.left.str ++ e.key.str ++ e.before.str) = e.key.str :=
    trim_padded e.left.space e.before.space e.key.tidy
  have hvalue : trim (e.after.str ++ e.value.str ++ e.right.str) = e.value.str :=
    trim_padded e.after.space e.right.space e.value.tidy
  obtain ⟨c, rest, hcons, -, hhash, hsemi, -⟩ := e.key_cons
  unfold Config.keyValue
  rw [Entry.text, idxOf?_append _ hequ, List.idxOf?_cons, if_pos (by simp)]
  simp only [Option.map_some, Nat.add_zero, List.take_left']
  rw [hkey, List.drop_length_add_append, List.drop_succ_cons, List.drop_zero]
  rw [hvalue]
  split
  · rename_i hnil
    exact absurd hnil e.key.ne_nil
  · rename_i c' rest' hc'
    obtain ⟨rfl, -⟩ := List.cons.inj (hcons.symm.trans hc')
    exact if_neg (not_or.mpr ⟨hhash, hsemi⟩)

/-! ## The file -/

/-- A line below a section line. -/
inductive Item where
  | remark (r : Remark)
  | entry (e : Entry)

def Item.text : Item → Str
  | .remark r => r.text
  | .entry e => e.text

/-- The key and the value of a line. -/
def Item.keyValue : Item → Option (Str × Str)
  | .remark _ => none
  | .entry e => some (e.key.str, e.value.str)

/-- A section line and the lines below it. -/
structure Block where
  header : Header
  items : List Item

namespace Block

def name (b : Block) : Str := b.header.name.str

def lines (b : Block) : List Str := b.header.text :: b.items.map Item.text

/-- What the block assigns. -/
def assigns (b : Block) : List Assignment :=
  (b.items.filterMap Item.keyValue).map fun kv => (b.name, kv)

end Block

/-- A file: remarks, then blocks; a section may have several. -/
structure Rendering where
  top : List Remark
  blocks : List Block

namespace Rendering

def lines (r : Rendering) : List Str :=
  r.top.map Remark.text ++ r.blocks.flatMap Block.lines

/-- The lines with newlines between them; a newline at the end is an empty last line. -/
def text (r : Rendering) : Str := [newline].intercalate r.lines

/-- The rendering has the sections of `map`, and assigns what `map` holds. -/
structure Renders (r : Rendering) (map : StrMap (StrMap Str)) : Prop where
  sections : ∀ sect, (map sect).isSome ↔ sect ∈ r.blocks.map Block.name
  values : ∀ sect key value,
    (sect, key, value) ∈ r.blocks.flatMap Block.assigns ↔
      (map sect).bind (· key) = some value

end Rendering

/-! ## Lines read back -/

theorem lines_of_notMem {l : Str} (h : newline ∉ l) : lines l = [l] := by
  induction l with
  | nil => rfl
  | cons c l ih =>
    obtain ⟨hc, hl⟩ := List.ne_and_not_mem_of_not_mem_cons h
    rw [lines, if_neg hc.symm, ih hl]
    rfl

theorem lines_append_newline {l : Str} (h : newline ∉ l) (rest : Str) :
    lines (l ++ newline :: rest) = l :: lines rest := by
  induction l with
  | nil =>
    rw [List.nil_append, lines, if_pos rfl]
  | cons c l ih =>
    obtain ⟨hc, hl⟩ := List.ne_and_not_mem_of_not_mem_cons h
    rw [List.cons_append, lines, if_neg hc.symm, ih hl]
    rfl

theorem lines_intercalate : ∀ {ls : List Str}, ls ≠ [] → (∀ l ∈ ls, newline ∉ l) →
    lines ([newline].intercalate ls) = ls := by
  intro ls
  induction ls with
  | nil => exact fun h => absurd rfl h
  | cons l ls ih =>
    intro _ hall
    have hl : newline ∉ l := hall l List.mem_cons_self
    cases ls with
    | nil => rw [List.intercalate_singleton, lines_of_notMem hl]
    | cons l' ls =>
      rw [List.intercalate_cons_cons, List.append_assoc, List.singleton_append,
        lines_append_newline hl, ih (List.cons_ne_nil _ _)]
      exact fun x hx => hall x (List.mem_cons_of_mem _ hx)

theorem Remark.oneLine : ∀ r : Remark, newline ∉ r.text
  | .blank pad => pad.line
  | .comment left mark rest isMark line => by
    have hmark : newline ≠ mark := by
      rcases isMark with rfl | rfl <;> decide
    simp [Remark.text, left.line, hmark, line]

theorem Header.oneLine (h : Header) : newline ∉ h.text := by
  have hopen : newline ≠ '['.toUInt8 := by decide
  have hclose : newline ≠ ']'.toUInt8 := by decide
  simp [Header.text, h.left.line, h.before.line, h.name.line, h.after.line, h.right.line,
    hopen, hclose]

theorem Entry.oneLine (e : Entry) : newline ∉ e.text := by
  have hequ : newline ≠ '='.toUInt8 := by decide
  simp [Entry.text, e.left.line, e.key.line, e.before.line, e.after.line, e.value.line,
    e.right.line, hequ]

theorem Item.oneLine : ∀ i : Item, newline ∉ i.text
  | .remark r => r.oneLine
  | .entry e => e.oneLine

theorem Rendering.oneLine (r : Rendering) : ∀ l ∈ r.lines, newline ∉ l := by
  intro l hl
  rcases List.mem_append.mp hl with htop | hblocks
  · obtain ⟨remark, -, rfl⟩ := List.mem_map.mp htop
    exact remark.oneLine
  · obtain ⟨b, -, hb⟩ := List.mem_flatMap.mp hblocks
    rcases List.mem_cons.mp hb with rfl | hitem
    · exact b.header.oneLine
    · obtain ⟨item, -, rfl⟩ := List.mem_map.mp hitem
      exact item.oneLine

/-! ## What `Load` makes of the lines -/

theorem lineAssignment_skipped {line : Str} (m : Option Str) (h : skipped line = true) :
    lineAssignment m line = [] ∧ current m line = m := by
  obtain ⟨hsect, hkey⟩ := Bool.and_eq_true_iff.mp h
  rw [Option.isNone_iff_eq_none] at hsect hkey
  unfold lineAssignment current
  rw [hsect, hkey]
  cases m <;> exact ⟨rfl, rfl⟩

theorem assignments_remarks (m : Option Str) (rest : List Str) :
    ∀ rs : List Remark, assignments m (rs.map Remark.text ++ rest) = assignments m rest := by
  intro rs
  induction rs with
  | nil => rfl
  | cons r rs ih =>
    obtain ⟨hnone, hsame⟩ := lineAssignment_skipped m r.skipped
    rw [List.map_cons, List.cons_append, assignments, hnone, hsame, ih, List.nil_append]

theorem assignments_items (sect : Str) (rest : List Str) :
    ∀ is : List Item, assignments (some sect) (is.map Item.text ++ rest) =
      (is.filterMap Item.keyValue).map (fun kv => (sect, kv)) ++
        assignments (some sect) rest := by
  intro is
  induction is with
  | nil => rfl
  | cons i is ih =>
    rw [List.map_cons, List.cons_append, assignments]
    cases i with
    | remark r =>
      obtain ⟨hnone, hsame⟩ := lineAssignment_skipped (some sect) r.skipped
      rw [Item.text, hnone, hsame, ih, List.nil_append]
      rfl
    | entry e =>
      have hline : lineAssignment (some sect) e.text = [(sect, e.key.str, e.value.str)] := by
        unfold lineAssignment
        rw [e.isSection, e.keyValue]
      have hsame : current (some sect) e.text = some sect := by
        rw [current, e.isSection]
        rfl
      rw [Item.text, hline, hsame, ih]
      rfl

theorem assignments_blocks : ∀ (bs : List Block) (m : Option Str),
    assignments m (bs.flatMap Block.lines) = bs.flatMap Block.assigns := by
  intro bs
  induction bs with
  | nil => exact fun _ => rfl
  | cons b bs ih =>
    intro m
    have hline : lineAssignment m b.header.text = [] := by
      unfold lineAssignment
      rw [b.header.isSection]
    have hsect : current m b.header.text = some b.name := by
      rw [current, b.header.isSection]
      rfl
    rw [List.flatMap_cons, List.flatMap_cons, Block.lines, List.cons_append, assignments, hline,
      hsect, List.nil_append, assignments_items, ih]
    rfl

theorem Rendering.assignments (r : Rendering) :
    assignments none r.lines = r.blocks.flatMap Block.assigns := by
  rw [Rendering.lines, assignments_remarks, assignments_blocks]

theorem isSection_of_skipped {line : Str} (h : Config.skipped line = true) :
    isSection line = none :=
  Option.isNone_iff_eq_none.mp (Bool.and_eq_true_iff.mp h).1

theorem Item.isSection : ∀ i : Item, Config.isSection i.text = none
  | .remark r => isSection_of_skipped r.skipped
  | .entry e => e.isSection

theorem Block.sections (b : Block) : b.lines.filterMap isSection = [b.name] := by
  have hitems : (b.items.map Item.text).filterMap isSection = [] := by
    rw [List.filterMap_eq_nil_iff]
    intro l hl
    obtain ⟨item, -, rfl⟩ := List.mem_map.mp hl
    exact item.isSection
  rw [Block.lines, List.filterMap_cons_some b.header.isSection, hitems]
  rfl

theorem Rendering.sections (r : Rendering) :
    r.lines.filterMap isSection = r.blocks.map Block.name := by
  have htop : (r.top.map Remark.text).filterMap isSection = [] := by
    rw [List.filterMap_eq_nil_iff]
    intro l hl
    obtain ⟨remark, -, rfl⟩ := List.mem_map.mp hl
    exact isSection_of_skipped remark.skipped
  rw [Rendering.lines, List.filterMap_append, htop, List.nil_append]
  induction r.blocks with
  | nil => rfl
  | cons b bs ih =>
    rw [List.flatMap_cons, List.filterMap_append, b.sections, ih]
    rfl

theorem Rendering.headed (r : Rendering) : Headed r.lines := by
  unfold Rendering.lines
  induction r.top with
  | nil =>
    cases r.blocks with
    | nil => exact fun _ h => by cases h
    | cons b bs =>
      have hskip : Config.skipped b.header.text = false := by
        rw [Config.skipped, b.header.isSection]
        rfl
      rw [List.map_nil, List.nil_append, List.flatMap_cons, Block.lines, List.cons_append,
        headed_cons hskip, b.header.isSection]
      rfl
  | cons remark top ih => exact (headed_skipped remark.skipped).mpr ih

/-! ## The round trip -/

theorem Rendering.Renders.loaded {r : Rendering} {map loaded : StrMap (StrMap Str)}
    (h : r.Renders map)
    (hsections : ∀ sect, (loaded sect).isSome ↔ sect ∈ r.blocks.map Block.name)
    (hvalues : ∀ sect key, (loaded sect).bind (· key) =
      lastValue (r.blocks.flatMap Block.assigns) sect key) : loaded = map := by
  funext sect
  have hsome : (loaded sect).isSome ↔ (map sect).isSome :=
    (hsections sect).trans (h.sections sect).symm
  have hvalue : ∀ key, (loaded sect).bind (· key) = (map sect).bind (· key) := by
    intro key
    rw [hvalues]
    cases hmap : (map sect).bind (· key) with
    | none =>
      cases hlast : lastValue (r.blocks.flatMap Block.assigns) sect key with
      | none => rfl
      | some value =>
        have hnone := (h.values sect key value).mp (mem_of_lastValue hlast)
        rw [hmap] at hnone
        cases hnone
    | some value =>
      obtain ⟨v, hv⟩ := lastValue_of_mem ((h.values sect key value).mpr hmap)
      have hv' := (h.values sect key v).mp (mem_of_lastValue hv)
      rw [hv, ← hv', hmap]
  cases hl : loaded sect with
  | none =>
    rw [hl] at hsome
    cases hm : map sect with
    | none => rfl
    | some inner => simp [hm] at hsome
  | some inner =>
    rw [hl] at hsome hvalue
    cases hm : map sect with
    | none => simp [hm] at hsome
    | some inner' =>
      rw [hm] at hvalue
      exact congrArg some (funext hvalue)

theorem Rendering.lines_text (r : Rendering) :
    Headed (Config.lines r.text) ∧
      (Config.lines r.text).filterMap Config.isSection = r.blocks.map Block.name ∧
      Config.assignments none (Config.lines r.text) = r.blocks.flatMap Block.assigns := by
  rw [← r.sections, ← r.assignments]
  by_cases hnil : r.lines = []
  · -- no line at all is read as one that is empty
    rw [text, hnil]
    decide
  · rw [text, lines_intercalate hnil r.oneLine]
    exact ⟨r.headed, rfl, rfl⟩

/-- **`Load` undoes rendering.**  Whatever the order of sections and keys, the blocks, the
padding, the blank lines and the comments, `Load` gets the map back that was rendered, and
`GetString` finds its values and nothing else. -/
theorem load_rendering (map : StrMap (StrMap Str)) (r : Rendering) (h : r.Renders map) :
    load (some r.text) = .ok (true, map) ∧
      ∀ sect key default,
        getString map sect key default = ((map sect).bind (· key)).getD default := by
  obtain ⟨hheaded, hsections, hassignments⟩ := r.lines_text
  obtain ⟨loaded, hload, hsects, hvalues⟩ := load_spec hheaded
  rw [hsections] at hsects
  rw [hassignments] at hvalues
  rw [h.loaded hsects hvalues] at hload
  exact ⟨hload, getString_eq map⟩

/-- One blank. -/
def blank : Padding := ⟨text " ", by decide +kernel, by decide⟩

/-- A comment, then ` [ a ] ` and ` k = [=] `. -/
def sample : Rendering where
  top := [.comment blank '#'.toUInt8 (text "a=b") (.inl rfl) (by decide)]
  blocks := [
    { header := ⟨blank, blank, ⟨⟨text "a", by decide, by decide⟩, by decide⟩, blank, blank⟩
      items := [.entry
        { left := blank
          key := ⟨⟨⟨text "k", by decide, by decide⟩, by decide⟩, by decide +kernel, by decide⟩
          before := blank
          after := blank
          value := ⟨text "[=]", by decide, by decide⟩
          right := blank }] }]

/-- The map that `sample` renders. -/
def sampleMap : StrMap (StrMap Str) :=
  StrMap.set (fun _ => none) (text "a") (StrMap.set (fun _ => none) (text "k") (text "[=]"))

theorem sample_renders : sample.Renders sampleMap where
  sections sect := by
    show (sampleMap sect).isSome ↔ sect ∈ [text "a"]
    unfold sampleMap
    by_cases hsect : sect = text "a"
    · simp [hsect]
    · simp [StrMap.set_ne _ _ hsect, hsect]
  values sect key value := by
    show (sect, key, value) ∈ [(text "a", text "k", text "[=]")] ↔ _
    unfold sampleMap
    by_cases hsect : sect = text "a"
    · by_cases hkey : key = text "k"
      · simp [hsect, hkey, eq_comm]
      · simp [hsect, StrMap.set_ne _ _ hkey, hkey]
    · simp [StrMap.set_ne _ _ hsect, hsect]

theorem load_rendering_sample :
    load (some sample.text) = .ok (true, sampleMap) ∧
      ∀ sect key default, getString sampleMap sect key default =
        ((sampleMap sect).bind (· key)).getD default :=
  load_rendering sampleMap sample sample_renders

end EasyReactor.Config
