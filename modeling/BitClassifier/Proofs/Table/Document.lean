import BitClassifier.Proofs.Table.Spelling
import BitClassifier.Table.Reader

/-!
# Documents

A `Document` is a data file as it is written: single values on a line of their own, ranges on two
lines, and anywhere, also between the two lines of a range, lines that hold no record. Reading it
gives its items back in the order of the file and reports its malformed lines and the ranges that
are closed by another record than expected (`Document.read_back`). Every list of well-formed items
has a document (`exists_document`).
-/

namespace BitClassifier

open Record (Spelling isBlank comment exists_spelling ofChars_eq opensRange_iff
  opensRange_eq_false_iff closesRange_iff)

/-- What a data file says of one value, or of all values from `first` to `last`. -/
inductive Item where
  | single (code : CodeValue) (name category : String)
  | range (first last : CodeValue) (opening closing category : String)

namespace Item

/-- The values of an item in ascending order. -/
def values : Item → List CodeValue
  | single code .. => [code]
  | range first last .. =>
    (List.range' first.toNat (last.toNat + 1 - first.toNat)).map (BitVec.ofNat 32)

def category : Item → String
  | single _ _ category => category
  | range _ _ _ _ category => category

end Item

/-- A line that holds no record. -/
inductive Noise where
  /-- Blanks and perhaps a comment. -/
  | quiet (blanks : List Char) (remark : Option (List Char))
    (hblanks : blanks.all isBlank = true)
  /-- Anything else that spells no record. -/
  | malformed (blanks : List Char) (c : Char) (text : List Char)
    (hblanks : blanks.all isBlank = true) (hblank : isBlank c = false) (hsign : c ≠ '#')
    (spellsNothing : ∀ s : Spelling, s.line ≠ blanks ++ c :: text)

namespace Noise

/-- The characters of the line. -/
def line : Noise → List Char
  | quiet blanks remark _ => blanks ++ comment remark
  | malformed blanks c text .. => blanks ++ c :: text

/-- What is reported about rows of such lines, where `number` is the number of the first one. -/
def warnings (number : Nat) : List Noise → List Event
  | [] => []
  | quiet .. :: rest => warnings (number + 1) rest
  | malformed _ c text .. :: rest =>
    .lineSkipped number (String.ofList (c :: text)) :: warnings (number + 1) rest

end Noise

/-- A part of a data file. -/
inductive Entry where
  | noise (n : Noise)
  | single (s : Spelling) (hcode : s.record.code < UInt32.size)
    (hname : ¬"First>".toList <:+ s.record.name.toList)
  | range (opening : Spelling) (between : List Noise) (closing : Spelling)
    (hfirst : opening.record.code < UInt32.size) (hlast : closing.record.code < UInt32.size)
    (hname : "First>".toList <:+ opening.record.name.toList)
    (ordered : opening.record.code ≤ closing.record.code)

namespace Entry

/-- The item that is written down, if there is one. -/
def item? : Entry → Option Item
  | noise _ => none
  | single s .. => some (.single (BitVec.ofNat 32 s.record.code) s.record.name s.record.category)
  | range opening _ closing .. =>
    some (.range (BitVec.ofNat 32 opening.record.code) (BitVec.ofNat 32 closing.record.code)
      opening.record.name closing.record.name opening.record.category)

def lines : Entry → List (List Char)
  | noise n => [n.line]
  | single s .. => [s.line]
  | range opening between closing .. => opening.line :: (between.map Noise.line ++ [closing.line])

/-- What is reported about a part, where `number` is the number of its first line. -/
def warnings (number : Nat) : Entry → List Event
  | noise n => Noise.warnings number [n]
  | single .. => []
  | range opening between closing .. =>
    Noise.warnings (number + 1) between
      ++ if "Last>".toList <:+ closing.record.name.toList then []
        else [.rangeClosedBy (BitVec.ofNat 32 opening.record.code) closing.record.name]

/-- What is reported about parts in a row. -/
def allWarnings (number : Nat) : List Entry → List Event
  | [] => []
  | e :: rest => e.warnings number ++ allWarnings (number + e.lines.length) rest

end Entry

/-- A row of characters within one line. -/
def Unbroken (line : List Char) : Prop :=
  ∀ c ∈ line, c ≠ '\n' ∧ c ≠ '\r'

/-- A data file. -/
structure Document where
  entries : List Entry
  unbroken : ∀ line ∈ entries.flatMap Entry.lines, Unbroken line

namespace Document

/-- The text of the file. -/
def text (d : Document) : String :=
  String.ofList (['\n'].intercalate (d.entries.flatMap Entry.lines))

/-- The items of the file in their order. -/
def items (d : Document) : List Item :=
  d.entries.filterMap Entry.item?

/-- What is reported about the file. -/
def warnings (d : Document) : List Event :=
  Entry.allWarnings 1 d.entries

end Document

/-! ### Lines -/

namespace Line

/-- Lines with their numbers, where `number` is the first one. -/
def numbered (number : Nat) (lines : List (List Char)) : List Line :=
  (lines.zipIdx number).map fun (text, k) => ⟨k, text⟩

@[simp] theorem numbered_nil (number : Nat) : numbered number [] = [] := rfl

@[simp] theorem numbered_cons (number : Nat) (text : List Char) (lines : List (List Char)) :
    numbered number (text :: lines) = ⟨number, text⟩ :: numbered (number + 1) lines := rfl

theorem numbered_append (number : Nat) (xs ys : List (List Char)) :
    numbered number (xs ++ ys) = numbered number xs ++ numbered (number + xs.length) ys := by
  simp [numbered, List.zipIdx_append]

theorem split_append {line : List Char} (h : Unbroken line) (number : Nat)
    (begun rest : List Char) :
    split number begun (line ++ rest) = split number (line.reverse ++ begun) rest := by
  induction line generalizing begun with
  | nil => rfl
  | cons c line ih =>
    obtain ⟨hc, hline⟩ := List.forall_mem_cons.mp h
    rw [List.cons_append, split.eq_5 _ _ _ _ _ _ _, ih hline]
    · simp
    all_goals simp_all

/-- Lines that are joined by line feeds are split again. -/
theorem split_intercalate {line : List Char} {lines : List (List Char)}
    (h : ∀ l ∈ line :: lines, Unbroken l) (number : Nat) :
    split number [] (['\n'].intercalate (line :: lines)) = numbered number (line :: lines) := by
  induction lines generalizing line number with
  | nil =>
    have hsplit := split_append (h line (by simp)) number [] []
    rw [List.append_nil, split, List.append_nil, List.reverse_reverse] at hsplit
    simpa [List.intercalate] using hsplit
  | cons next lines ih =>
    obtain ⟨hline, hlines⟩ := List.forall_mem_cons.mp h
    rw [List.intercalate_cons_cons, List.append_assoc, split_append hline, List.singleton_append,
      split, ih hlines, List.append_nil, List.reverse_reverse, numbered_cons number line]

end Line

/-! ### Reading -/

namespace Noise

theorem content_quiet (blanks : List Char) (remark : Option (List Char))
    (h : blanks.all isBlank = true) : Content.ofChars (blanks ++ comment remark) = .nothing := by
  have hskip : Record.skipBlanks (blanks ++ comment remark) = comment remark := by
    apply dropWhile_append_of_begins h
    cases remark with
    | none => exact begins_nil
    | some text => exact begins_cons.mpr (by decide)
  rw [Content.ofChars, hskip]
  cases remark <;> rfl

theorem content_malformed {blanks text : List Char} {c : Char} (h : blanks.all isBlank = true)
    (hblank : isBlank c = false) (hsign : c ≠ '#')
    (spellsNothing : ∀ s : Spelling, s.line ≠ blanks ++ c :: text) :
    Content.ofChars (blanks ++ c :: text) = .malformed (c :: text) := by
  have hskip : Record.skipBlanks (blanks ++ c :: text) = c :: text :=
    dropWhile_append_of_begins h (begins_cons.mpr hblank)
  have hcontent := ofChars_eq hskip hsign
  cases hr : Record.ofChars? (c :: text) with
  | none => rw [hcontent, hr, Option.elim_none]
  | some r =>
    rw [hr, Option.elim_some] at hcontent
    obtain ⟨s, hs, -⟩ := exists_spelling hcontent
    exact absurd hs (spellsNothing s)

end Noise

theorem Reported.report_append {α : Type} (xs ys : List Event) (r : Reported α) :
    r.report (xs ++ ys) = (r.report ys).report xs := by
  rw [report, report, report, List.append_assoc]

namespace Reading

theorem closingEvents_eq (first : CodeValue) (r : Record) :
    closingEvents first r =
      if "Last>".toList <:+ r.name.toList then [] else [.rangeClosedBy first r.name] := by
  simp only [closingEvents, closesRange_iff]

variable {opened : Option (CodeValue × String)}

/-- Lines without a record are reported or passed over, whatever range is open. -/
theorem ofLines_noise (number : Nat) (ns : List Noise) (rest : List Line) :
    ofLines opened (Line.numbered number (ns.map Noise.line) ++ rest) =
      (ofLines opened rest).report (Noise.warnings number ns) := by
  induction ns generalizing number with
  | nil => rfl
  | cons n ns ih =>
    rw [List.map_cons, Line.numbered_cons, List.cons_append, ofLines]
    cases n with
    | quiet blanks remark hblanks =>
      have hcontent := Noise.content_quiet blanks remark hblanks
      simp only [Line.content, Noise.line, hcontent]
      exact ih (number + 1)
    | malformed blanks c text hblanks hblank hsign spellsNothing =>
      have hcontent := Noise.content_malformed hblanks hblank hsign spellsNothing
      simp only [Line.content, Noise.line, hcontent, ih]
      rfl

theorem ofLines_single (s : Spelling) (hcode : s.record.code < UInt32.size)
    (hname : ¬"First>".toList <:+ s.record.name.toList) (number : Nat) (rest : List Line) :
    ofLines none (⟨number, s.line⟩ :: rest) =
      (ofLines none rest).add ⟨BitVec.ofNat 32 s.record.code, BitVec.ofNat 32 s.record.code,
        s.record.category⟩ := by
  rw [ofLines, Line.content, s.ofChars_line]
  dsimp only
  rw [if_neg (Nat.not_le.mpr hcode)]
  simp [opensRange_eq_false_iff.mpr hname]

theorem ofLines_opening (s : Spelling) (hcode : s.record.code < UInt32.size)
    (hname : "First>".toList <:+ s.record.name.toList) (number : Nat) (rest : List Line) :
    ofLines none (⟨number, s.line⟩ :: rest) =
      ofLines (some (BitVec.ofNat 32 s.record.code, s.record.category)) rest := by
  rw [ofLines, Line.content, s.ofChars_line]
  dsimp only
  rw [if_neg (Nat.not_le.mpr hcode)]
  simp [opensRange_iff.mpr hname]

/-- The record behind an opened range closes it. Its own category does not matter. -/
theorem ofLines_closing (s : Spelling) (hcode : s.record.code < UInt32.size) {first : CodeValue}
    {category : String} (hordered : first ≤ BitVec.ofNat 32 s.record.code) (number : Nat)
    (rest : List Line) :
    ofLines (some (first, category)) (⟨number, s.line⟩ :: rest) =
      ((ofLines none rest).add ⟨first, BitVec.ofNat 32 s.record.code, category⟩).report
        (closingEvents first s.record) := by
  rw [ofLines, Line.content, s.ofChars_line]
  dsimp only
  rw [if_neg (Nat.not_le.mpr hcode)]
  simp [BitVec.not_lt.mpr hordered]

end Reading

theorem Block.length_values (b : Block) : b.values.length = b.size := by
  rw [Block.values, valuesFrom, List.length_map, List.length_range, Block.size]

namespace Item

/-- The block of an item in the table. -/
def block : Item → Block
  | single code _ category => ⟨code, code, category⟩
  | range first last _ _ category => ⟨first, last, category⟩

@[simp] theorem block_category (i : Item) : i.block.category = i.category := by
  cases i <;> rfl

@[simp] theorem block_values (i : Item) : i.block.values = i.values := by
  cases i with
  | single code name category => simp [block, Block.values, valuesFrom, values]
  | range first last opening closing category =>
    simp [block, Block.values, valuesFrom, values, List.range'_eq_map_range, BitVec.ofNat_add]

theorem block_size (i : Item) : i.block.size = i.values.length := by
  rw [← block_values, Block.length_values]

end Item

/-- The table of a list of items. -/
def Table.ofItems (items : List Item) : Table :=
  ⟨items.map Item.block⟩

theorem Table.values_ofItems (items : List Item) (category : String) :
    (ofItems items).values category =
      (items.filter (·.category == category)).flatMap Item.values := by
  simp [ofItems, values, List.filter_map, List.flatMap_map, Function.comp_def]

theorem Table.len_ofItems (items : List Item) :
    (ofItems items).len = (items.flatMap Item.values).length := by
  induction items with
  | nil => rfl
  | cons i items ih =>
    rw [List.flatMap_cons, List.length_append, ← ih, ← i.block_size]
    rfl

namespace Reading

/-- Puts the block of an item, if there is one, before those of the rest. -/
def keep : Option Item → Reading → Reading
  | none, rest => rest
  | some i, rest => rest.add i.block

/-- A part of a file adds its item and reports its warnings. -/
theorem ofLines_entry (e : Entry) (number : Nat) (rest : List Line) :
    ofLines none (Line.numbered number e.lines ++ rest) =
      (keep e.item? (ofLines none rest)).report (e.warnings number) := by
  cases e with
  | noise n => exact ofLines_noise number [n] rest
  | single s hcode hname => exact ofLines_single s hcode hname number rest
  | range opening between closing hfirst hlast hname ordered =>
    have hordered : BitVec.ofNat 32 opening.record.code ≤ BitVec.ofNat 32 closing.record.code := by
      rwa [BitVec.le_def, BitVec.toNat_ofNat, BitVec.toNat_ofNat, Nat.mod_eq_of_lt hfirst,
        Nat.mod_eq_of_lt hlast]
    rw [Entry.lines, Line.numbered_cons, List.cons_append, ofLines_opening opening hfirst hname,
      Line.numbered_append, List.append_assoc, ofLines_noise, Line.numbered_cons,
      List.cons_append, ofLines_closing closing hlast hordered, ← Reported.report_append,
      closingEvents_eq]
    rfl

theorem ofLines_entries (entries : List Entry) (number : Nat) :
    ofLines none (Line.numbered number (entries.flatMap Entry.lines)) =
      ⟨Entry.allWarnings number entries, .ok (.ofItems (entries.filterMap Entry.item?))⟩ := by
  induction entries generalizing number with
  | nil => rfl
  | cons e entries ih =>
    rw [List.flatMap_cons, Line.numbered_append, ofLines_entry, ih, List.filterMap_cons]
    cases e.item? <;> rfl

end Reading

namespace Document

theorem ofText_text (d : Document) :
    Reading.ofText d.text = ⟨d.warnings, .ok (.ofItems d.items)⟩ := by
  rw [warnings, items, ← Reading.ofLines_entries, Reading.ofText, text, String.toList_ofList,
    Line.ofText]
  cases hlines : d.entries.flatMap Entry.lines with
  | nil => rfl
  | cons line lines => rw [Line.split_intercalate (hlines ▸ d.unbroken)]

end Document

/-! ### Writing -/

/-- A trimmed name that can be written as a field. -/
structure IsName (name : String) : Prop where
  trimmed : Blank.trim name.toList = name.toList
  separated : name.toList.all Record.isFieldChar = true
  unbroken : Unbroken name.toList

/-- An ASCII letter with ASCII letters and digits behind it. -/
structure IsCategory (category : String) : Prop where
  alphanumeric : category.toList.all Char.isAlphanum = true
  initial : category.toList.head?.any Char.isAlpha = true

/-- Whether an item can be written down. -/
def Item.WellFormed : Item → Prop
  | single _ name category =>
    IsName name ∧ ¬ "First>".toList <:+ name.toList ∧ IsCategory category
  | range first last opening closing category =>
    first ≤ last ∧ IsName opening ∧ "First>".toList <:+ opening.toList ∧ IsName closing ∧
      IsCategory category

theorem unbroken_of_all {p : Char → Bool} {cs : List Char} (h : cs.all p = true)
    (hfeed : p '\n' = false) (hreturn : p '\r' = false) : Unbroken cs := by
  intro c hc
  have hp := List.all_eq_true.mp h c hc
  constructor <;> rintro rfl <;> simp_all

/-- A record can be written on a line. -/
theorem exists_line (code : CodeValue) {name category : String} (hname : IsName name)
    (hcategory : IsCategory category) :
    ∃ s : Spelling, s.record = ⟨code.toNat, name, category⟩ ∧ Unbroken s.line := by
  refine ⟨.plain code.toNat name.toList category.toList hname.separated hcategory.alphanumeric
    hcategory.initial, ?_, ?_⟩
  · simp [Spelling.record, Spelling.plain, hname.trimmed, Hex.digitsValue_digits]
  · have hdigits : Unbroken (Hex.digits code.toNat) :=
      unbroken_of_all (Hex.all_digits _) (by decide) (by decide)
    have hletters : Unbroken category.toList :=
      unbroken_of_all hcategory.alphanumeric (by decide) (by decide)
    intro c hc
    simp only [Spelling.line, Spelling.body, Spelling.rest, Spelling.plain, List.nil_append,
      List.mem_append, List.mem_cons, Record.further, comment, List.flatMap_nil,
      List.not_mem_nil, or_false] at hc
    rcases hc with hc | rfl | hc | rfl | hc
    · exact hdigits c hc
    · decide
    · exact hname.unbroken c hc
    · decide
    · exact hletters c hc

theorem Item.WellFormed.exists_entry {i : Item} (h : i.WellFormed) :
    ∃ e : Entry, e.item? = some i ∧ ∀ line ∈ e.lines, Unbroken line := by
  cases i with
  | single code name category =>
    obtain ⟨hname, hsingle, hcategory⟩ := h
    obtain ⟨s, hrecord, hline⟩ := exists_line code hname hcategory
    refine ⟨.single s (by simpa [hrecord] using code.isLt) ?_, ?_, ?_⟩
    · simpa only [hrecord] using hsingle
    · simp [Entry.item?, hrecord]
    · simpa [Entry.lines] using hline
  | range first last opening closing category =>
    obtain ⟨hordered, hopening, hfirst, hclosing, hcategory⟩ := h
    obtain ⟨s, hrecord, hline⟩ := exists_line first hopening hcategory
    obtain ⟨s', hrecord', hline'⟩ := exists_line last hclosing hcategory
    refine ⟨.range s [] s' (by simpa [hrecord] using first.isLt)
      (by simpa [hrecord'] using last.isLt) ?_
      (by simpa [hrecord, hrecord', BitVec.le_def] using hordered), ?_, ?_⟩
    · simpa only [hrecord] using hfirst
    · simp [Entry.item?, hrecord, hrecord']
    · simpa [Entry.lines] using ⟨hline, hline'⟩

/-- Every list of well-formed items can be written down. -/
theorem exists_document (items : List Item) (h : ∀ i ∈ items, i.WellFormed) :
    ∃ d : Document, d.items = items := by
  induction items with
  | nil => exact ⟨⟨[], by simp⟩, rfl⟩
  | cons i items ih =>
    obtain ⟨hi, hitems⟩ := List.forall_mem_cons.mp h
    obtain ⟨d, hd⟩ := ih hitems
    obtain ⟨e, he, hlines⟩ := hi.exists_entry
    refine ⟨⟨e :: d.entries, ?_⟩, ?_⟩
    · intro line hline
      rw [List.flatMap_cons, List.mem_append] at hline
      exact hline.elim (hlines line) (d.unbroken line)
    · rw [Document.items, List.filterMap_cons_some he, ← hd, Document.items]

end BitClassifier
