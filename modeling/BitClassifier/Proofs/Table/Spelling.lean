import BitClassifier.Proofs.Text.Rows
import BitClassifier.Table.Record
import Mathlib.Data.Option.Basic

/-!
# The lines that hold a record

A `Spelling` is a way to write a record on a line: digits of either case with leading zeros, blanks
around the code and the category, further fields and a comment. The reader reads every spelling as
the record that it spells (`ofChars_line`), and it reads nothing else as a record
(`exists_spelling`), so that the malformed lines are those that spell nothing.
-/

namespace BitClassifier

namespace Record

/-- A comment with its sign, if there is one. -/
def comment : Option (List Char) → List Char
  | none => []
  | some text => '#' :: text

/-- Further fields, each behind its semicolon and the blanks in front of that. -/
def further (fields : List (List Char × List Char)) : List Char :=
  fields.flatMap fun f => f.1 ++ [';'] ++ f.2

theorem further_cons (f : List Char × List Char) (fields : List (List Char × List Char)) :
    further (f :: fields) = f.1 ++ ';' :: (f.2 ++ further fields) := by
  simp [further]

/-- A way to write a record on a line. -/
structure Spelling where
  indent : List Char
  digits : List Char
  /-- The blanks behind the code. -/
  gap : List Char
  /-- The name with the white space around it. -/
  name : List Char
  /-- The blanks in front of the category. -/
  lead : List Char
  category : List Char
  /-- The further fields, each behind the blanks in front of its semicolon. -/
  fields : List (List Char × List Char)
  /-- The blanks at the end. -/
  trail : List Char
  /-- What stands behind the sign of a comment, if there is a comment. -/
  remark : Option (List Char)
  blanks : ∀ cs ∈ [indent, gap, lead, trail], cs.all isBlank = true
  coded : digits ≠ []
  hex : digits.all Hex.isDigit = true
  named : name.all isFieldChar = true
  separated : ∀ f ∈ fields, f.1.all isBlank = true ∧ f.2.all isFieldChar = true
  alphanumeric : category.all Char.isAlphanum = true
  initial : category.head?.any Char.isAlpha = true

namespace Spelling

/-- What stands behind the category. -/
def rest (s : Spelling) : List Char :=
  further s.fields ++ (s.trail ++ comment s.remark)

/-- The line without the blanks in front. -/
def body (s : Spelling) : List Char :=
  s.digits ++ (s.gap ++ ';' :: (s.name ++ ';' :: (s.lead ++ (s.category ++ s.rest))))

/-- The characters of the line. -/
def line (s : Spelling) : List Char :=
  s.indent ++ s.body

/-- The record that is spelled. -/
def record (s : Spelling) : Record :=
  ⟨Hex.digitsValue s.digits, String.ofList (Blank.trim s.name), String.ofList s.category⟩

/-- The shortest way to write a record. -/
def plain (code : Nat) (name category : List Char) (hname : name.all isFieldChar = true)
    (halphanumeric : category.all Char.isAlphanum = true)
    (hinitial : category.head?.any Char.isAlpha = true) : Spelling where
  indent := []
  digits := Hex.digits code
  gap := []
  name
  lead := []
  category
  fields := []
  trail := []
  remark := none
  blanks := by simp
  coded := Hex.digits_ne_nil _
  hex := Hex.all_digits _
  named := hname
  separated := by simp
  alphanumeric := halphanumeric
  initial := hinitial

end Spelling

/-! ### Kinds of characters -/

theorem eq_of_isBlank {c : Char} (h : isBlank c = true) : c = ' ' ∨ c = '\t' ∨ c = '\x0b' := by
  simpa [isBlank, or_assoc] using h

theorem isDigit_of_isBlank {c : Char} (h : isBlank c = true) : Hex.isDigit c = false := by
  rcases eq_of_isBlank h with rfl | rfl | rfl <;> decide

theorem isAlphanum_of_isBlank {c : Char} (h : isBlank c = true) : c.isAlphanum = false := by
  rcases eq_of_isBlank h with rfl | rfl | rfl <;> decide

theorem isFieldChar_of_isBlank (c : Char) (h : isBlank c = true) : isFieldChar c = true := by
  rcases eq_of_isBlank h with rfl | rfl | rfl <;> decide

theorem isSpace_of_isBlank (c : Char) (h : isBlank c = true) : Blank.isSpace c = true := by
  rcases eq_of_isBlank h with rfl | rfl | rfl <;> decide

theorem isBlank_of_isDigit {c : Char} (h : Hex.isDigit c = true) : isBlank c = false := by
  grind [isDigit_of_isBlank]

theorem isBlank_of_isAlphanum {c : Char} (h : c.isAlphanum = true) : isBlank c = false := by
  grind [isAlphanum_of_isBlank]

theorem semicolon?_eq_some {cs rest : List Char} :
    semicolon? cs = some rest ↔ cs = ';' :: rest := by
  constructor
  · intro h
    unfold semicolon? at h
    split at h
    · simpa using h
    · cases h
  · rintro rfl
    rfl

theorem opensRange_iff {r : Record} : r.opensRange = true ↔ "First>".toList <:+ r.name.toList := by
  rw [opensRange, List.isSuffixOf_iff_suffix]

theorem opensRange_eq_false_iff {r : Record} :
    r.opensRange = false ↔ ¬"First>".toList <:+ r.name.toList := by
  rw [← opensRange_iff, Bool.not_eq_true]

theorem closesRange_iff {r : Record} : r.closesRange = true ↔ "Last>".toList <:+ r.name.toList := by
  rw [closesRange, List.isSuffixOf_iff_suffix]

/-! ### Reading a spelling -/

theorem begins_comment (remark : Option (List Char)) {p : Char → Bool} (hsign : p '#' = false) :
    Begins p (comment remark) := by
  cases remark with
  | none => exact begins_nil
  | some text => exact begins_cons.mpr hsign

namespace Spelling

variable (s : Spelling)

theorem exists_body_eq_cons : ∃ d ds, s.body = d :: ds ∧ Hex.isDigit d = true := by
  obtain ⟨d, ds, hd⟩ := List.exists_cons_of_ne_nil s.coded
  have hhex := s.hex
  rw [hd, List.all_cons, Bool.and_eq_true] at hhex
  exact ⟨d, _, by rw [body, hd, List.cons_append], hhex.1⟩

theorem begins_body : Begins isBlank s.body := by
  obtain ⟨d, ds, hbody, hdigit⟩ := s.exists_body_eq_cons
  rw [hbody, begins_cons]
  exact isBlank_of_isDigit hdigit

theorem skipBlanks_line : skipBlanks s.line = s.body :=
  dropWhile_append_of_begins (s.blanks s.indent (by simp)) s.begins_body

/-- A blank or a semicolon ends the code. -/
theorem begins_gap (rest : List Char) : Begins Hex.isDigit (s.gap ++ ';' :: rest) :=
  (begins_of_all (s.blanks s.gap (by simp)) fun _ => isDigit_of_isBlank).append
    (begins_cons.mpr (by decide))

theorem begins_category (rest : List Char) : Begins isBlank (s.category ++ rest) := by
  have hinitial := s.initial
  cases hcategory : s.category with
  | nil => simp [hcategory] at hinitial
  | cons a as =>
    have halphanumeric := s.alphanumeric
    rw [hcategory, List.all_cons, Bool.and_eq_true] at halphanumeric
    exact begins_cons.mpr (isBlank_of_isAlphanum halphanumeric.1)

/-- Behind the category there are blanks and then a semicolon, a comment or nothing. -/
theorem exists_rest : ∃ blanks tail, blanks.all isBlank = true ∧ s.rest = blanks ++ tail ∧
    ∀ p : Char → Bool, p ';' = false → p '#' = false → Begins p tail := by
  have hseparated := s.separated
  cases hfields : s.fields with
  | nil =>
    refine ⟨s.trail, comment s.remark, s.blanks s.trail (by simp), ?_, fun p _ hsign => ?_⟩
    · rw [rest, hfields, further, List.flatMap_nil, List.nil_append]
    · exact begins_comment s.remark hsign
  | cons f fields =>
    rw [hfields] at hseparated
    obtain ⟨⟨hblanks, -⟩, -⟩ := List.forall_mem_cons.mp hseparated
    refine ⟨f.1, ';' :: (f.2 ++ further fields ++ (s.trail ++ comment s.remark)), hblanks, ?_,
      fun p hsemicolon _ => begins_cons.mpr hsemicolon⟩
    rw [rest, hfields, further_cons, List.append_assoc, List.cons_append]

theorem begins_rest : Begins Char.isAlphanum s.rest := by
  obtain ⟨blanks, tail, hblanks, hrest, htail⟩ := s.exists_rest
  rw [hrest]
  exact (begins_of_all hblanks fun _ => isAlphanum_of_isBlank).append
    (htail _ (by decide) (by decide))

theorem mayEnd_rest : mayEnd (skipBlanks s.rest) = true := by
  obtain ⟨blanks, tail, hblanks, hrest, htail⟩ := s.exists_rest
  have hskip : skipBlanks s.rest = tail :=
    hrest ▸ dropWhile_append_of_begins hblanks (htail _ (by decide) (by decide))
  have hbegins : Begins isFieldChar tail := htail _ (by decide) (by decide)
  rw [hskip]
  cases tail with
  | nil => rfl
  | cons c cs => rw [mayEnd, begins_cons.mp hbegins, Bool.not_false]

theorem ofChars?_body : Record.ofChars? s.body = some s.record := by
  have hbody : skipBlanks s.body = s.body := dropWhile_of_begins s.begins_body
  have hdigits : ∀ rest, (s.digits ++ (s.gap ++ ';' :: rest)).takeWhile Hex.isDigit = s.digits :=
    fun rest => takeWhile_append_of_begins s.hex (s.begins_gap rest)
  have hcode : ∀ rest,
      (s.digits ++ (s.gap ++ ';' :: rest)).dropWhile Hex.isDigit = s.gap ++ ';' :: rest :=
    fun rest => dropWhile_append_of_begins s.hex (s.begins_gap rest)
  have hgap : ∀ rest, skipBlanks (s.gap ++ ';' :: rest) = ';' :: rest := fun rest =>
    dropWhile_append_of_begins (s.blanks s.gap (by simp)) (begins_cons.mpr (by decide))
  have hfield : ∀ rest, (s.name ++ ';' :: rest).takeWhile isFieldChar = s.name := fun rest =>
    takeWhile_append_of_begins s.named (begins_cons.mpr (by decide))
  have hnamed : ∀ rest, (s.name ++ ';' :: rest).dropWhile isFieldChar = ';' :: rest := fun rest =>
    dropWhile_append_of_begins s.named (begins_cons.mpr (by decide))
  have hlead : ∀ rest, skipBlanks (s.lead ++ (s.category ++ rest)) = s.category ++ rest :=
    fun rest => dropWhile_append_of_begins (s.blanks s.lead (by simp)) (s.begins_category rest)
  have hcategory := takeWhile_append_of_begins s.alphanumeric s.begins_rest
  have hrest := dropWhile_append_of_begins s.alphanumeric s.begins_rest
  rw [Record.ofChars?, hbody, body, hdigits, hcode, hgap]
  simp [semicolon?, hfield, hnamed, hlead, hcategory, hrest, s.coded, s.initial, s.mayEnd_rest,
    guard, record]

end Spelling

/-- A line that is neither blank nor a comment is a record or malformed. -/
theorem ofChars_eq {line cs : List Char} {c : Char} (hline : skipBlanks line = c :: cs)
    (hc : c ≠ '#') :
    Content.ofChars line = (ofChars? (c :: cs)).elim (.malformed (c :: cs)) .record := by
  rw [Content.ofChars, hline]
  split
  · contradiction
  · simp_all
  · cases ofChars? (c :: cs) <;> rfl

/-- A spelling is read as the record that it spells. -/
theorem Spelling.ofChars_line (s : Spelling) : Content.ofChars s.line = .record s.record := by
  obtain ⟨d, ds, hbody, hdigit⟩ := s.exists_body_eq_cons
  have hsign : d ≠ '#' := by
    rintro rfl
    exact absurd hdigit (by decide)
  rw [ofChars_eq (s.skipBlanks_line.trans hbody) hsign, ← hbody, s.ofChars?_body, Option.elim_some]

/-! ### What is read is a spelling -/

theorem mayEnd_dropWhile (cs : List Char) : mayEnd (cs.dropWhile isFieldChar) = true := by
  have hbegins := begins_dropWhile isFieldChar cs
  cases hrest : cs.dropWhile isFieldChar with
  | nil => rfl
  | cons c rest =>
    rw [hrest, begins_cons] at hbegins
    rw [mayEnd, hbegins, Bool.not_false]

/-- What may follow a record is a row of fields and perhaps a comment. -/
theorem exists_further (cs : List Char) (h : mayEnd cs = true) :
    ∃ fields remark, (∀ f ∈ fields, f.1 = [] ∧ f.2.all isFieldChar = true) ∧
      cs = further fields ++ comment remark := by
  induction hn : cs.length using Nat.strong_induction_on generalizing cs with
  | _ n ih =>
    match cs with
    | [] => exact ⟨[], none, by simp, rfl⟩
    | c :: cs =>
      have hc : c = ';' ∨ c = '#' := by grind [mayEnd, isFieldChar]
      rcases hc with rfl | rfl
      · -- the field runs up to the next semicolon or comment
        have hle := List.length_dropWhile_le isFieldChar cs
        obtain ⟨fields, remark, hfields, hrest⟩ := ih _ (by grind) _ (mayEnd_dropWhile cs) rfl
        refine ⟨([], cs.takeWhile isFieldChar) :: fields, remark, ?_, ?_⟩
        · exact List.forall_mem_cons.mpr ⟨⟨rfl, List.all_takeWhile⟩, hfields⟩
        · rw [further_cons, List.nil_append, List.cons_append, List.append_assoc, ← hrest,
            List.takeWhile_append_dropWhile]
      · exact ⟨[], some cs, by simp, rfl⟩

/-- What may follow a category: the blanks in front go to the first field, if there is one, and else
to the end. -/
theorem exists_rest (cs : List Char) (h : mayEnd (skipBlanks cs) = true) :
    ∃ fields trail remark, (∀ f ∈ fields, f.1.all isBlank = true ∧ f.2.all isFieldChar = true) ∧
      trail.all isBlank = true ∧ cs = further fields ++ (trail ++ comment remark) := by
  have hcs : cs.takeWhile isBlank ++ skipBlanks cs = cs := List.takeWhile_append_dropWhile
  obtain ⟨fields, remark, hfields, hskip⟩ := exists_further _ h
  rw [hskip] at hcs
  cases fields with
  | nil => exact ⟨[], cs.takeWhile isBlank, remark, by simp, List.all_takeWhile, hcs.symm⟩
  | cons f fields =>
    obtain ⟨⟨hnone, hfield⟩, hrest⟩ := List.forall_mem_cons.mp hfields
    refine ⟨(cs.takeWhile isBlank, f.2) :: fields, [], remark, ?_, rfl, ?_⟩
    · refine List.forall_mem_cons.mpr ⟨⟨List.all_takeWhile, hfield⟩, fun g hg => ?_⟩
      obtain ⟨hnone, hfield⟩ := hrest g hg
      exact ⟨by rw [hnone, List.all_nil], hfield⟩
    · rw [further_cons, hnone, List.nil_append] at hcs
      rw [further_cons, List.append_assoc, List.nil_append]
      exact hcs.symm

/-- What is read as a record is the rest of a spelling without blanks in front. -/
theorem exists_body {cs : List Char} {r : Record} (h : ofChars? cs = some r)
    (hcs : Begins isBlank cs) : ∃ s : Spelling, s.indent = [] ∧ s.body = cs ∧ s.record = r := by
  have hself : skipBlanks cs = cs := dropWhile_of_begins hcs
  rw [ofChars?, hself] at h
  simp only [Option.bind_eq_bind, Option.bind_eq_some_iff, Option.guard_eq_some',
    semicolon?_eq_some, Option.pure_def, Option.some.injEq] at h
  obtain ⟨-, hcoded, named, hgap, rest, hname, -, hinitial, -, hend, rfl⟩ := h
  obtain ⟨fields, trail, remark, hfields, htrail, htail⟩ := exists_rest _ hend
  let s : Spelling := {
    indent := []
    digits := cs.takeWhile Hex.isDigit
    gap := (cs.dropWhile Hex.isDigit).takeWhile isBlank
    name := named.takeWhile isFieldChar
    lead := rest.takeWhile isBlank
    category := (skipBlanks rest).takeWhile Char.isAlphanum
    fields
    trail
    remark
    blanks := by simp only [List.forall_mem_cons, List.all_takeWhile, htrail]; simp
    coded := by simpa using hcoded
    hex := List.all_takeWhile
    named := List.all_takeWhile
    separated := hfields
    alphanumeric := List.all_takeWhile
    initial := hinitial }
  refine ⟨s, rfl, ?_, rfl⟩
  have hrest : s.rest = (skipBlanks rest).dropWhile Char.isAlphanum := htail.symm
  have hcategory : s.lead ++ (s.category ++ s.rest) = rest := by
    rw [hrest, List.takeWhile_append_dropWhile]
    exact List.takeWhile_append_dropWhile
  have hnamed : s.name ++ ';' :: (s.lead ++ (s.category ++ s.rest)) = named := by
    rw [hcategory, ← hname, List.takeWhile_append_dropWhile]
  rw [Spelling.body, hnamed, ← hgap]
  simp only [s, skipBlanks, List.takeWhile_append_dropWhile]

/-- A line that is read as a record spells it. -/
theorem exists_spelling {line : List Char} {r : Record} (h : Content.ofChars line = .record r) :
    ∃ s : Spelling, s.line = line ∧ s.record = r := by
  have hread : ofChars? (skipBlanks line) = some r := by
    cases hline : skipBlanks line with
    | nil => simp [Content.ofChars, hline] at h
    | cons c cs =>
      have hc : c ≠ '#' := by
        rintro rfl
        simp [Content.ofChars, hline] at h
      rw [ofChars_eq hline hc] at h
      cases hr : ofChars? (c :: cs) <;> simp_all
  obtain ⟨s, hindent, hbody, hrecord⟩ := exists_body hread (begins_dropWhile isBlank line)
  refine ⟨{ s with
    indent := line.takeWhile isBlank
    blanks := List.forall_mem_cons.mpr ⟨List.all_takeWhile, (List.forall_mem_cons.mp s.blanks).2⟩ },
    ?_, hrecord⟩
  change line.takeWhile isBlank ++ s.body = line
  rw [hbody, skipBlanks, List.takeWhile_append_dropWhile]

end Record
end BitClassifier
