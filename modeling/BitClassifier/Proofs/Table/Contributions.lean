import BitClassifier.Proofs.Table.Document
import BitClassifier.Proofs.Text.Lines
import Mathlib.Data.List.Forall2

/-!
# What the lines of a data file contribute

A line contributes an entry, a report that it is malformed, or nothing. Which of them it is depends
on whether the line spells a record (`Contributes`), and exactly one of them fits
(`contributes_iff`). A file is read by going through the contributions of its lines
(`Reading.ofLines_eq`).
-/

namespace BitClassifier

open Record (Spelling isBlank skipBlanks comment ofChars? exists_spelling)

/-! ### How a text is cut into lines -/

/-- The lines of a text whose first line has the given number: a line feed, a carriage return or the
two of them end a line, and line feeds are counted. -/
inductive Delimits : Nat → List Char → List Line → Prop
  | last {number : Nat} {line : List Char} (h : Unbroken line) :
    Delimits number line [⟨number, line⟩]
  | feed {number : Nat} {line text : List Char} {lines : List Line} (h : Unbroken line)
    (rest : Delimits (number + 1) text lines) :
    Delimits number (line ++ '\n' :: text) (⟨number, line⟩ :: lines)
  | pair {number : Nat} {line text : List Char} {lines : List Line} (h : Unbroken line)
    (rest : Delimits (number + 1) text lines) :
    Delimits number (line ++ '\r' :: '\n' :: text) (⟨number, line⟩ :: lines)
  | lone {number : Nat} {line text : List Char} {lines : List Line} (h : Unbroken line)
    (hnext : text.head? ≠ some '\n') (rest : Delimits number text lines) :
    Delimits number (line ++ '\r' :: text) (⟨number, line⟩ :: lines)

theorem unbroken_takeWhile (text : List Char) : Unbroken (text.takeWhile Line.isInner) :=
  unbroken_of_all List.all_takeWhile (by decide) (by decide)

/-- The reader cuts a text as it should be cut, and there is no other way to do so. -/
theorem delimits_iff {number : Nat} {text : List Char} {lines : List Line} :
    Delimits number text lines ↔ lines = Line.split number [] text := by
  constructor
  · intro h
    induction h with
    | @last number line h =>
      have hsplit := Line.split_append h number [] []
      rw [List.append_nil, List.append_nil, Line.split, List.reverse_reverse] at hsplit
      exact hsplit.symm
    | feed h rest ih => simp [Line.split_append h, Line.split, ← ih]
    | pair h rest ih => simp [Line.split_append h, Line.split, ← ih]
    | @lone number line text lines h hnext rest ih =>
      have hpair : ∀ rest, text = '\n' :: rest → False := by
        rintro rest rfl
        exact hnext rfl
      simp [Line.split_append h, Line.split.eq_3 _ _ _ hpair, ← ih]
  · rintro rfl
    -- not on the characters: the end of a line may take two of them
    induction hn : text.length using Nat.strong_induction_on generalizing number text with
    | _ n ih =>
      have hline := unbroken_takeWhile text
      have hends := begins_dropWhile Line.isInner text
      have htext := List.takeWhile_append_dropWhile (p := Line.isInner) (l := text)
      rw [Line.split_eq, List.reverse_nil, List.nil_append]
      generalize text.takeWhile Line.isInner = line at *
      generalize text.dropWhile Line.isInner = rest at *
      subst htext hn
      cases hend : Line.ending? rest with
      | none =>
        rw [(Line.ending?_eq_none hends).mp hend, List.append_nil]
        exact .last hline
      | some out =>
        obtain ⟨feeds, text⟩ := out
        have hlength := Line.length_ending? hend
        have hlines := @ih _ (by rw [List.length_append]; omega) (number + feeds) text rfl
        unfold Line.ending? at hend
        split at hend
        · cases hend
          exact .pair hline hlines
        · rename_i rest hpair
          cases hend
          refine .lone hline (fun hfeed => ?_) hlines
          obtain ⟨cs, hcs⟩ := List.head?_eq_some_iff.mp hfeed
          exact hpair cs hcs
        · cases hend
          exact .feed hline hlines
        · cases hend

/-! ### What a line contributes -/

/-- What a line contributes to the reading of a file. -/
inductive Contribution where
  | entry (r : Record)
  | malformed (number : Nat) (text : List Char)

/-- What a line contributes. A line that is neither empty but for blanks and a comment nor spells a
record is malformed, and it is reported without the blanks in front. -/
inductive Contributes : Line → List Contribution → Prop
  | nothing (number : Nat) {blanks : List Char} (remark : Option (List Char))
    (hblanks : blanks.all isBlank = true) :
    Contributes ⟨number, blanks ++ comment remark⟩ []
  | entry (number : Nat) (s : Spelling) :
    Contributes ⟨number, s.line⟩ [.entry s.record]
  | malformed (number : Nat) {blanks text : List Char} (hblanks : blanks.all isBlank = true)
    (htext : ∀ c ∈ text.head?, isBlank c = false)
    (hloud : ∀ (bs : List Char) (remark : Option (List Char)), bs.all isBlank = true →
      bs ++ comment remark ≠ blanks ++ text)
    (hspelling : ∀ s : Spelling, s.line ≠ blanks ++ text) :
    Contributes ⟨number, blanks ++ text⟩ [.malformed number text]

/-- What the reader takes from a line. -/
def Line.contributions (line : Line) : List Contribution :=
  match line.content with
  | .nothing => []
  | .record r => [.entry r]
  | .malformed text => [.malformed line.number text]

/-- A line that holds nothing is empty but for blanks and a comment. -/
theorem exists_quiet {line : List Char} (h : Content.ofChars line = .nothing) :
    ∃ blanks remark, blanks.all isBlank = true ∧ line = blanks ++ comment remark := by
  have hline : line.takeWhile isBlank ++ skipBlanks line = line := List.takeWhile_append_dropWhile
  refine ⟨line.takeWhile isBlank, ?_⟩
  cases hskip : skipBlanks line with
  | nil => exact ⟨none, List.all_takeWhile, by rw [comment, ← hskip, hline]⟩
  | cons c cs =>
    by_cases hc : c = '#'
    · subst hc
      exact ⟨some cs, List.all_takeWhile, by rw [comment, ← hskip, hline]⟩
    · rw [Record.ofChars_eq hskip hc] at h
      cases hr : ofChars? (c :: cs) <;> simp [hr] at h

theorem exists_malformed {line text : List Char} (h : Content.ofChars line = .malformed text) :
    ∃ blanks, blanks.all isBlank = true ∧ Begins isBlank text ∧ line = blanks ++ text := by
  have hline : line.takeWhile isBlank ++ skipBlanks line = line := List.takeWhile_append_dropWhile
  have htext : text = skipBlanks line := by
    cases hskip : skipBlanks line with
    | nil => simp [Content.ofChars, hskip] at h
    | cons c cs =>
      have hc : c ≠ '#' := by
        rintro rfl
        simp [Content.ofChars, hskip] at h
      rw [Record.ofChars_eq hskip hc] at h
      cases hr : ofChars? (c :: cs) <;> simp_all
  subst htext
  exact ⟨line.takeWhile isBlank, List.all_takeWhile, begins_dropWhile isBlank line, hline.symm⟩

/-- A line contributes what the reader takes from it, and nothing else. -/
theorem contributes_iff {line : Line} {cs : List Contribution} :
    Contributes line cs ↔ cs = line.contributions := by
  constructor
  · intro h
    cases h with
    | nothing number remark hblanks =>
      rw [Line.contributions, Line.content, Noise.content_quiet _ remark hblanks]
    | entry number s =>
      rw [Line.contributions, Line.content, s.ofChars_line]
    | @malformed number blanks text hblanks htext hloud hspelling =>
      cases text with
      | nil => exact absurd rfl (hloud blanks none hblanks)
      | cons c text =>
        have hsign : c ≠ '#' := by
          rintro rfl
          exact hloud blanks (some text) hblanks rfl
        rw [Line.contributions, Line.content,
          Noise.content_malformed hblanks (htext c rfl) hsign hspelling]
  · rintro rfl
    obtain ⟨number, text⟩ := line
    rw [Line.contributions, Line.content]
    cases hcontent : Content.ofChars text with
    | nothing =>
      obtain ⟨blanks, remark, hblanks, rfl⟩ := exists_quiet hcontent
      exact .nothing number remark hblanks
    | record r =>
      obtain ⟨s, rfl, rfl⟩ := exists_spelling hcontent
      exact .entry number s
    | malformed rest =>
      obtain ⟨blanks, hblanks, hrest, rfl⟩ := exists_malformed hcontent
      refine .malformed number hblanks hrest (fun bs remark hbs hquiet => ?_) fun s hline => ?_
      · have hnothing := Noise.content_quiet bs remark hbs
        rw [hquiet, hcontent] at hnothing
        cases hnothing
      · have hrecord := s.ofChars_line
        rw [hline, hcontent] at hrecord
        cases hrecord

theorem forall₂_contributes_iff {lines : List Line} {contributions : List (List Contribution)} :
    List.Forall₂ Contributes lines contributions ↔
      contributions = lines.map Line.contributions := by
  constructor
  · intro h
    induction h with
    | nil => rfl
    | cons hline hlines ih => rw [contributes_iff.mp hline, ih, List.map_cons]
  · intro h
    rw [h, List.forall₂_map_right_iff, List.forall₂_same]
    exact fun line _ => contributes_iff.mpr rfl

/-- A line that contributes an entry spells it. -/
theorem Line.exists_spelling {line : Line} {r : Record} (h : .entry r ∈ line.contributions) :
    ∃ s : Spelling, s.record = r := by
  have hline := contributes_iff.mpr (Eq.refl line.contributions)
  generalize line.contributions = cs at h hline
  cases hline with
  | nothing => cases h
  | malformed => simp at h
  | entry number s => exact ⟨s, (by simpa using h : r = s.record).symm⟩

/-! ### Reading contributions -/

namespace Reading

theorem table_add (b : Block) (x : Reading) :
    (x.add b).table = x.table.map fun t => ⟨b :: t.blocks⟩ := rfl

theorem add_eq_ok {b : Block} {x : Reading} {t : Table} (h : (x.add b).table = .ok t) :
    ∃ u, x.table = .ok u ∧ t = ⟨b :: u.blocks⟩ := by
  cases hu : x.table with
  | error e => simp [table_add, hu, Except.map] at h
  | ok u => exact ⟨u, rfl, by simpa [table_add, hu, Except.map] using h.symm⟩

/-- Reads an entry, where `opened` is the range that has begun and `rest` reads what follows. -/
def ofEntry (opened : Option (CodeValue × String)) (r : Record)
    (rest : Option (CodeValue × String) → Reading) : Reading :=
  if UInt32.size ≤ r.code then .stop [] .codeTooLarge
  else
    let code := BitVec.ofNat 32 r.code
    match opened with
    | some (first, category) =>
      if code < first then .stop (closingEvents first r) (.emptyRange first code)
      else ((rest none).add ⟨first, code, category⟩).report (closingEvents first r)
    | none =>
      if r.opensRange then rest (some (code, r.category))
      else (rest none).add ⟨code, code, r.category⟩

/-- Goes through what the lines of a file contribute, where `opened` is a range that has begun. -/
def ofContributions (opened : Option (CodeValue × String)) : List Contribution → Reading
  | [] =>
    match opened with
    | none => ⟨[], .ok {}⟩
    | some (first, _) => .stop [] (.unclosedRange first)
  | .malformed number text :: rest =>
    (ofContributions opened rest).report [.lineSkipped number (String.ofList text)]
  | .entry r :: rest => ofEntry opened r fun opened => ofContributions opened rest

/-- A file is read by what its lines contribute. -/
theorem ofLines_eq (opened : Option (CodeValue × String)) (lines : List Line) :
    ofLines opened lines = ofContributions opened (lines.flatMap Line.contributions) := by
  induction lines generalizing opened with
  | nil => rfl
  | cons line lines ih =>
    rw [ofLines, List.flatMap_cons, Line.contributions]
    cases line.content with
    | nothing => exact ih opened
    | malformed text => exact congrArg (Reported.report _) (ih opened)
    | record r =>
      simp only [ih]
      rfl

end Reading

end BitClassifier
