import BitClassifier.Proofs.Peg.Within

/-!
# Taking a line

Each rule of the grammar takes from a line what the reader takes from it, so a line is taken as a
record with the fields that `Record.ofChars?` finds there, or as malformed, in full
(`exists_record`). The two differ in where they pass over blanks: the grammar does so in front of
every part, also where the reader counts blanks as a part of a name.
-/

namespace BitClassifier

open Peg
open Line (isInner)
open Record (isBlank isFieldChar skipBlanks semicolon? mayEnd ofChars?)

namespace DataFile

variable {e : Expr Rule} {number : Nat} {l m : List Char}
  {out : Option (List (Pair Rule) × List Char)}

/-! ## Parts of a line -/

theorem reads_semicolon (number : Nat) (l : List Char) :
    Reads semicolon number l ((semicolon? l).map fun m => ([], m)) := by
  have hnone (hl : Begins (· == ';') l) : Reads semicolon number l none := fun p rest hp => by
    rw [semicolon, Expr.run, hp.step?_eq_none hl (by decide) (by decide)]
    rfl
  cases hl : semicolon? l with
  | none =>
    apply hnone
    intro c hc
    obtain ⟨cs, rfl⟩ := List.head?_eq_some_iff.mp hc
    rw [beq_eq_false_iff_ne]
    rintro rfl
    cases hl
  | some m =>
    obtain rfl := Record.semicolon?_eq_some.mp hl
    intro p rest hp
    obtain ⟨q, hstep, hq⟩ := hp.step? (k := (· == ';')) rfl
    exact ⟨q, by rw [semicolon, Expr.run, hstep]; rfl, hq⟩

theorem reads_field (number : Nat) (l : List Char) :
    Reads field number l
      (some ([⟨.field, number, l.takeWhile isFree, []⟩], l.dropWhile isFree)) :=
  Reads.token takes_free (by decide) (by decide) _ _ _

theorem reads_name (number : Nat) (l : List Char) :
    Reads name number l
      (some ([⟨.name, number, l.takeWhile isFree, []⟩], l.dropWhile isFree)) :=
  Reads.token takes_free (by decide) (by decide) _ _ _

theorem reads_code (number : Nat) (l : List Char) :
    Reads code number l (if l.head?.any Hex.isDigit then
      some ([⟨.code, number, l.takeWhile Hex.isDigit, []⟩], l.dropWhile Hex.isDigit) else none) :=
  Reads.row (Expr.takes_char _) (Expr.takes_char _) (fun _ => id) (by decide) (by decide) _ _ _

theorem reads_category (number : Nat) (l : List Char) :
    Reads category number l (if l.head?.any Char.isAlpha then
      some ([⟨.category, number, l.takeWhile Char.isAlphanum, []⟩], l.dropWhile Char.isAlphanum)
      else none) := by
  apply Reads.row (Expr.takes_char _) (Expr.takes_char _) _ (by decide) (by decide)
  intro c hc
  rw [Char.isAlphanum, hc, Bool.true_or]

theorem reads_badLine (number : Nat) (l : List Char) :
    Reads badLine number l (if l.head?.any isInner then
      some ([⟨.badLine, number, l.takeWhile isInner, []⟩], l.dropWhile isInner) else none) :=
  Reads.row takes_inner takes_inner (fun _ => id) (by decide) (by decide) _ _ _

/-- Within a line, a field ends at a semicolon or a comment. -/
theorem takeWhile_isFree (hl : l.all isInner = true) :
    l.takeWhile isFree = l.takeWhile isFieldChar := by
  induction l with
  | nil => rfl
  | cons c l ih =>
    rw [List.all_cons, Bool.and_eq_true] at hl
    rw [List.takeWhile_cons, List.takeWhile_cons, ih hl.2, isFree, hl.1, Bool.and_true]

theorem dropWhile_isFree (hl : l.all isInner = true) :
    l.dropWhile isFree = l.dropWhile isFieldChar := by
  induction l with
  | nil => rfl
  | cons c l ih =>
    rw [List.all_cons, Bool.and_eq_true] at hl
    rw [List.dropWhile_cons, List.dropWhile_cons, ih hl.2, isFree, hl.1, Bool.and_true]

/-- Where a field ends and no other one begins, there is nothing left but a comment. -/
theorem behind_dropWhile_isFree (hl : (l.dropWhile isFree).all isInner = true)
    (h : semicolon? (behind (l.dropWhile isFree)) = none) : behind (l.dropWhile isFree) = [] := by
  have hbegins := begins_dropWhile isFree l
  cases hrest : l.dropWhile isFree with
  | nil => rfl
  | cons c cs =>
    rw [hrest] at hbegins hl h
    rw [List.all_cons, Bool.and_eq_true] at hl
    have hc : c = ';' ∨ c = '#' := by
      have hfree := begins_cons.mp hbegins
      rw [isFree, hl.1, Bool.and_true] at hfree
      grind [isFieldChar]
    rcases hc with rfl | rfl
    · rw [behind_eq_self (begins_cons.mpr (by decide)) (by simp)] at h
      cases h
    · exact behind_eq_nil (begins_cons.mpr (by decide)) rfl

/-- Fields are taken up to the end of the line or up to a comment, unless the first one is missing
and something else stands there. -/
theorem exists_further (number : Nat) (hl : l.all isInner = true) (hbehind : behind l = l) :
    ∃ xs l', Reads further number l (some (xs, l')) ∧ (behind l' = [] ↔ mayEnd l = true) := by
  -- every round takes a semicolon, so the rest of the line gets shorter
  induction hn : l.length using Nat.strong_induction_on generalizing l with
  | _ n ih =>
    cases hsemicolon : semicolon? l with
    | none =>
      have hround : Reads (.seq semicolon field) number l none := by
        apply Reads.seq_none
        simpa [hsemicolon] using reads_semicolon number l
      refine ⟨[], l, Reads.star_none hround, ?_⟩
      rw [hbehind]
      cases l with
      | nil => simp [mayEnd]
      | cons c cs =>
        have hsign := ne_sign_of_behind hbehind
        have hother : c ≠ ';' := by
          rintro rfl
          cases hsemicolon
        simp [mayEnd, isFieldChar, hsign, hother]
    | some cs =>
      obtain rfl := Record.semicolon?_eq_some.mp hsemicolon
      have hround (cs : List Char) : ∃ xs, Reads (.seq semicolon field) number (';' :: cs)
          (some (xs, (behind cs).dropWhile isFree)) :=
        ⟨_, (reads_semicolon number (';' :: cs)).seq (reads_field number (behind cs))⟩
      have hshorter (cs : List Char) :
          ((behind cs).dropWhile isFree).length ≤ cs.length :=
        (List.length_dropWhile_le isFree _).trans (length_behind_le cs)
      have hrest : ((behind cs).dropWhile isFree).all isInner = true :=
        all_dropWhile (all_behind (all_of_semicolon? hsemicolon hl))
      obtain ⟨xs, hfirst⟩ := hround cs
      cases hnext : semicolon? (behind ((behind cs).dropWhile isFree)) with
      | none =>
        refine ⟨xs, _, hfirst.star_last (Reads.seq_none ?_), iff_of_true ?_ rfl⟩
        · simpa [hnext] using reads_semicolon number (behind ((behind cs).dropWhile isFree))
        · exact behind_dropWhile_isFree hrest hnext
      | some ds =>
        have hbegin := Record.semicolon?_eq_some.mp hnext
        have hle := length_behind_le ((behind cs).dropWhile isFree)
        have hlt := congrArg List.length hbegin
        rw [List.length_cons] at hlt hn
        obtain ⟨ys, l', hstar, hend⟩ := ih _ (by grind) (all_behind hrest) (behind_behind _) rfl
        obtain ⟨zs, hsecond⟩ := hround ds
        rw [← hbegin] at hsecond
        refine ⟨xs ++ ys, l', hfirst.star_more hsecond (by grind) hstar, ?_⟩
        rw [hend, hbegin]
        exact iff_of_true rfl rfl

theorem reads_category_none (number : Nat) (h : (skipBlanks m).head?.any Char.isAlpha = false) :
    Reads (.seq category further) number (behind m) none := by
  apply Reads.seq_none
  have hhead : (behind m).head?.any Char.isAlpha = false := by
    unfold behind
    split
    · rfl
    · exact h
  simpa [hhead] using reads_category number (behind m)

/-- A category may end a line. -/
theorem exists_category (number : Nat) (hm : m.all isInner = true)
    (h : (skipBlanks m).head?.any Char.isAlpha = true) :
    ∃ xs l', Reads (.seq category further) number (behind m)
        (some (⟨.category, number, (skipBlanks m).takeWhile Char.isAlphanum, []⟩ :: xs, l')) ∧
      (behind l' = [] ↔ mayEnd (skipBlanks ((skipBlanks m).dropWhile Char.isAlphanum)) = true) := by
  have hbehind : behind m = skipBlanks m := by
    rw [behind, if_neg]
    intro hsign
    rw [hsign] at h
    cases h
  have hcategory := reads_category number (skipBlanks m)
  rw [if_pos h] at hcategory
  obtain ⟨xs, l', hfurther, hend⟩ := exists_further number
    (all_behind (all_dropWhile (k := Char.isAlphanum) (all_dropWhile (k := isBlank) hm)))
    (behind_behind _)
  refine ⟨xs, l', hbehind ▸ hcategory.seq hfurther, ?_⟩
  rw [hend, mayEnd_behind]
  rfl

/-- Blanks in front of a name belong to its characters. -/
theorem dropWhile_skipBlanks (l : List Char) :
    (skipBlanks l).dropWhile isFieldChar = l.dropWhile isFieldChar := by
  have hblanks : ∀ c ∈ l.takeWhile isBlank, isFieldChar c = true := fun c hc =>
    Record.isFieldChar_of_isBlank c (List.mem_takeWhile_imp hc)
  rw [← List.dropWhile_append_of_pos hblanks, skipBlanks, List.takeWhile_append_dropWhile]

theorem trim_skipBlanks (l : List Char) :
    Blank.trim ((skipBlanks l).takeWhile isFieldChar) = Blank.trim (l.takeWhile isFieldChar) := by
  have hblanks : ∀ c ∈ l.takeWhile isBlank, isFieldChar c = true := fun c hc =>
    Record.isFieldChar_of_isBlank c (List.mem_takeWhile_imp hc)
  have hspace : ∀ c ∈ l.takeWhile isBlank, Blank.isSpace c = true := fun c hc =>
    Record.isSpace_of_isBlank c (List.mem_takeWhile_imp hc)
  have htake : (l.takeWhile isBlank ++ skipBlanks l).takeWhile isFieldChar =
      l.takeWhile isBlank ++ (skipBlanks l).takeWhile isFieldChar :=
    List.takeWhile_append_of_pos hblanks
  rw [skipBlanks, List.takeWhile_append_dropWhile] at htake
  rw [htake, Blank.trim, Blank.trim, List.dropWhile_append_of_pos hspace, skipBlanks]

/-- A name ends at the same semicolon whether or not the blanks in front of it are passed over. -/
theorem semicolon?_name (hl : l.all isInner = true) :
    semicolon? (behind ((behind l).dropWhile isFree)) = semicolon? (l.dropWhile isFieldChar) := by
  have hself : skipBlanks (l.dropWhile isFieldChar) = l.dropWhile isFieldChar :=
    dropWhile_of_begins ((begins_dropWhile isFieldChar l).mono Record.isFieldChar_of_isBlank)
  rw [semicolon?_behind, dropWhile_isFree (all_behind hl)]
  unfold behind
  split
  · rename_i hsign
    obtain ⟨cs, hcs⟩ := List.head?_eq_some_iff.mp hsign
    rw [← dropWhile_skipBlanks l, hcs]
    rfl
  · rw [dropWhile_skipBlanks, hself]

theorem reads_name_none (number : Nat) (hl : l.all isInner = true)
    (h : semicolon? (l.dropWhile isFieldChar) = none) :
    Reads (.seq name (.seq semicolon e)) number (behind l) none := by
  have hnext := reads_semicolon number (behind ((behind l).dropWhile isFree))
  rw [semicolon?_name hl, h, Option.map_none] at hnext
  exact (reads_name number (behind l)).seq (hnext.seq_none : Reads _ _ _ none)

theorem exists_name (hl : l.all isInner = true) (h : semicolon? (l.dropWhile isFieldChar) = some m)
    (he : Reads e number (behind m) out) :
    ∃ text, Blank.trim text = Blank.trim (l.takeWhile isFieldChar) ∧
      Reads (.seq name (.seq semicolon e)) number (behind l)
        (out.map fun (xs, l') => (⟨.name, number, text, []⟩ :: xs, l')) := by
  have hnext := reads_semicolon number (behind ((behind l).dropWhile isFree))
  rw [semicolon?_name hl, h, Option.map_some] at hnext
  have hbehind : behind l = skipBlanks l := by
    rw [behind, if_neg]
    intro hsign
    obtain ⟨cs, hcs⟩ := List.head?_eq_some_iff.mp hsign
    rw [← dropWhile_skipBlanks, hcs] at h
    cases h
  refine ⟨(behind l).takeWhile isFree, ?_, ?_⟩
  · rw [takeWhile_isFree (all_behind hl), hbehind, trim_skipBlanks]
  · have hname := (reads_name number (behind l)).seq (hnext.seq he)
    cases out <;> exact hname

/-- A record is taken to be one only if nothing but a comment stands behind it. -/
theorem reads_lineEnd (number : Nat) (l : List Char) :
    Reads lineEnd number l (if l = [] then some ([], l) else none) := by
  have hsome {p : Cursor} {rest : List Char} (hp : At p number l rest) :
      ((Expr.alt newline endOfInput).run gap false p).isSome = decide (l = []) := by
    have hend : (endOfInput.run gap false p).isSome = decide (p.after = []) := by
      rw [endOfInput, Expr.run, Expr.run]
      by_cases h : p.after = [] <;> simp [h]
    rw [Expr.isSome_alt, isSome_newline, hend, hp.after]
    cases l with
    | nil =>
      have hrest := hp.ends
      cases rest with
      | nil => rfl
      | cons c rest => simp [begins_cons.mp hrest]
    | cons c l =>
      have hinner := hp.inner
      rw [List.all_cons, Bool.and_eq_true] at hinner
      simp [hinner.1]
  by_cases hl : l = []
  · rw [if_pos hl]
    intro p rest hp
    obtain ⟨out, hrun⟩ := Option.isSome_iff_exists.mp ((hsome hp).trans (decide_eq_true hl))
    exact ⟨p, by rw [lineEnd, Expr.run, hrun], hp⟩
  · rw [if_neg hl]
    intro p rest hp
    have hrun := Option.not_isSome_iff_eq_none.mp
      (Bool.eq_false_iff.mp ((hsome hp).trans (decide_eq_false hl)))
    rw [lineEnd, Expr.run, hrun]

/-! ## Whole lines -/

/-- What the reader asks of a line that begins with no blank. -/
theorem ofChars?_of_begins (hl : Begins isBlank l) :
    ofChars? l =
      if l.head?.any Hex.isDigit then
        (semicolon? (skipBlanks (l.dropWhile Hex.isDigit))).bind fun named =>
          (semicolon? (named.dropWhile isFieldChar)).bind fun m =>
            if (skipBlanks m).head?.any Char.isAlpha &&
                mayEnd (skipBlanks ((skipBlanks m).dropWhile Char.isAlphanum)) then
              some ⟨Hex.digitsValue (l.takeWhile Hex.isDigit),
                String.ofList (Blank.trim (named.takeWhile isFieldChar)),
                String.ofList ((skipBlanks m).takeWhile Char.isAlphanum)⟩
            else none
      else none := by
  have hself : skipBlanks l = l := dropWhile_of_begins hl
  have hdigits : (!(l.takeWhile Hex.isDigit).isEmpty) = l.head?.any Hex.isDigit := by
    cases l with
    | nil => rfl
    | cons c cs => cases hc : Hex.isDigit c <;> simp [hc]
  have hletter (m : List Char) :
      (m.takeWhile Char.isAlphanum).head?.any Char.isAlpha = m.head?.any Char.isAlpha := by
    cases m with
    | nil => rfl
    | cons c cs => cases hc : Char.isAlphanum c <;> simp_all [Char.isAlphanum]
  rw [ofChars?, hself, hdigits]
  cases l.head?.any Hex.isDigit with
  | false => rfl
  | true =>
    cases hnamed : semicolon? (skipBlanks (l.dropWhile Hex.isDigit)) with
    | none => rfl
    | some named =>
      cases hm : semicolon? (named.dropWhile isFieldChar) with
      | none => simp [guard, hm]
      | some m =>
        cases hinitial : (skipBlanks m).head?.any Char.isAlpha <;>
          cases hend : mayEnd (skipBlanks ((skipBlanks m).dropWhile Char.isAlphanum)) <;>
          simp [guard, hm, hletter, hinitial, hend]

/-- The parts of a record stand in a line exactly when the reader finds a record there that ends
with the line. -/
theorem exists_parts (number : Nat) (hl : l.all isInner = true) (hblank : Begins isBlank l) :
    (Reads parts number l none ∧ ofChars? l = none) ∨
      ∃ xs l' r, Reads parts number l (some (xs, l')) ∧ record? xs = some r ∧
        ofChars? l = if behind l' = [] then some r else none := by
  have hcode := reads_code number l
  rw [ofChars?_of_begins hblank]
  -- a part is missing in the line just where the reader misses it
  cases hdigit : l.head?.any Hex.isDigit with
  | false =>
    rw [hdigit] at hcode
    exact .inl ⟨hcode.seq_none, rfl⟩
  | true =>
    rw [hdigit] at hcode
    have hsemicolon := reads_semicolon number (behind (l.dropWhile Hex.isDigit))
    rw [semicolon?_behind] at hsemicolon
    cases hgap : semicolon? (skipBlanks (l.dropWhile Hex.isDigit)) with
    | none =>
      rw [hgap] at hsemicolon
      exact .inl ⟨hcode.seq hsemicolon.seq_none, rfl⟩
    | some named =>
      rw [hgap] at hsemicolon
      have hinner : named.all isInner = true :=
        all_of_semicolon? hgap (all_dropWhile (k := isBlank) (all_dropWhile (k := Hex.isDigit) hl))
      cases hname : semicolon? (named.dropWhile isFieldChar) with
      | none =>
        have hnone := reads_name_none (e := .seq category further) number hinner hname
        exact .inl ⟨hcode.seq (hsemicolon.seq hnone), by simp [hname]⟩
      | some m =>
        have hm : m.all isInner = true :=
          all_of_semicolon? hname (all_dropWhile (k := isFieldChar) hinner)
        cases hinitial : (skipBlanks m).head?.any Char.isAlpha with
        | false =>
          obtain ⟨text, -, hnamed⟩ := exists_name hinner hname (reads_category_none number hinitial)
          exact .inl ⟨hcode.seq (hsemicolon.seq hnamed), by simp [hname, hinitial]⟩
        | true =>
          obtain ⟨xs, l', hcategory, hend⟩ := exists_category number hm hinitial
          obtain ⟨text, htext, hnamed⟩ := exists_name hinner hname hcategory
          refine .inr ⟨_, l', _, hcode.seq (hsemicolon.seq hnamed), rfl, ?_⟩
          simp [hname, hinitial, hend, htext]

theorem contributions_of_behind (number : Nat) (hbehind : behind l = l) (hl : l ≠ []) :
    Line.contributions ⟨number, l⟩ = [(ofChars? l).elim (.malformed number l) .entry] := by
  obtain ⟨c, cs, rfl⟩ := List.exists_cons_of_ne_nil hl
  have hsign := ne_sign_of_behind hbehind
  have hself : skipBlanks (c :: cs) = c :: cs :=
    dropWhile_of_begins (hbehind ▸ begins_behind (c :: cs))
  rw [Line.contributions, Line.content, Record.ofChars_eq hself hsign]
  cases ofChars? (c :: cs) <;> rfl

/-- The blanks in front of a line and a comment there say nothing. -/
theorem contributions_behind (number : Nat) (l : List Char) :
    Line.contributions ⟨number, behind l⟩ = Line.contributions ⟨number, l⟩ := by
  have hcontent : Content.ofChars (behind l) = Content.ofChars l := by
    by_cases hsign : (skipBlanks l).head? = some '#'
    · obtain ⟨cs, hcs⟩ := List.head?_eq_some_iff.mp hsign
      rw [behind, if_pos hsign, Content.ofChars.eq_def l, hcs]
      rfl
    · have hself : skipBlanks (skipBlanks l) = skipBlanks l :=
        dropWhile_of_begins (begins_dropWhile isBlank l)
      rw [behind, if_neg hsign, Content.ofChars, hself, Content.ofChars]
  simp only [Line.contributions, Line.content, hcontent]

/-- A line that holds anything is taken as a record or else as malformed, in full. -/
theorem exists_record (number : Nat) (hl : l.all isInner = true) (hbehind : behind l = l) :
    ∃ xs l', Reads (.optional record) number l (some (xs, l')) ∧ behind l' = [] ∧
      xs.map contribution? = (Line.contributions ⟨number, l⟩).map some := by
  have hbad := reads_badLine number l
  by_cases hnil : l = []
  · subst hnil
    have hline : Reads line number [] none := Reads.rule (reads_code number []).seq_none _
    exact ⟨[], [], (Reads.alt_right hline.seq_none hbad).optional, rfl, rfl⟩
  · have hhead : l.head?.any isInner = true := by
      obtain ⟨c, cs, rfl⟩ := List.exists_cons_of_ne_nil hnil
      exact List.all_eq_true.mp hl c (List.mem_cons_self ..)
    rw [if_pos hhead, List.takeWhile_eq_self_iff.mpr (List.all_eq_true.mp hl),
      List.dropWhile_eq_nil_iff.mpr (List.all_eq_true.mp hl)] at hbad
    rw [contributions_of_behind number hbehind hnil]
    -- a record that does not end with the line is given back, and the bad line begins anew
    have hmalformed (hline : Reads (.seq line lineEnd) number l none) :
        Reads (.optional record) number l (some ([⟨.badLine, number, l.take l.length, []⟩], [])) :=
      List.take_length ▸ (Reads.alt_right hline hbad).optional
    have hblank : Begins isBlank l := hbehind ▸ begins_behind l
    obtain ⟨hparts, hread⟩ | ⟨xs, l', r, hparts, hr, hread⟩ := exists_parts number hl hblank
    · refine ⟨_, [], hmalformed (hparts.rule Rule.line).seq_none, rfl, ?_⟩
      simp [hread, contribution?]
    · have hline := (hparts.rule Rule.line).seq (reads_lineEnd number (behind l'))
      by_cases hend : behind l' = []
      · rw [if_pos hend] at hline hread
        refine ⟨_, _, (Reads.alt_left hline).optional, by rw [behind_behind, hend], ?_⟩
        simp [hread, contribution?, hr]
      · rw [if_neg hend] at hline hread
        refine ⟨_, [], hmalformed hline, rfl, ?_⟩
        simp [hread, contribution?]

end DataFile

end BitClassifier
