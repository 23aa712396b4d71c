import BitClassifier.Proofs.Table.Offences

/-!
# Why a data file is refused

Whether a text has a table depends on its records alone, and it is refused for what is wrong with
them first (`ofText_refused_for_first`). The records are gone through in steps that take away a
record by itself or a range of two.
-/

namespace BitClassifier

namespace Reading

open Records

/-- Reads records one after another. -/
def ofRecords (records : List Record) : Reading :=
  ofContributions none (records.map .entry)

variable {opened : Option (CodeValue × String)} {r r' : Record} {records : List Record}
  {e : ReadError}

theorem add_eq_error {x : Reading} {b : Block} :
    (x.add b).table = .error e ↔ x.table = .error e := by
  cases h : x.table <;> simp [table_add, h, Except.map]

/-- What is reported behind an entry has no part in the table. -/
theorem table_ofEntry {rest rest' : Option (CodeValue × String) → Reading}
    (h : ∀ opened, (rest opened).table = (rest' opened).table) :
    (ofEntry opened r rest).table = (ofEntry opened r rest').table := by
  have hadd (b : Block) : ((rest none).add b).table = ((rest' none).add b).table := by
    rw [table_add, table_add, h]
  unfold ofEntry
  split
  · rfl
  · cases opened with
    | none =>
      dsimp only
      split
      · exact h _
      · exact hadd _
    | some range =>
      dsimp only
      split
      · rfl
      · exact hadd _

/-- The table depends on the records alone. -/
theorem table_ofContributions (opened : Option (CodeValue × String)) (cs : List Contribution) :
    (ofContributions opened cs).table =
      (ofContributions opened ((cs.filterMap Contribution.record?).map .entry)).table := by
  induction cs generalizing opened with
  | nil => rfl
  | cons c cs ih =>
    cases c with
    | entry r => exact table_ofEntry ih
    | malformed number text => exact ih opened

theorem table_ofText {text : String} (h : RecordsOf text records) :
    (ofText text).table = (ofRecords records).table := by
  rw [ofText, ofLines_eq, table_ofContributions, recordsOf_iff.mp h, ofRecords]

theorem ofRecords_cons (r : Record) (records : List Record) :
    ofRecords (r :: records) =
      ofEntry none r fun opened => ofContributions opened (records.map .entry) := rfl

theorem ofRecords_tooLarge (hcode : UInt32.size ≤ r.code) (records : List Record) :
    (ofRecords (r :: records)).table = .error .codeTooLarge := by
  rw [ofRecords_cons, ofEntry, if_pos hcode]
  rfl

theorem ofRecords_single (hcode : r.code < UInt32.size) (hname : ¬"First>".toList <:+ r.name.toList)
    (records : List Record) :
    (ofRecords (r :: records)).table = .error e ↔ (ofRecords records).table = .error e := by
  rw [ofRecords_cons, ofEntry, if_neg (Nat.not_le.mpr hcode)]
  dsimp only
  rw [if_neg (mt Record.opensRange_iff.mp hname), add_eq_error]
  rfl

/-- A record that opens a range leaves the rest to the record that closes it. -/
theorem ofRecords_opening (hcode : r.code < UInt32.size) (hname : "First>".toList <:+ r.name.toList)
    (records : List Record) :
    ofRecords (r :: records) =
      ofContributions (some (BitVec.ofNat 32 r.code, r.category)) (records.map .entry) := by
  rw [ofRecords_cons, ofEntry, if_neg (Nat.not_le.mpr hcode)]
  dsimp only
  rw [if_pos (Record.opensRange_iff.mpr hname)]

/-- The error that records are read with is the only reason to refuse them. -/
theorem error_iff_of_fails {e' : ReadError} (htable : (ofRecords records).table = .error e')
    (hfails : Fails records e') : (ofRecords records).table = .error e ↔ Fails records e := by
  constructor
  · intro h
    rw [htable, Except.error.injEq] at h
    exact h ▸ hfails
  · intro h
    rw [htable, hfails.unique h]

/-- Records without an offence and without an open range go before others without a trace. -/
theorem error_iff_of_settled (front rest : List Record) (hsettled : Settled front)
    (hclean : CleanBelow front front.length)
    (htable : (ofRecords (front ++ rest)).table = .error e ↔ (ofRecords rest).table = .error e)
    (ih : (ofRecords rest).table = .error e ↔ Fails rest e) :
    (ofRecords (front ++ rest)).table = .error e ↔ Fails (front ++ rest) e := by
  rw [htable, ih, hsettled.fails_append hclean]

/-- A range of two records. -/
theorem error_iff_of_range (hcode : r.code < UInt32.size) (hname : "First>".toList <:+ r.name.toList)
    (ih : (ofRecords records).table = .error e ↔ Fails records e) :
    (ofRecords (r :: r' :: records)).table = .error e ↔ Fails (r :: r' :: records) e := by
  have hopening := ofRecords_opening hcode hname (r' :: records)
  rw [List.map_cons, ofContributions, ofEntry] at hopening
  by_cases hcode' : UInt32.size ≤ r'.code
  · rw [if_pos hcode'] at hopening
    exact error_iff_of_fails (by rw [hopening]; rfl)
      (fails_of_closing_tooLarge hcode hcode' records)
  · rw [if_neg hcode'] at hopening
    rw [Nat.not_le] at hcode'
    have hless := code_lt_iff hcode' hcode
    dsimp only at hopening
    by_cases hordered : r'.code < r.code
    · rw [if_pos (hless.mpr hordered)] at hopening
      exact error_iff_of_fails (by rw [hopening]; rfl)
        (fails_of_reversed hcode hname hcode' hordered records)
    · rw [if_neg (mt hless.mp hordered)] at hopening
      refine error_iff_of_settled [r, r'] records (settled_range hname)
        (clean_range hcode hcode' (Nat.not_lt.mp hordered)) ?_ ih
      rw [List.cons_append, List.cons_append, List.nil_append, hopening]
      exact add_eq_error

/-- Records are read with an error exactly if they are to be refused for it. -/
theorem error_iff_fails (records : List Record) (e : ReadError) :
    (ofRecords records).table = .error e ↔ Fails records e := by
  induction hn : records.length using Nat.strong_induction_on generalizing records with
  | _ n ih =>
    cases records with
    | nil =>
      constructor
      · intro h
        cases h
      · rintro (⟨i, hi, -⟩ | ⟨-, first, ⟨i, opening, hopens, -⟩, -⟩)
        · exact absurd hi.lt_length (Nat.not_lt_zero i)
        · exact absurd hopens.lt_length (Nat.not_lt_zero i)
    | cons r records =>
      rw [List.length_cons] at hn
      by_cases hcode : UInt32.size ≤ r.code
      · exact error_iff_of_fails (ofRecords_tooLarge hcode records)
          (fails_of_tooLarge hcode records)
      · rw [Nat.not_le] at hcode
        by_cases hname : "First>".toList <:+ r.name.toList
        · cases records with
          | nil =>
            exact error_iff_of_fails (by rw [ofRecords_opening hcode hname]; rfl)
              (fails_of_unclosed hcode hname)
          | cons r' records =>
            rw [List.length_cons] at hn
            exact error_iff_of_range hcode hname (ih _ (by omega) records rfl)
        · exact error_iff_of_settled [r] records (settled_single hname) (clean_first hcode [])
            (ofRecords_single hcode hname records) (ih _ (by omega) records rfl)

/-- A text is refused for the first offence of its records: a code that is no code value, or a
range that ends below its beginning. If there is no offence, it is refused for a range that the last
record opens, and read in all other cases. Only the records matter, so a line that holds none
neither brings an error nor hides one. -/
theorem ofText_refused_for_first (text : String) :
    ∃ records, (∀ rs, RecordsOf text rs ↔ rs = records) ∧
      ((ofText text).table = .error .codeTooLarge ↔ FirstOffence records .codeTooLarge) ∧
      (∀ first last, (ofText text).table = .error (.emptyRange first last) ↔
        FirstOffence records (.emptyRange first last)) ∧
      (∀ first, (ofText text).table = .error (.unclosedRange first) ↔
        CleanBelow records records.length ∧ Unclosed records first) ∧
      ((∃ table, (ofText text).table = .ok table) ↔
        CleanBelow records records.length ∧ ∀ first, ¬Unclosed records first) ∧
      ∀ other, RecordsOf other records → (ofText other).table = (ofText text).table := by
  obtain ⟨records, hrecords⟩ : ∃ records, ∀ rs, RecordsOf text rs ↔ rs = records :=
    ⟨_, fun rs => recordsOf_iff⟩
  have htext : (ofText text).table = (ofRecords records).table :=
    table_ofText ((hrecords records).mpr rfl)
  have herror (e : ReadError) : (ofText text).table = .error e ↔ Fails records e := by
    rw [htext, error_iff_fails]
  refine ⟨records, hrecords, ?_, fun first last => ?_, fun first => ?_, ?_, fun other hother => ?_⟩
  · rw [herror, fails_codeTooLarge_iff]
  · rw [herror, fails_emptyRange_iff]
  · rw [herror, fails_unclosedRange_iff]
  · rw [← not_fails_iff]
    simp only [← herror]
    cases (ofText text).table <;> simp
  · rw [htext, table_ofText hother]

/-- The second record closes the range, although its name says that it opens one. -/
example : (ofText "10;<A, First>;Lo\n?\n20;<B, First>;Lu").table =
    .ok ⟨[⟨0x10, 0x20, "Lo"⟩]⟩ := by rfl

end Reading

end BitClassifier
