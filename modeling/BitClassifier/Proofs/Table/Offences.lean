import BitClassifier.Proofs.Table.Contributions

/-!
# What may be wrong with records

The records of a text are those on its lines (`RecordsOf`). A record opens a range if its name says
so and it does not close one itself (`Opens`). It is an offence if a code is no code value or a
range ends below its beginning. Records are refused for their first offence, and if there is none,
for a range that is open at the end (`Fails`); there is at most one reason (`Fails.unique`).

Records that leave no range open and have no offence can be taken away in front of others
(`Settled.fails_append`): a record by itself, or the two records of a range.
-/

namespace BitClassifier

/-- The record that a line contributes, if there is one. -/
def Contribution.record? : Contribution → Option Record
  | .entry r => some r
  | .malformed .. => none

/-- The records of a text are those on its lines, in their order. -/
def RecordsOf (text : String) (records : List Record) : Prop :=
  ∃ lines contributions, Delimits 1 text.toList lines ∧
    List.Forall₂ Contributes lines contributions ∧
    records = contributions.flatten.filterMap Contribution.record?

/-- A text has records in one way. -/
theorem recordsOf_iff {text : String} {records : List Record} :
    RecordsOf text records ↔
      records = ((Line.ofText text.toList).flatMap Line.contributions).filterMap
        Contribution.record? := by
  constructor
  · intro ⟨lines, contributions, hlines, hcontributions, hrecords⟩
    rw [hrecords, forall₂_contributes_iff.mp hcontributions, delimits_iff.mp hlines, Line.ofText,
      List.flatMap_def]
  · intro h
    exact ⟨_, _, delimits_iff.mpr rfl, forall₂_contributes_iff.mpr rfl, h⟩

namespace Records

/-- Whether the record at a position opens a range: its name says so, and it is not the record that
closes the range before it. -/
def Opens (records : List Record) : Nat → Prop
  | 0 => ∃ r, records[0]? = some r ∧ "First>".toList <:+ r.name.toList
  | i + 1 =>
    (∃ r, records[i + 1]? = some r ∧ "First>".toList <:+ r.name.toList) ∧ ¬Opens records i

/-- What may be wrong with the record at a position. -/
inductive Offence (records : List Record) : Nat → ReadError → Prop
  /-- The code is no code value. -/
  | codeTooLarge {i : Nat} {r : Record} (h : records[i]? = some r)
    (hcode : UInt32.size ≤ r.code) : Offence records i .codeTooLarge
  /-- The record closes a range that begins above it. -/
  | emptyRange {i : Nat} {opening closing : Record} {first last : CodeValue}
    (hopens : Opens records i) (hopening : records[i]? = some opening)
    (hclosing : records[i + 1]? = some closing) (hfirst : opening.code = first.toNat)
    (hlast : closing.code = last.toNat) (h : last < first) :
    Offence records (i + 1) (.emptyRange first last)

/-- Whether nothing is wrong with the records below a position. -/
def CleanBelow (records : List Record) (n : Nat) : Prop :=
  ∀ i < n, ∀ e, ¬Offence records i e

/-- Whether an error is the first offence. -/
def FirstOffence (records : List Record) (e : ReadError) : Prop :=
  ∃ i, Offence records i e ∧ CleanBelow records i

/-- Whether the last record opens a range, which begins with the value `first`. -/
def Unclosed (records : List Record) (first : CodeValue) : Prop :=
  ∃ i opening, Opens records i ∧ records[i]? = some opening ∧ records[i + 1]? = none ∧
    opening.code = first.toNat

/-- Why records are refused. -/
def Fails (records : List Record) (e : ReadError) : Prop :=
  FirstOffence records e ∨ CleanBelow records records.length ∧
    ∃ first, Unclosed records first ∧ e = .unclosedRange first

/-- Whether every range is closed. -/
def Settled (records : List Record) : Prop :=
  ∀ i, Opens records i → i + 1 < records.length

variable {records front : List Record} {r r' : Record} {i : Nat} {e e' : ReadError}
  {first last : CodeValue}

/-! ### Positions -/

theorem Opens.exists_record (h : Opens records i) :
    ∃ r, records[i]? = some r ∧ "First>".toList <:+ r.name.toList := by
  cases i with
  | zero => exact h
  | succ i => exact h.1

theorem Opens.lt_length (h : Opens records i) : i < records.length := by
  obtain ⟨r, hr, -⟩ := h.exists_record
  exact (List.getElem?_eq_some_iff.mp hr).1

theorem Offence.lt_length (h : Offence records i e) : i < records.length := by
  cases h with
  | codeTooLarge h hcode => exact (List.getElem?_eq_some_iff.mp h).1
  | emptyRange hopens hopening hclosing => exact (List.getElem?_eq_some_iff.mp hclosing).1

/-- A record that ends a range has a code value. -/
theorem lt_size_of_closing {closing : Record} (hclosing : records[i]? = some closing)
    (hlast : closing.code = last.toNat) (h : records[i]? = some r) : r.code < UInt32.size := by
  rw [h, Option.some.injEq] at hclosing
  rw [hclosing, hlast]
  exact last.isLt

/-- A record can be wrong in one way only. -/
theorem Offence.unique (h : Offence records i e) (h' : Offence records i e') : e = e' := by
  cases h with
  | codeTooLarge h hcode =>
    cases h' with
    | codeTooLarge h' hcode' => rfl
    | emptyRange hopens hopening hclosing hfirst hlast hless =>
      exact absurd (lt_size_of_closing hclosing hlast h) (Nat.not_lt.mpr hcode)
  | emptyRange hopens hopening hclosing hfirst hlast hless =>
    cases h' with
    | codeTooLarge h' hcode' =>
      exact absurd (lt_size_of_closing hclosing hlast h') (Nat.not_lt.mpr hcode')
    | emptyRange hopens' hopening' hclosing' hfirst' hlast' hless' =>
      rw [hopening, Option.some.injEq] at hopening'
      rw [hclosing, Option.some.injEq] at hclosing'
      rw [hopening', hfirst'] at hfirst
      rw [hclosing', hlast'] at hlast
      rw [BitVec.eq_of_toNat_eq hfirst, BitVec.eq_of_toNat_eq hlast]

theorem FirstOffence.unique (h : FirstOffence records e) (h' : FirstOffence records e') :
    e = e' := by
  obtain ⟨i, hi, hbelow⟩ := h
  obtain ⟨j, hj, hbelow'⟩ := h'
  rcases Nat.lt_trichotomy i j with hlt | rfl | hlt
  · exact absurd hi (hbelow' i hlt e)
  · exact hi.unique hj
  · exact absurd hj (hbelow j hlt e')

/-- If there is an offence, there is a first one. -/
theorem exists_firstOffence (h : Offence records i e) : ∃ e, FirstOffence records e := by
  induction i using Nat.strong_induction_on generalizing e with
  | _ i ih =>
    by_cases hbelow : CleanBelow records i
    · exact ⟨e, i, h, hbelow⟩
    · simp only [CleanBelow, not_forall, not_not] at hbelow
      obtain ⟨j, hj, e', he'⟩ := hbelow
      exact ih j hj he'

theorem Unclosed.unique {first' : CodeValue} (h : Unclosed records first)
    (h' : Unclosed records first') : first = first' := by
  obtain ⟨i, opening, hopens, hopening, hend, hfirst⟩ := h
  obtain ⟨j, opening', hopens', hopening', hend', hfirst'⟩ := h'
  have hi := hopens.lt_length
  have hj := hopens'.lt_length
  rw [List.getElem?_eq_none_iff] at hend hend'
  have hij : i = j := by omega
  subst hij
  rw [hopening, Option.some.injEq] at hopening'
  rw [hopening', hfirst'] at hfirst
  exact (BitVec.eq_of_toNat_eq hfirst).symm

theorem Fails.unique (h : Fails records e) (h' : Fails records e') : e = e' := by
  rcases h with h | ⟨hclean, first, hfirst, rfl⟩
  · rcases h' with h' | ⟨hclean', -⟩
    · exact h.unique h'
    · obtain ⟨i, hi, -⟩ := h
      exact absurd hi (hclean' i hi.lt_length e)
  · rcases h' with ⟨i, hi, -⟩ | ⟨-, first', hfirst', rfl⟩
    · exact absurd hi (hclean i hi.lt_length e')
    · rw [hfirst.unique hfirst']

theorem fails_codeTooLarge_iff :
    Fails records .codeTooLarge ↔ FirstOffence records .codeTooLarge := by
  simp [Fails]

theorem fails_emptyRange_iff :
    Fails records (.emptyRange first last) ↔ FirstOffence records (.emptyRange first last) := by
  simp [Fails]

theorem fails_unclosedRange_iff :
    Fails records (.unclosedRange first) ↔
      CleanBelow records records.length ∧ Unclosed records first := by
  constructor
  · rintro (⟨i, hi, -⟩ | ⟨hclean, first', hfirst, he⟩)
    · cases hi
    · cases he
      exact ⟨hclean, hfirst⟩
  · intro ⟨hclean, hfirst⟩
    exact .inr ⟨hclean, first, hfirst, rfl⟩

theorem not_fails_iff :
    (∀ e, ¬Fails records e) ↔
      CleanBelow records records.length ∧ ∀ first, ¬Unclosed records first := by
  constructor
  · intro h
    have hclean : CleanBelow records records.length := by
      intro i _ e hi
      obtain ⟨e', he'⟩ := exists_firstOffence hi
      exact h e' (.inl he')
    exact ⟨hclean, fun first hfirst => h _ (.inr ⟨hclean, first, hfirst, rfl⟩)⟩
  · rintro ⟨hclean, hclosed⟩ e (⟨i, hi, -⟩ | ⟨-, first, hfirst, -⟩)
    · exact hclean i hi.lt_length e hi
    · exact hclosed first hfirst

/-! ### Records in front of others -/

theorem getElem?_behind (front rest : List Record) (i : Nat) :
    (front ++ rest)[front.length + i]? = rest[i]? := by
  rw [List.getElem?_append_right (by omega), Nat.add_sub_cancel_left]

theorem opens_append_left (rest : List Record) (hi : i < front.length) :
    Opens (front ++ rest) i ↔ Opens front i := by
  induction i with
  | zero => rw [Opens, Opens, List.getElem?_append_left hi]
  | succ i ih => rw [Opens, Opens, List.getElem?_append_left hi, ih (by omega)]

/-- Behind records that leave no range open, another record opens one as if it stood first. -/
theorem Settled.opens_append (h : Settled front) (rest : List Record) (i : Nat) :
    Opens (front ++ rest) (front.length + i) ↔ Opens rest i := by
  induction i with
  | zero =>
    cases hn : front.length with
    | zero => rw [List.length_eq_zero_iff.mp hn]; rfl
    | succ n =>
      have hlast : ¬Opens (front ++ rest) n := by
        rw [opens_append_left rest (by omega)]
        intro hopens
        have hlt := h n hopens
        omega
      have hfirst := getElem?_behind front rest 0
      rw [hn, Nat.add_zero] at hfirst
      rw [Nat.add_zero, Opens, Opens, hfirst]
      exact and_iff_left hlast
  | succ i ih =>
    have hrecord := getElem?_behind front rest (i + 1)
    rw [← Nat.add_assoc] at hrecord ⊢
    rw [Opens, Opens, hrecord]
    exact and_congr_right fun _ => not_congr ih

theorem offence_append_left (rest : List Record) (hi : i < front.length) :
    Offence (front ++ rest) i e ↔ Offence front i e := by
  constructor
  · intro h
    cases h with
    | codeTooLarge h hcode =>
      rw [List.getElem?_append_left hi] at h
      exact .codeTooLarge h hcode
    | emptyRange hopens hopening hclosing hfirst hlast hless =>
      rw [opens_append_left rest (by omega)] at hopens
      rw [List.getElem?_append_left (by omega)] at hopening hclosing
      exact .emptyRange hopens hopening hclosing hfirst hlast hless
  · intro h
    cases h with
    | codeTooLarge h hcode =>
      rw [← List.getElem?_append_left hi] at h
      exact .codeTooLarge h hcode
    | emptyRange hopens hopening hclosing hfirst hlast hless =>
      rw [← opens_append_left rest (by omega)] at hopens
      rw [← List.getElem?_append_left (by omega)] at hopening hclosing
      exact .emptyRange hopens hopening hclosing hfirst hlast hless

theorem Settled.offence_append (h : Settled front) (rest : List Record) (i : Nat) :
    Offence (front ++ rest) (front.length + i) e ↔ Offence rest i e := by
  constructor
  · intro hoffence
    generalize hn : front.length + i = n at hoffence
    cases hoffence with
    | codeTooLarge hrecord hcode =>
      rw [← hn, getElem?_behind] at hrecord
      exact .codeTooLarge hrecord hcode
    | @emptyRange k _ _ _ _ hopens hopening hclosing hfirst hlast hless =>
      cases i with
      | zero =>
        rw [opens_append_left rest (by omega)] at hopens
        have hlt := h k hopens
        omega
      | succ i =>
        have hk : k = front.length + i := by omega
        subst hk
        rw [h.opens_append rest i] at hopens
        rw [getElem?_behind] at hopening
        rw [Nat.add_assoc, getElem?_behind] at hclosing
        exact .emptyRange hopens hopening hclosing hfirst hlast hless
  · intro hoffence
    cases hoffence with
    | codeTooLarge hrecord hcode =>
      rw [← getElem?_behind front] at hrecord
      exact .codeTooLarge hrecord hcode
    | emptyRange hopens hopening hclosing hfirst hlast hless =>
      rw [← h.opens_append rest] at hopens
      rw [← getElem?_behind front] at hopening hclosing
      exact .emptyRange hopens hopening hclosing hfirst hlast hless

theorem Settled.cleanBelow_append (h : Settled front) (hclean : CleanBelow front front.length)
    (rest : List Record) (n : Nat) :
    CleanBelow (front ++ rest) (front.length + n) ↔ CleanBelow rest n := by
  constructor
  · intro hbelow i hi e hoffence
    exact hbelow (front.length + i) (by omega) e ((h.offence_append rest i).mpr hoffence)
  · intro hbelow i hi e hoffence
    rcases Nat.lt_or_ge i front.length with hlt | hge
    · exact hclean i hlt e ((offence_append_left rest hlt).mp hoffence)
    · obtain ⟨j, rfl⟩ := Nat.exists_eq_add_of_le hge
      exact hbelow j (by omega) e ((h.offence_append rest j).mp hoffence)

theorem Settled.unclosed_append (h : Settled front) (rest : List Record) :
    Unclosed (front ++ rest) first ↔ Unclosed rest first := by
  constructor
  · intro ⟨i, opening, hopens, hopening, hend, hfirst⟩
    rcases Nat.lt_or_ge i front.length with hlt | hge
    · have hsettled := h i ((opens_append_left rest hlt).mp hopens)
      rw [List.getElem?_append_left hsettled, List.getElem?_eq_none_iff] at hend
      omega
    · obtain ⟨j, rfl⟩ := Nat.exists_eq_add_of_le hge
      rw [Nat.add_assoc, getElem?_behind] at hend
      rw [getElem?_behind] at hopening
      exact ⟨j, opening, (h.opens_append rest j).mp hopens, hopening, hend, hfirst⟩
  · intro ⟨j, opening, hopens, hopening, hend, hfirst⟩
    refine ⟨front.length + j, opening, (h.opens_append rest j).mpr hopens, ?_, ?_, hfirst⟩
    · rw [getElem?_behind, hopening]
    · rw [Nat.add_assoc, getElem?_behind, hend]

theorem Settled.firstOffence_append (h : Settled front) (hclean : CleanBelow front front.length)
    (rest : List Record) : FirstOffence (front ++ rest) e ↔ FirstOffence rest e := by
  constructor
  · intro ⟨i, hi, hbelow⟩
    rcases Nat.lt_or_ge i front.length with hlt | hge
    · exact absurd ((offence_append_left rest hlt).mp hi) (hclean i hlt e)
    · obtain ⟨j, rfl⟩ := Nat.exists_eq_add_of_le hge
      exact ⟨j, (h.offence_append rest j).mp hi, (h.cleanBelow_append hclean rest j).mp hbelow⟩
  · intro ⟨j, hj, hbelow⟩
    exact ⟨front.length + j, (h.offence_append rest j).mpr hj,
      (h.cleanBelow_append hclean rest j).mpr hbelow⟩

/-- Records that leave no range open and have no offence do not matter for those behind them. -/
theorem Settled.fails_append (h : Settled front) (hclean : CleanBelow front front.length)
    (rest : List Record) : Fails (front ++ rest) e ↔ Fails rest e := by
  rw [Fails, Fails, h.firstOffence_append hclean, List.length_append, h.cleanBelow_append hclean]
  simp only [h.unclosed_append]

/-! ### The first records -/

theorem opens_zero : Opens (r :: records) 0 ↔ "First>".toList <:+ r.name.toList := by
  simp [Opens]

theorem settled_single (hname : ¬"First>".toList <:+ r.name.toList) : Settled [r] := by
  intro i hopens
  have hlt := hopens.lt_length
  have hi : i = 0 := by simpa using hlt
  rw [hi, opens_zero] at hopens
  exact absurd hopens hname

theorem settled_range (hname : "First>".toList <:+ r.name.toList) : Settled [r, r'] := by
  intro i hopens
  have hlt := hopens.lt_length
  cases i with
  | zero => exact Nat.lt_add_one 1
  | succ i =>
    have hzero : i = 0 := by
      rw [List.length_cons, List.length_singleton] at hlt
      omega
    subst hzero
    exact absurd (opens_zero.mpr hname) hopens.2

theorem clean_first (hcode : r.code < UInt32.size) (records : List Record) :
    CleanBelow (r :: records) 1 := by
  intro i hi e hoffence
  have hzero : i = 0 := by omega
  subst hzero
  cases hoffence with
  | codeTooLarge h hlarge =>
    cases h
    omega

theorem clean_range (hcode : r.code < UInt32.size) (hcode' : r'.code < UInt32.size)
    (hordered : r.code ≤ r'.code) : CleanBelow [r, r'] 2 := by
  intro i hi e hoffence
  cases hoffence with
  | codeTooLarge h hlarge =>
    have hi' : i = 0 ∨ i = 1 := by omega
    rcases hi' with rfl | rfl
    · cases h
      omega
    · cases h
      omega
  | @emptyRange i _ _ _ _ hopens hopening hclosing hfirst hlast hless =>
    have hzero : i = 0 := by omega
    subst hzero
    cases hopening
    cases hclosing
    rw [BitVec.lt_def] at hless
    omega

theorem toNat_code (hcode : r.code < UInt32.size) : r.code = (BitVec.ofNat 32 r.code).toNat := by
  rw [BitVec.toNat_ofNat]
  exact (Nat.mod_eq_of_lt hcode).symm

theorem code_lt_iff (hcode : r.code < UInt32.size) (hcode' : r'.code < UInt32.size) :
    BitVec.ofNat 32 r.code < BitVec.ofNat 32 r'.code ↔ r.code < r'.code := by
  rw [BitVec.lt_def, ← toNat_code hcode, ← toNat_code hcode']

theorem fails_of_tooLarge (hcode : UInt32.size ≤ r.code) (records : List Record) :
    Fails (r :: records) .codeTooLarge := by
  refine .inl ⟨0, .codeTooLarge rfl hcode, fun i hi => ?_⟩
  omega

theorem fails_of_unclosed (hcode : r.code < UInt32.size)
    (hname : "First>".toList <:+ r.name.toList) :
    Fails [r] (.unclosedRange (BitVec.ofNat 32 r.code)) :=
  .inr ⟨clean_first hcode [], _, ⟨0, r, opens_zero.mpr hname, rfl, rfl, toNat_code hcode⟩, rfl⟩

theorem fails_of_closing_tooLarge (hcode : r.code < UInt32.size) (hcode' : UInt32.size ≤ r'.code)
    (records : List Record) : Fails (r :: r' :: records) .codeTooLarge :=
  .inl ⟨1, .codeTooLarge rfl hcode', clean_first hcode _⟩

theorem fails_of_reversed (hcode : r.code < UInt32.size) (hname : "First>".toList <:+ r.name.toList)
    (hcode' : r'.code < UInt32.size) (hless : r'.code < r.code) (records : List Record) :
    Fails (r :: r' :: records)
      (.emptyRange (BitVec.ofNat 32 r.code) (BitVec.ofNat 32 r'.code)) := by
  have hlt := (code_lt_iff hcode' hcode).mpr hless
  exact .inl ⟨1, .emptyRange (opens_zero.mpr hname) rfl rfl (toNat_code hcode) (toNat_code hcode')
    hlt, clean_first hcode _⟩

end Records

end BitClassifier
