import BitClassifier.Proofs.Table.Refusal

/-!
# The blocks that records make

Every block of a table that was read stands for a record by itself or for a range of two
(`Reading.makes_of_table`). So no block is empty, and the categories of the table are those of the
records that close no range (`Records.Makes.mem_categories_iff`).
-/

namespace BitClassifier

namespace Records

/-- Whether the record at a position closes a range. -/
def Closes (records : List Record) : Nat → Prop
  | 0 => False
  | i + 1 => Opens records i

/-- Whether a category is that of a record that closes no range. -/
def Brings (records : List Record) (category : String) : Prop :=
  ∃ i r, records[i]? = some r ∧ ¬Closes records i ∧ r.category = category

/-- The blocks that records make if nothing is wrong with them. -/
inductive Makes : List Record → List Block → Prop
  | nil : Makes [] []
  | single {r : Record} {records : List Record} {blocks : List Block}
    (hcode : r.code < UInt32.size) (hname : ¬"First>".toList <:+ r.name.toList)
    (rest : Makes records blocks) :
    Makes (r :: records) (⟨BitVec.ofNat 32 r.code, BitVec.ofNat 32 r.code, r.category⟩ :: blocks)
  | range {r r' : Record} {records : List Record} {blocks : List Block}
    (hcode : r.code < UInt32.size) (hname : "First>".toList <:+ r.name.toList)
    (hordered : BitVec.ofNat 32 r.code ≤ BitVec.ofNat 32 r'.code) (rest : Makes records blocks) :
    Makes (r :: r' :: records)
      (⟨BitVec.ofNat 32 r.code, BitVec.ofNat 32 r'.code, r.category⟩ :: blocks)

variable {records front : List Record} {blocks : List Block} {r r' : Record} {category : String}

/-! ### Categories -/

theorem closes_append_left (rest : List Record) {i : Nat} (hi : i < front.length) :
    Closes (front ++ rest) i ↔ Closes front i := by
  cases i with
  | zero => exact Iff.rfl
  | succ i => exact opens_append_left rest (Nat.lt_of_succ_lt hi)

/-- Behind records that leave no range open, another record closes one as if it stood first. -/
theorem Settled.closes_append (h : Settled front) (rest : List Record) (i : Nat) :
    Closes (front ++ rest) (front.length + i) ↔ Closes rest i := by
  cases i with
  | succ i => exact h.opens_append rest i
  | zero =>
    cases hn : front.length with
    | zero => exact Iff.rfl
    | succ n =>
      rw [Closes, Closes, opens_append_left rest (by omega), iff_false]
      intro hopens
      have hlt := h n hopens
      omega

theorem Settled.brings_append (h : Settled front) (rest : List Record) :
    Brings (front ++ rest) category ↔ Brings front category ∨ Brings rest category := by
  constructor
  · intro ⟨i, r, hr, hcloses, hcategory⟩
    rcases Nat.lt_or_ge i front.length with hlt | hge
    · rw [List.getElem?_append_left hlt] at hr
      exact .inl ⟨i, r, hr, mt (closes_append_left rest hlt).mpr hcloses, hcategory⟩
    · obtain ⟨j, rfl⟩ := Nat.exists_eq_add_of_le hge
      rw [getElem?_behind] at hr
      exact .inr ⟨j, r, hr, mt (h.closes_append rest j).mpr hcloses, hcategory⟩
  · rintro (⟨i, r, hr, hcloses, hcategory⟩ | ⟨j, r, hr, hcloses, hcategory⟩)
    · have hlt := (List.getElem?_eq_some_iff.mp hr).1
      refine ⟨i, r, ?_, mt (closes_append_left rest hlt).mp hcloses, hcategory⟩
      rw [List.getElem?_append_left hlt, hr]
    · refine ⟨front.length + j, r, ?_, mt (h.closes_append rest j).mp hcloses, hcategory⟩
      rw [getElem?_behind, hr]

theorem brings_single : Brings [r] category ↔ category = r.category := by
  constructor
  · rintro ⟨i, r', hr, -, hcategory⟩
    obtain rfl : r' = r := List.mem_singleton.mp (List.mem_of_getElem? hr)
    exact hcategory.symm
  · intro h
    exact ⟨0, r, rfl, id, h.symm⟩

/-- A range has the category of the record that opens it. -/
theorem brings_range (hname : "First>".toList <:+ r.name.toList) :
    Brings [r, r'] category ↔ category = r.category := by
  constructor
  · intro ⟨i, r'', hr, hcloses, hcategory⟩
    have hlt : i < 2 := (List.getElem?_eq_some_iff.mp hr).1
    obtain rfl | rfl : i = 0 ∨ i = 1 := by omega
    · cases hr
      exact hcategory.symm
    · exact absurd (opens_zero.mpr hname) hcloses
  · intro h
    exact ⟨0, r, rfl, id, h.symm⟩

/-- The categories of the blocks are those of the records that close no range. -/
theorem Makes.mem_categories_iff (h : Makes records blocks) :
    category ∈ blocks.map (·.category) ↔ Brings records category := by
  induction h with
  | nil =>
    constructor
    · intro h
      cases h
    · intro ⟨i, r, hr, _⟩
      cases hr
  | @single r records blocks hcode hname rest ih =>
    have hfront : Brings (r :: records) category ↔ _ :=
      (settled_single hname).brings_append records
    rw [hfront, brings_single, ← ih, List.map_cons, List.mem_cons]
  | @range r r' records blocks hcode hname hordered rest ih =>
    have hfront : Brings (r :: r' :: records) category ↔ _ :=
      (settled_range hname).brings_append records
    rw [hfront, brings_range hname, ← ih, List.map_cons, List.mem_cons]

theorem values_ne_nil {b : Block} (h : b.first ≤ b.last) : b.values ≠ [] := by
  rw [BitVec.le_def] at h
  rw [Block.values, valuesFrom, ne_eq, List.map_eq_nil_iff, List.range_eq_nil]
  omega

/-- No block is empty. -/
theorem Makes.values_ne_nil (h : Makes records blocks) : ∀ b ∈ blocks, b.values ≠ [] := by
  induction h with
  | nil => exact List.forall_mem_nil _
  | single hcode hname rest ih =>
    exact List.forall_mem_cons.mpr ⟨Records.values_ne_nil (BitVec.le_refl _), ih⟩
  | range hcode hname hordered rest ih =>
    exact List.forall_mem_cons.mpr ⟨Records.values_ne_nil hordered, ih⟩

end Records

namespace Reading

open Records

/-- The records of a table make its blocks. -/
theorem makes_of_table {records : List Record} {t : Table}
    (h : (ofRecords records).table = .ok t) : Makes records t.blocks := by
  induction hn : records.length using Nat.strong_induction_on generalizing records t with
  | _ n ih =>
    cases records with
    | nil =>
      cases h
      exact .nil
    | cons r records =>
      rw [List.length_cons] at hn
      by_cases hcode : UInt32.size ≤ r.code
      · rw [ofRecords_tooLarge hcode] at h
        cases h
      · rw [Nat.not_le] at hcode
        by_cases hname : "First>".toList <:+ r.name.toList
        · rw [ofRecords_opening hcode hname] at h
          cases records with
          | nil => cases h
          | cons r' records =>
            rw [List.length_cons] at hn
            rw [List.map_cons, ofContributions, ofEntry] at h
            split at h
            · cases h
            · dsimp only at h
              split at h
              · cases h
              · rename_i hordered
                obtain ⟨u, hu, rfl⟩ := add_eq_ok h
                exact .range hcode hname (BitVec.not_lt.mp hordered) (ih _ (by omega) hu rfl)
        · rw [ofRecords_cons, ofEntry, if_neg (Nat.not_le.mpr hcode)] at h
          dsimp only at h
          rw [if_neg (mt Record.opensRange_iff.mp hname)] at h
          obtain ⟨u, hu, rfl⟩ := add_eq_ok h
          exact .single hcode hname (ih _ (by omega) hu rfl)

theorem makes_of_text {text : String} {records : List Record} {t : Table}
    (h : (ofText text).table = .ok t) (hrecords : RecordsOf text records) :
    Makes records t.blocks :=
  makes_of_table (table_ofText hrecords ▸ h)

end Reading

theorem exists_recordsOf (text : String) : ∃ records, ∀ rs, RecordsOf text rs ↔ rs = records :=
  ⟨_, fun _ => recordsOf_iff⟩

/-- The records of a text have a category. -/
theorem RecordsOf.category_ne {text : String} {records : List Record} {r : Record}
    (h : RecordsOf text records) (hr : r ∈ records) : r.category ≠ "" := by
  rw [recordsOf_iff.mp h, List.mem_filterMap] at hr
  obtain ⟨c, hc, hentry⟩ := hr
  obtain ⟨line, -, hline⟩ := List.mem_flatMap.mp hc
  cases c with
  | malformed number text => cases hentry
  | entry r' =>
    cases hentry
    obtain ⟨s, rfl⟩ := line.exists_spelling hline
    intro hempty
    have hinitial := s.initial
    have hcategory : s.category = [] := by
      simpa [Record.Spelling.record] using congrArg String.toList hempty
    rw [hcategory] at hinitial
    cases hinitial

end BitClassifier
