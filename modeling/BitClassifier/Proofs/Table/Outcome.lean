import BitClassifier.Proofs.Table.Offences

/-!
# What comes of contributions

What the lines of a file contribute decides what is reported and which blocks there are, and both
can be told place by place. In front of every contribution either no range is open or the range of a
record that stands above it (`placed`). That record and the contribution tell what is reported
(`events`), which block is complete (`block?`) and whether reading stops (`error?`). A file is read
as the reports up to the first error and the blocks of all places (`Reading.ofText_eq`).
-/

namespace BitClassifier

namespace Contribution

/-- The record whose range is open behind a contribution, where `opened` is that in front of it. A
record that closes a range opens none. -/
def opens (opened : Option Record) : Contribution → Option Record
  | .entry r => if opened = none ∧ "First>".toList <:+ r.name.toList then some r else none
  | .malformed .. => opened

/-- Why reading stops at a contribution, if it does. -/
def error? (opened : Option Record) : Contribution → Option ReadError
  | .entry r =>
    if UInt32.size ≤ r.code then some .codeTooLarge
    else
      match opened with
      | some o =>
        if r.code < o.code then
          some (.emptyRange (BitVec.ofNat 32 o.code) (BitVec.ofNat 32 r.code))
        else none
      | none => none
  | .malformed .. => none

/-- What is reported about a contribution. A code that is no code value closes no range. -/
def events (opened : Option Record) : Contribution → List Event
  | .entry r =>
    match opened with
    | some o =>
      if r.code < UInt32.size ∧ ¬"Last>".toList <:+ r.name.toList then
        [.rangeClosedBy (BitVec.ofNat 32 o.code) r.name]
      else []
    | none => []
  | .malformed number text => [.lineSkipped number (String.ofList text)]

/-- The block that is complete with a contribution. -/
def block? (opened : Option Record) : Contribution → Option Block
  | .entry r =>
    match opened with
    | some o => some ⟨BitVec.ofNat 32 o.code, BitVec.ofNat 32 r.code, o.category⟩
    | none =>
      if "First>".toList <:+ r.name.toList then none
      else some ⟨BitVec.ofNat 32 r.code, BitVec.ofNat 32 r.code, r.category⟩
  | .malformed .. => none

/-- Contributions, each with the record whose range is open in front of it. -/
def placed (opened : Option Record) : List Contribution → List (Option Record × Contribution)
  | [] => []
  | c :: cs => (opened, c) :: placed (c.opens opened) cs

/-- The places up to the first error. -/
def read (places : List (Option Record × Contribution)) : List (Option Record × Contribution) :=
  places.take (places.findIdx (fun (opened, c) => (c.error? opened).isSome) + 1)

/-- What contributions are read as, where `opened` is the record whose range is open in front of
them. -/
def outcome (opened : Option Record) (cs : List Contribution) : Reading where
  events := (read (placed opened cs)).flatMap fun (opened, c) => c.events opened
  result :=
    match (placed opened cs).findSome? fun (opened, c) => c.error? opened with
    | some e => .error e
    | none =>
      match cs.foldl opens opened with
      | some o => .error (.unclosedRange (BitVec.ofNat 32 o.code))
      | none => .ok ⟨(placed opened cs).filterMap fun (opened, c) => c.block? opened⟩

variable {opened : Option Record} {c : Contribution} {cs : List Contribution} {r : Record}
  {e : ReadError}

/-! ### The first place -/

theorem outcome_of_error (h : c.error? opened = some e) :
    outcome opened (c :: cs) = .stop (c.events opened) e := by
  simp [outcome, read, placed, List.findIdx_cons, h, Reported.stop]

/-- Where no block is complete, there is a report at most. -/
theorem outcome_of_none (h : c.error? opened = none) (hblock : c.block? opened = none) :
    outcome opened (c :: cs) = (outcome (c.opens opened) cs).report (c.events opened) := by
  simp [outcome, read, placed, List.findIdx_cons, h, hblock, Reported.report]

theorem outcome_of_block {b : Block} (h : c.error? opened = none)
    (hblock : c.block? opened = some b) :
    outcome opened (c :: cs) = ((outcome (c.opens opened) cs).add b).report (c.events opened) := by
  simp only [outcome, read, placed, List.findIdx_cons, h, hblock, Reported.report, Reading.add,
    List.findSome?_cons, List.foldl_cons, List.filterMap_cons]
  cases (placed (c.opens opened) cs).findSome? fun (opened, c) => c.error? opened with
  | some e => simp [Except.map]
  | none => cases cs.foldl opens (c.opens opened) <;> simp [Except.map]

end Contribution

namespace Reading

open Contribution Records

variable {opened : Option Record} {c : Contribution} {cs : List Contribution} {r o : Record}

/-- The range of a record, as the reader keeps it in mind. -/
def begun (opened : Option Record) : Option (CodeValue × String) :=
  opened.map fun o => (BitVec.ofNat 32 o.code, o.category)

/-- An entry where no range is open. -/
theorem ofEntry_none (hcode : r.code < UInt32.size)
    (ih : ∀ opened, (∀ o ∈ opened, o.code < UInt32.size) →
      ofContributions (begun opened) cs = outcome opened cs) :
    ofEntry none r (fun opened => ofContributions opened cs) = outcome none (.entry r :: cs) := by
  have herror : error? none (.entry r) = none := by simp [error?, Nat.not_le.mpr hcode]
  rw [ofEntry, if_neg (Nat.not_le.mpr hcode)]
  dsimp only
  by_cases hname : "First>".toList <:+ r.name.toList
  · rw [if_pos (Record.opensRange_iff.mpr hname),
      outcome_of_none herror (by simp only [block?, if_pos hname])]
    have hopens : opens none (.entry r) = some r := by simp only [opens, hname, and_self, if_true]
    rw [hopens, ← ih (some r) (by simpa using hcode)]
    rfl
  · have hblock : block? none (.entry r) =
        some ⟨BitVec.ofNat 32 r.code, BitVec.ofNat 32 r.code, r.category⟩ := by
      simp only [block?, if_neg hname]
    have hopens : opens none (.entry r) = none := by simp only [opens, hname, and_false, if_false]
    rw [if_neg (mt Record.opensRange_iff.mp hname), outcome_of_block herror hblock, hopens,
      ← ih none (by simp)]
    rfl

/-- An entry that closes a range. -/
theorem ofEntry_some (hcode : r.code < UInt32.size) (ho : o.code < UInt32.size)
    (ih : ofContributions none cs = outcome none cs) :
    ofEntry (begun (some o)) r (fun opened => ofContributions opened cs) =
      outcome (some o) (.entry r :: cs) := by
  have hclosing : closingEvents (BitVec.ofNat 32 o.code) r = events (some o) (.entry r) := by
    by_cases hname : "Last>".toList <:+ r.name.toList
    · rw [closingEvents_eq, if_pos hname, events, if_neg (fun h => h.2 hname)]
    · rw [closingEvents_eq, if_neg hname, events, if_pos ⟨hcode, hname⟩]
  rw [ofEntry, if_neg (Nat.not_le.mpr hcode), begun, Option.map_some]
  dsimp only
  rw [hclosing]
  by_cases hordered : r.code < o.code
  · rw [if_pos ((code_lt_iff hcode ho).mpr hordered), outcome_of_error]
    simp [error?, Nat.not_le.mpr hcode, hordered]
  · rw [if_neg (mt (code_lt_iff hcode ho).mp hordered), outcome_of_block _ rfl, ih]
    · rfl
    · simp [error?, Nat.not_le.mpr hcode, hordered]

/-- Contributions are gone through place by place. -/
theorem ofContributions_begun (hopened : ∀ o ∈ opened, o.code < UInt32.size) :
    ofContributions (begun opened) cs = outcome opened cs := by
  induction cs generalizing opened with
  | nil => cases opened <;> rfl
  | cons c cs ih =>
    cases c with
    | malformed number text =>
      rw [ofContributions, ih hopened, outcome_of_none rfl rfl]
      rfl
    | entry r =>
      rw [ofContributions]
      by_cases hcode : UInt32.size ≤ r.code
      · have herror : error? opened (.entry r) = some .codeTooLarge := by simp [error?, hcode]
        have hevents : events opened (.entry r) = [] := by
          cases opened <;> simp [events, Nat.not_lt.mpr hcode]
        rw [ofEntry, if_pos hcode, outcome_of_error herror, hevents]
      · rw [Nat.not_le] at hcode
        cases opened with
        | none => exact ofEntry_none hcode fun opened => ih
        | some o => exact ofEntry_some hcode (hopened o rfl) (@ih none (by simp))

/-- A text is read as what the contributions of its lines come to, one place after another: the
reports up to the first error, and that error or a range that is open at the end or the blocks that
are complete. -/
theorem ofText_eq (text : String) :
    ∃ lines contributions, Delimits 1 text.toList lines ∧
      List.Forall₂ Contributes lines contributions ∧
      ofText text = outcome none contributions.flatten := by
  refine ⟨Line.ofText text.toList, (Line.ofText text.toList).map Line.contributions,
    delimits_iff.mpr rfl, forall₂_contributes_iff.mpr rfl, ?_⟩
  rw [ofText, ofLines_eq, List.flatMap_def]
  exact @ofContributions_begun none _ (by simp)

-- a range, with a malformed line between its two records
example : outcome none [.entry ⟨0x10, "<A, First>", "Lu"⟩, .malformed 2 ['?'],
    .entry ⟨0x12, "<A, Last>", "Lu"⟩] =
      ⟨[.lineSkipped 2 "?"], .ok ⟨[⟨0x10#32, 0x12#32, "Lu"⟩]⟩⟩ := by rfl

end Reading

end BitClassifier
