import BitClassifier.Proofs.Table.Contributions

/-!
# Line numbers

The numbers of lines go into the reports about malformed lines and nowhere else. If the lines are
numbered in another way, the reports follow and the table stays
(`Reading.ofContributions_renumbered`).
-/

namespace BitClassifier

/-- A report about a line that gets another number. -/
def Event.renumbered (f : Nat → Nat) : Event → Event
  | .lineSkipped line text => .lineSkipped (f line) text
  | e => e

/-- A contribution of a line that gets another number. -/
def Contribution.renumbered (f : Nat → Nat) : Contribution → Contribution
  | .entry r => .entry r
  | .malformed number text => .malformed (f number) text

variable (f : Nat → Nat)

theorem Line.contributions_renumbered (number : Nat) (text : List Char) :
    Line.contributions ⟨f number, text⟩ =
      (Line.contributions ⟨number, text⟩).map (Contribution.renumbered f) := by
  rw [contributions, contributions, content, content]
  cases Content.ofChars text <;> rfl

theorem Line.flatMap_contributions_renumbered (lines : List Line) :
    (lines.map fun line => ⟨f line.number, line.text⟩).flatMap Line.contributions =
      (lines.flatMap Line.contributions).map (Contribution.renumbered f) := by
  simp [List.flatMap_map, List.map_flatMap, contributions_renumbered]

namespace Reading

/-- A reading of lines that get other numbers. -/
def renumbered (x : Reading) : Reading :=
  ⟨x.events.map (Event.renumbered f), x.table⟩

theorem closingEvents_renumbered (first : CodeValue) (r : Record) :
    (closingEvents first r).map (Event.renumbered f) = closingEvents first r := by
  unfold closingEvents
  split <;> rfl

/-- An entry reports nothing about its line. -/
theorem ofEntry_renumbered (opened : Option (CodeValue × String)) (r : Record)
    (rest : Option (CodeValue × String) → Reading) :
    ofEntry opened r (fun opened => (rest opened).renumbered f) =
      (ofEntry opened r rest).renumbered f := by
  unfold ofEntry
  split
  · rfl
  · cases opened with
    | none =>
      dsimp only
      split <;> rfl
    | some range =>
      dsimp only
      split
      · simp [renumbered, Reported.stop, closingEvents_renumbered]
      · simp [renumbered, Reported.report, add, closingEvents_renumbered]

theorem ofContributions_renumbered (opened : Option (CodeValue × String))
    (cs : List Contribution) :
    ofContributions opened (cs.map (Contribution.renumbered f)) =
      (ofContributions opened cs).renumbered f := by
  induction cs generalizing opened with
  | nil => cases opened <;> rfl
  | cons c cs ih =>
    rw [List.map_cons]
    cases c with
    | entry r =>
      rw [Contribution.renumbered, ofContributions, ofContributions, ← ofEntry_renumbered]
      simp only [ih]
    | malformed number text =>
      rw [Contribution.renumbered, ofContributions, ofContributions, ih]
      rfl

end Reading

end BitClassifier
