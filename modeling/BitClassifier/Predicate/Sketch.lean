import BitClassifier.Fault
import BitClassifier.Predicate.Basic

/-!
# Sketches

A sketch is a predicate in which some places are still open. Fragments fill the open places one
after another, depth first, the left side before the right one and `off` before `on`; a sketch
without open places gives a fragment back. Such a sketch is a predicate: `toPredicate?` and
`ofPredicate` are inverse on those.
-/

namespace BitClassifier

/-- A predicate that may have open places. -/
inductive Sketch where
  /-- An open place. -/
  | hole
  | constant (answer : Bool)
  | bitTest (mask value : CodeValue) (equals : Bool)
  | and (left right : Sketch)
  | or (left right : Sketch)
  /-- Filled `off` first. -/
  | cond (bit : CodeValue) (off on : Sketch)
deriving DecidableEq, Repr

namespace Sketch

/-- The number of open places. -/
def openPlaces : Sketch → Nat
  | hole => 1
  | constant _ => 0
  | bitTest .. => 0
  | and left right => left.openPlaces + right.openPlaces
  | or left right => left.openPlaces + right.openPlaces
  | cond _ off on => off.openPlaces + on.openPlaces

/-- What a push comes to. -/
structure Pushed where
  /-- The sketch afterwards. -/
  sketch : Sketch
  /-- The fragment, if it was given back. -/
  rejected : Option Sketch
deriving DecidableEq, Repr

/-- Goes on to the second of two sides with what the first one has given back, if anything. -/
def Pushed.orElse (build : Sketch → Sketch → Sketch) (first : Pushed) (second : Sketch)
    (push : Sketch → Pushed) : Pushed :=
  match first.rejected with
  | none => ⟨build first.sketch second, none⟩
  | some fragment =>
    let pushed := push fragment
    ⟨build first.sketch pushed.sketch, pushed.rejected⟩

/-- Fills the first open place with a fragment. -/
def push : Sketch → (fragment : Sketch) → Pushed
  | hole, fragment => ⟨fragment, none⟩
  | constant answer, fragment => ⟨constant answer, some fragment⟩
  | bitTest mask value equals, fragment => ⟨bitTest mask value equals, some fragment⟩
  | and left right, fragment => (left.push fragment).orElse and right right.push
  | or left right, fragment => (left.push fragment).orElse or right right.push
  | cond bit off on, fragment => (off.push fragment).orElse (cond bit) on on.push

/-- Whether no place is open. -/
def isComplete : Sketch → Bool
  | hole => false
  | constant _ => true
  | bitTest .. => true
  | and left right => left.isComplete && right.isComplete
  | or left right => left.isComplete && right.isComplete
  | cond _ off on => off.isComplete && on.isComplete

/-- The predicate that a sketch without open places is. -/
def toPredicate? : Sketch → Option Predicate
  | hole => none
  | constant answer => some (.constant answer)
  | bitTest mask value equals => some (.bitTest mask value equals)
  | and left right => do return .and (← left.toPredicate?) (← right.toPredicate?)
  | or left right => do return .or (← left.toPredicate?) (← right.toPredicate?)
  | cond bit off on => do return .cond bit (← on.toPredicate?) (← off.toPredicate?)

/-- A predicate as a sketch without open places. -/
def ofPredicate : Predicate → Sketch
  | .constant answer => constant answer
  | .bitTest mask value equals => bitTest mask value equals
  | .and left right => and (ofPredicate left) (ofPredicate right)
  | .or left right => or (ofPredicate left) (ofPredicate right)
  | .cond bit on off => cond bit (ofPredicate off) (ofPredicate on)

@[simp] theorem toPredicate?_ofPredicate (p : Predicate) :
    (ofPredicate p).toPredicate? = some p := by
  induction p with
  | constant answer => rfl
  | bitTest mask value equals => rfl
  | and left right ihLeft ihRight => simp [ofPredicate, toPredicate?, ihLeft, ihRight]
  | or left right ihLeft ihRight => simp [ofPredicate, toPredicate?, ihLeft, ihRight]
  | cond bit on off ihOn ihOff => simp [ofPredicate, toPredicate?, ihOn, ihOff]

end Sketch

/-- A predicate under construction: all of it is open at first. -/
structure Builder where
  sketch : Sketch := .hole
deriving DecidableEq, Repr

namespace Builder

/-- Fills the first open place, and fails if there is none. The builder is returned as it is
afterwards, also by a push that fails. -/
def push (b : Builder) (fragment : Sketch) : Except Fault Unit × Builder :=
  let pushed := b.sketch.push fragment
  match pushed.rejected with
  | none => (.ok (), ⟨pushed.sketch⟩)
  | some _ => (.error .alreadyComplete, ⟨pushed.sketch⟩)

/-- Whether the predicate can be taken out. -/
def isComplete (b : Builder) : Bool :=
  b.sketch.isComplete

/-- Takes the predicate out, and fails if a place is open. -/
def finish (b : Builder) : Except Fault Predicate :=
  match b.sketch.toPredicate? with
  | some predicate => .ok predicate
  | none => .error .incomplete

end Builder

end BitClassifier
