import BitClassifier.Pattern.CharSet

/-!
# Patterns

The tree of a regular expression, as far as it matters here: how deep its parts lie in each other, and
whether it asks where a word begins or ends in Unicode.
-/

namespace BitClassifier

/-- A regular expression. -/
inductive Pattern where
  | empty
  /-- Flags for what follows. -/
  | flags
  /-- A single character, or any one of a fixed set. -/
  | character
  /-- A condition on a place, and whether it asks what a word is in Unicode. -/
  | place (unicodeWord : Bool)
  /-- A class of characters. -/
  | oneOf (set : Pattern.CharSet)
  | repeated (p : Pattern)
  | group (p : Pattern)
  | sequence (ps : List Pattern)
  | choice (ps : List Pattern)
deriving Repr

namespace Pattern

/-- Patterns one after the other, without a node where there are fewer than two. -/
def ofList : List Pattern → Pattern
  | [] => empty
  | [p] => p
  | ps => sequence ps

/-- Whether a repetition can stand behind a pattern. -/
def isRepeatable : Pattern → Bool
  | empty => false
  | flags => false
  | _ => true

mutual

/-- How deep groups, repetitions, classes, sequences and choices lie in each other. -/
def height : Pattern → Nat
  | empty => 0
  | flags => 0
  | character => 0
  | place _ => 0
  | oneOf set => set.height
  | repeated p => p.height + 1
  | group p => p.height + 1
  | sequence ps => heightOfAll ps + 1
  | choice ps => heightOfAll ps + 1

/-- The greatest height of some patterns. -/
def heightOfAll : List Pattern → Nat
  | [] => 0
  | p :: ps => max p.height (heightOfAll ps)

end

mutual

/-- Whether a pattern asks where a word begins or ends in Unicode. -/
def asksForWords : Pattern → Bool
  | empty => false
  | flags => false
  | character => false
  | place unicodeWord => unicodeWord
  | oneOf _ => false
  | repeated p => p.asksForWords
  | group p => p.asksForWords
  | sequence ps => anyAsksForWords ps
  | choice ps => anyAsksForWords ps

/-- Whether one of some patterns asks where a word begins or ends in Unicode. -/
def anyAsksForWords : List Pattern → Bool
  | [] => false
  | p :: ps => p.asksForWords || anyAsksForWords ps

end

end Pattern

end BitClassifier
