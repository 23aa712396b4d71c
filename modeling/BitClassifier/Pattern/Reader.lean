import BitClassifier.Pattern.Basic
import BitClassifier.Pattern.Group

/-!
# Reading patterns

A pattern is read from left to right with the groups that have been begun. A pattern here stands
between braces, so the closing brace of a counted repetition cannot be part of it.
-/

namespace BitClassifier.Pattern

/-- A group whose closing parenthesis has not been read, or the whole pattern. -/
structure OpenGroup where
  mode : Mode := {}
  /-- The finished alternatives, the last one first. -/
  alternatives : List Pattern := []
  /-- The items of the alternative that is being read, the last one first. -/
  items : List Pattern := []
deriving Repr

namespace OpenGroup

/-- All that has been read of a group. -/
def contents (g : OpenGroup) : Pattern :=
  let last := Pattern.ofList g.items.reverse
  if g.alternatives.isEmpty then last else .choice (last :: g.alternatives).reverse

/-- The group when one more item has been read. -/
def push (g : OpenGroup) (p : Pattern) : OpenGroup :=
  { g with items := p :: g.items }

/-- The group when its alternative has ended and another one begins. -/
def alternate (g : OpenGroup) : OpenGroup :=
  { g with alternatives := Pattern.ofList g.items.reverse :: g.alternatives, items := [] }

/-- The group when the last item is repeated, which must be there. -/
def repeatLast? (g : OpenGroup) : Option OpenGroup :=
  match g.items with
  | p :: ps => if p.isRepeatable then some { g with items := .repeated p :: ps } else none
  | [] => none

end OpenGroup

/-- Reads a single item without parentheses, brackets and repetitions. -/
def item? (m : Mode) : List Char → Option (Pattern × List Char)
  | [] => none
  | '\\' :: cs =>
    match escaped? m cs with
    | none => none
    | some (.place unicodeWord, rest) => some (.place unicodeWord, rest)
    | some (.set, rest) => some (.character, rest)
    | some (.char _, rest) => if m.allowsLiteral then some (.character, rest) else none
  | '.' :: cs => if m.unicode then some (.character, cs) else none
  | c :: cs =>
    if c = '^' || c = '$' then some (.place false, cs)
    else if m.allowsLiteral then some (.character, cs) else none

/-- Reads the rest of a pattern in a group, where `around` holds the groups around it and `names` the
names of all groups so far. -/
def closeGroups? : (fuel : Nat) → OpenGroup → (around : List OpenGroup) →
    (names : List (List Char)) → List Char → Option Pattern
  | 0, _, _, _, _ => none
  | fuel + 1, g, around, names, cs =>
    match g.mode.skip cs with
    | [] => if around.isEmpty then some g.contents else none
    | '(' :: rest =>
      match groupHead? g.mode rest with
      | none => none
      | some (.flags mode, rest) =>
        closeGroups? fuel { g.push .flags with mode } around names rest
      | some (.opened name mode, rest) =>
        if name.any names.contains then none
        else closeGroups? fuel { mode } (g :: around) (name.toList ++ names) rest
    | ')' :: rest =>
      match around with
      | [] => none
      | outer :: around => closeGroups? fuel (outer.push (.group g.contents)) around names rest
    | '|' :: rest => closeGroups? fuel g.alternate around names rest
    | '[' :: rest =>
      match charSet? g.mode rest with
      | none => none
      | some (set, rest) => closeGroups? fuel (g.push (.oneOf set)) around names rest
    | '\x7b' :: _ => none
    | c :: rest =>
      if c = '*' || c = '+' || c = '?' then
        match g.repeatLast? with
        | none => none
        | some g =>
          let rest := match rest with
            | '?' :: lazy => lazy
            | rest => rest
          closeGroups? fuel g around names rest
      else
        match item? g.mode (c :: rest) with
        | none => none
        | some (p, rest) => closeGroups? fuel (g.push p) around names rest

/-- How deep the parts of a pattern may lie in each other. -/
def heightLimit : Nat := 250

/-- Reads a pattern. -/
def ofChars? (cs : List Char) : Option Pattern :=
  (closeGroups? (cs.length + 1) {} [] [] cs).filter (·.height ≤ heightLimit)

end BitClassifier.Pattern
