import BitClassifier.Pattern.Escape

/-!
# Classes of characters in patterns

A class lists characters, ranges and named classes between brackets. It can hold further classes, and
operators combine the lists in front of them and behind them, from left to right.

A pattern of bytes stands for text, so it has no use for bytes beyond ASCII. Any negation would bring
them in and is refused, be it of a class or of a name in it.
-/

namespace BitClassifier.Pattern

/-- A set of characters as it is written in a class. -/
inductive CharSet where
  | empty
  /-- A character, a range or a named class. -/
  | member
  | union (sets : List CharSet)
  /-- What an operator makes of the sets around it. -/
  | combined (left right : CharSet)
  | bracketed (set : CharSet)
deriving Repr

namespace CharSet

/-- The set of what is in one of some sets, without a node where there are fewer than two. -/
def ofList : List CharSet → CharSet
  | [] => empty
  | [set] => set
  | sets => union sets

mutual

/-- How deep unions, operators and brackets lie in each other. -/
def height : CharSet → Nat
  | empty => 0
  | member => 0
  | union sets => heightOfAll sets + 1
  | combined left right => max left.height right.height + 1
  | bracketed set => set.height + 1

/-- The greatest height of some sets. -/
def heightOfAll : List CharSet → Nat
  | [] => 0
  | set :: sets => max set.height (heightOfAll sets)

end

end CharSet

/-- Whether a class or a name in it can be negated. -/
def Mode.allowsNegation (m : Mode) : Bool :=
  m.unicode

/-- A class whose closing bracket has not been read. -/
structure OpenSet where
  /-- All that is in front of the last operator. -/
  operand : Option CharSet := none
  /-- The sets after the operator, the last one first. -/
  sets : List CharSet := []
deriving Repr

namespace OpenSet

/-- All that has been read of a class. -/
def contents (o : OpenSet) : CharSet :=
  let list := CharSet.ofList o.sets.reverse
  match o.operand with
  | none => list
  | some left => .combined left list

/-- The class when one more set has been read. -/
def push (o : OpenSet) (set : CharSet) : OpenSet :=
  { o with sets := set :: o.sets }

/-- The class when an operator has been read. -/
def operate (o : OpenSet) : OpenSet :=
  { operand := some o.contents }

end OpenSet

/-! ## Reading -/

/-- The names of classes of ASCII characters. -/
def classNames : List String :=
  ["alnum", "alpha", "ascii", "blank", "cntrl", "digit", "graph", "lower", "print", "punct",
    "space", "upper", "word", "xdigit"]

/-- Reads a named class without its first bracket, and whether it is negated. -/
def namedClass? : List Char → Option (Bool × List Char)
  | ':' :: cs =>
    let (negated, cs) := match cs with
      | '^' :: rest => (true, rest)
      | cs => (false, cs)
    match cs.dropWhile (· != ':') with
    | ':' :: ']' :: rest =>
      if classNames.contains (String.ofList (cs.takeWhile (· != ':'))) then some (negated, rest)
      else none
    | _ => none
  | _ => none

/-- Counts the dashes that a text begins with. -/
def leadingDashes (m : Mode) (cs : List Char) : Nat × List Char :=
  match h : m.skip cs with
  | '-' :: rest =>
    have : rest.length < cs.length := by
      have := m.length_skip_le cs
      simp only [h, List.length_cons] at this
      omega
    let (count, rest') := leadingDashes m rest
    (count + 1, rest')
  | rest => (0, rest)
termination_by cs.length

/-- Reads the beginning of a class without its bracket: a mark of negation, and dashes or a bracket
that stand for themselves. -/
def openSet? (m : Mode) (cs : List Char) : Option (OpenSet × List Char) :=
  let (negated, cs) := match m.skip cs with
    | '^' :: rest => (true, rest)
    | rest => (false, rest)
  if negated && !m.allowsNegation then none
  else
    match leadingDashes m cs with
    | (0, ']' :: rest) => if m.allowsLiteral then some ({ sets := [.member] }, rest) else none
    | (0, rest) => some ({}, rest)
    | (count, rest) =>
      if m.allowsLiteral then some ({ sets := List.replicate count .member }, rest) else none

/-- Reads a member of a class, which is a character or the letter of a class. -/
def member? (m : Mode) (cs : List Char) : Option (Option Char × List Char) :=
  if !m.allowsLiteral then none
  else
    match cs with
    | [] => none
    | '\\' :: cs =>
      match escaped? m cs with
      | some (.char c, rest) => if m.allowsMember c then some (some c, rest) else none
      | some (.set, rest) => some (none, rest)
      | _ => none
    | c :: cs => if m.allowsMember c then some (some c, cs) else none

/-- Reads a member of a class or a range. A dash in front of a bracket or of another dash makes no
range. -/
def range? (m : Mode) (cs : List Char) : Option (List Char) := do
  let (first, rest) ← member? m cs
  match m.skip rest with
  | '-' :: rest' =>
    if m.peek? rest' = some ']' || m.peek? rest' = some '-' then some ('-' :: rest')
    else
      match first, ← member? m (m.skip rest') with
      | some low, (some high, rest'') => if low ≤ high then some rest'' else none
      | _, _ => none
  | rest => some rest

/-- Reads the rest of a class that lies in others, and of those. -/
def closeSets? (m : Mode) : (fuel : Nat) → OpenSet → List OpenSet → List Char →
    Option (CharSet × List Char)
  | 0, _, _, _ => none
  | fuel + 1, o, around, cs =>
    match m.skip cs with
    | [] => none
    | ']' :: rest =>
      let set := .bracketed o.contents
      match around with
      | [] => some (set, rest)
      | outer :: around => closeSets? m fuel (outer.push set) around rest
    | '[' :: rest =>
      match namedClass? rest with
      | some (negated, rest) =>
        if !m.allowsLiteral || (negated && !m.allowsNegation) then none
        else closeSets? m fuel (o.push .member) around rest
      | none =>
        match openSet? m rest with
        | none => none
        | some (inner, rest) => closeSets? m fuel inner (o :: around) rest
    | '&' :: '&' :: rest => closeSets? m fuel o.operate around rest
    | '-' :: '-' :: rest => closeSets? m fuel o.operate around rest
    | '~' :: '~' :: rest => closeSets? m fuel o.operate around rest
    | cs =>
      match range? m cs with
      | none => none
      | some rest => closeSets? m fuel (o.push .member) around rest

/-- Reads a class without its first bracket. -/
def charSet? (m : Mode) (cs : List Char) : Option (CharSet × List Char) :=
  (openSet? m cs).bind fun (o, rest) => closeSets? m (cs.length + 1) o [] rest

end BitClassifier.Pattern
