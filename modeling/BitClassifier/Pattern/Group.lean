import BitClassifier.Pattern.Mode
import BitClassifier.Text.Alphanumeric

/-!
# Groups in patterns

A parenthesis begins a group, which can have a name or flags of its own, or it holds nothing but flags
for what follows in the group around it.
-/

namespace BitClassifier.Pattern

/-- Whether a text can be the name of a group. -/
def isGroupName : List Char → Bool
  | [] => false
  | c :: cs =>
    (c == '_' || isAlphabetic c)
      && cs.all fun c => c == '_' || c == '.' || c == '[' || c == ']' || isAlphanumeric c

/-- What a parenthesis begins. -/
inductive GroupHead where
  /-- A group, with its name if it has one. -/
  | opened (name : Option (List Char)) (mode : Mode)
  /-- Flags for what follows in the group around it. -/
  | flags (mode : Mode)
deriving DecidableEq, Repr

/-- Reads what follows the name mark of a group. -/
def groupName? (m : Mode) (cs : List Char) : Option (GroupHead × List Char) :=
  let name := cs.takeWhile (· != '>')
  match cs.dropWhile (· != '>') with
  | [] => none
  | _ :: rest => if isGroupName name then some (.opened (some name) m, rest) else none

/-- Reads the beginning of a group without its parenthesis. -/
def groupHead? (m : Mode) (cs : List Char) : Option (GroupHead × List Char) :=
  match m.skip cs with
  | '?' :: 'P' :: '<' :: cs => groupName? m cs
  | '?' :: '<' :: cs => groupName? m cs
  | '?' :: cs => do
    let flags := cs.takeWhile fun c => c != ':' && c != ')'
    let mode ← m.withFlags? [] true flags
    match cs.dropWhile fun c => c != ':' && c != ')' with
    | ':' :: rest => some (.opened none mode, rest)
    | ')' :: rest => if flags.isEmpty then none else some (.flags mode, rest)
    | _ => none
  | cs => some (.opened none m, cs)

end BitClassifier.Pattern
