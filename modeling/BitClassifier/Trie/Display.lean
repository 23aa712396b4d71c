import BitClassifier.Trie.Basic

/-!
# Tries as text

A trie is shown as a map from paths to the two slots at their ends, a node before those below it and
`off` before `on`, on one line (`text`) or broken over many (`pretty`).
-/

namespace BitClassifier

/-- A path as a key: its bits, or `root` for the empty path. -/
def pathText (path : List Bool) : String :=
  if path.isEmpty then "root"
  else String.ofList (path.map fun bit => if bit then '1' else '0')

/-- A slot on one line. -/
def Slot.text : Slot → String
  | absent => "Absent"
  | full => "FullAccept"
  | child id => "Node(NodeId(" ++ toString id ++ "))"

/-- A slot broken over lines, each with a margin in front. -/
def Slot.pretty (margin : String) : Slot → String
  | absent => margin ++ "Absent,\n"
  | full => margin ++ "FullAccept,\n"
  | child id =>
    margin ++ "Node(\n" ++ margin ++ "    NodeId(\n" ++ margin ++ "        " ++ toString id ++ ",\n"
      ++ margin ++ "    ),\n" ++ margin ++ "),\n"

namespace Trie

/-- The nodes on a stack and those below them with their paths, a node before those below it and
`off` before `on`. -/
def entriesFrom (t : Trie) (stack : List (Nat × List Bool)) : Run (List (List Bool × Node)) :=
  match stack with
  | [] => return []
  | (id, path) :: stack => do
    let n ← t.node id
    let below (side : Bool) := (n.slot side).children.map fun id => (id, path ++ [side])
    let entries ← t |>.entriesFrom (below false ++ below true ++ stack)
    return (path, n) :: entries
partial_fixpoint

/-- The nodes with their paths, the root first. -/
def entries (t : Trie) : Run (List (List Bool × Node)) :=
  t.entriesFrom [(0, [])]

/-- A trie on one line. -/
def text (t : Trie) : Run String := do
  let entries ← t.entries
  return "\x7b" ++ ", ".intercalate (entries.map fun (path, n) =>
    pathText path ++ ": (" ++ n.off.text ++ ", " ++ n.on.text ++ ")") ++ "\x7d"

/-- A trie broken over lines, with four blanks for each level. -/
def pretty (t : Trie) : Run String := do
  let entries ← t.entries
  return "\x7b\n" ++ String.join (entries.map fun (path, n) =>
    "    " ++ pathText path ++ ": (\n" ++ n.off.pretty "        " ++ n.on.pretty "        "
      ++ "    ),\n") ++ "\x7d"

end Trie

end BitClassifier
