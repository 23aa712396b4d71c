import BitClassifier.Ascending
import BitClassifier.Prune

/-!
# Compiling sets of code values

`compile` turns a list of code values into a predicate that holds of exactly the listed values of
the domain. Order and duplicates do not matter; values above the domain are left out.
-/

namespace BitClassifier

/-- A classifier for a set of code values. -/
structure Compiled where
  predicate : Predicate
  /-- The compare and jump instructions of the predicate, counted while it was built. -/
  comparisons : Nat
  /-- The number of nodes that the set needs as a trie. -/
  nodes : Nat
deriving DecidableEq, Repr

/-- Compiles a list of values, and reports on the way. -/
def compileReporting (values : List CodeValue) (width : Width) :
    Except Fault (Compiled × List Event) := Run.outcome do
  let (inside, outside) := (ascending values).span width.contains
  let ignored := if outside.isEmpty then [] else [Event.valuesIgnored outside.length width]
  let trie ← Trie.ofSorted width inside
  let nodes := trie.len
  let (predicate, p) ← (Pruner.start trie).run
  return (⟨predicate, p.comparisons, nodes⟩,
    ignored ++ [.trieBuilt inside.length nodes width] ++ p.events.toList)

/-- Compiles a list of values. -/
def compile (values : List CodeValue) (width : Width) : Except Fault Compiled :=
  (·.1) <$> compileReporting values width

end BitClassifier
