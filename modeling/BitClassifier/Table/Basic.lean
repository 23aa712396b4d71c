import BitClassifier.Ascending
import BitClassifier.Event
import BitClassifier.Text.Blank

/-!
# Category tables

A table tells which code values belong to which general category. It is a list of blocks in the
order of the data file; a single value is a block of one.
-/

namespace BitClassifier

/-- The values from `first` to `last` in ascending order. -/
def valuesFrom (first last : CodeValue) : List CodeValue :=
  (List.range (last.toNat + 1 - first.toNat)).map fun i => first + BitVec.ofNat 32 i

/-- The values from `first` to `last` of one category. -/
structure Block where
  first : CodeValue
  last : CodeValue
  category : String
deriving DecidableEq, Repr

/-- The number of values of a block. -/
def Block.size (b : Block) : Nat :=
  b.last.toNat + 1 - b.first.toNat

/-- The values of a block in ascending order. -/
def Block.values (b : Block) : List CodeValue :=
  valuesFrom b.first b.last

/-- The general categories of code values. -/
structure Table where
  blocks : List Block := []
deriving DecidableEq, Repr

namespace Table

/-- The number of values that were read. -/
def len (t : Table) : Nat :=
  t.blocks.foldr (fun b n => b.size + n) 0

/-- Whether no value was read. -/
def isEmpty (t : Table) : Bool :=
  t.len == 0

/-- The names of the categories in ascending order. -/
def categories (t : Table) : List String :=
  ((t.blocks.map (·.category)).mergeSort fun a b => decide (a ≤ b)).eraseReps

/-- Whether a category is in the table. -/
def hasCategory (t : Table) (name : String) : Bool :=
  t.blocks.any (·.category == name)

/-- The values of a category in the order of the file. -/
def values (t : Table) (name : String) : List CodeValue :=
  (t.blocks.filter (·.category == name)).flatMap Block.values

/-- The names in a list that is separated by commas. -/
def names (spec : String) : List String :=
  (spec.toList.splitOn ',').map fun name => String.ofList (Blank.trim name)

/-- The values of all categories that are named in a list, ascending. -/
def filter (t : Table) (spec : String) : List CodeValue :=
  ascending ((names spec).flatMap t.values)

/-- The names in a list that the table does not have. -/
def undefinedNames (t : Table) (spec : String) : List String :=
  (names spec).filter fun name => !t.hasCategory name

/-- What is reported about a list of names. -/
def filterEvents (t : Table) (spec : String) : List Event :=
  (t.undefinedNames spec).map .categoryUndefined

end Table

end BitClassifier
