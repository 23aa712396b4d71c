/-!
# Runs of characters

A class of characters is given by its runs: the first and the last number of each, in ascending
order.
-/

namespace BitClassifier

/-- The runs of a class of characters. -/
abbrev CharRuns := Array (Nat × Nat)

/-- Whether a character lies in one of the runs. -/
def CharRuns.cover (runs : CharRuns) (c : Char) : Bool :=
  runs.any fun (first, last) => first ≤ c.toNat && c.toNat ≤ last

end BitClassifier
