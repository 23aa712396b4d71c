import BitClassifier.Width

/-!
# Ascending lists

Sets of code values are handed over as lists in ascending order that hold each value once.
-/

namespace BitClassifier

/-- The listed values in ascending order, each once. -/
def ascending (values : List CodeValue) : List CodeValue :=
  (values.mergeSort fun a b => decide (a ≤ b)).eraseReps

end BitClassifier
