import BitClassifier.Width
import BitClassifier.Text.Hex

/-!
# Predicates

Boolean expressions over the bits of a code value: what they mean (`eval`), what they cost in
compare and jump instructions (`comparisons`, `pathComparisons`, `worstCase`) and how they are
shown (`text`).
-/

namespace BitClassifier

/-- A Boolean expression over the bits of a code value. -/
inductive Predicate where
  /-- The same answer for every value. -/
  | constant (answer : Bool)
  /-- Compares the bits under `mask` with those of `value`; `equals` is the answer if they agree. -/
  | bitTest (mask value : CodeValue) (equals : Bool)
  /-- Both sides, the right one only if the left one holds. -/
  | and (left right : Predicate)
  /-- Either side, the right one only if the left one fails. -/
  | or (left right : Predicate)
  /-- A jump on one bit: `on` where it is set, `off` where it is not. -/
  | cond (bit : CodeValue) (on off : Predicate)
deriving DecidableEq, Repr

namespace Predicate

/-- The answer for one value. -/
def eval (c : CodeValue) : Predicate → Bool
  | constant answer => answer
  | bitTest mask value equals => (c &&& mask == value &&& mask) == equals
  | and left right => left.eval c && right.eval c
  | or left right => left.eval c || right.eval c
  | cond bit on off => if hits c bit then on.eval c else off.eval c

/-- The compare and jump instructions of the whole expression. -/
def comparisons : Predicate → Nat
  | constant _ => 0
  | bitTest .. => 1
  | and left right => left.comparisons + right.comparisons
  | or left right => left.comparisons + right.comparisons
  | cond _ on off => 1 + on.comparisons + off.comparisons

/-- The compare and jump instructions that are executed to classify one value. -/
def pathComparisons (c : CodeValue) : Predicate → Nat
  | constant _ => 0
  | bitTest .. => 1
  | and left right =>
    left.pathComparisons c + if left.eval c then right.pathComparisons c else 0
  | or left right =>
    left.pathComparisons c + if left.eval c then 0 else right.pathComparisons c
  | cond bit on off => 1 + if hits c bit then on.pathComparisons c else off.pathComparisons c

/-- A bound on the instructions executed for any value, read off the shape alone. -/
def worstCase : Predicate → Nat
  | constant _ => 0
  | bitTest .. => 1
  | and left right => left.worstCase + right.worstCase
  | or left right => left.worstCase + right.worstCase
  | cond _ on off => 1 + max on.worstCase off.worstCase

/-- The expression over the input `c`; a tested value shows its bits under the mask only. -/
def text : Predicate → String
  | constant true => "true"
  | constant false => "false"
  | bitTest mask value equals =>
    "(c & " ++ Hex.text mask.toNat ++ ") " ++ (if equals then "== " else "!= ")
      ++ Hex.text (value &&& mask).toNat
  | and left right => "(" ++ left.text ++ " && " ++ right.text ++ ")"
  | or left right => "(" ++ left.text ++ " || " ++ right.text ++ ")"
  | cond bit on off =>
    "(c & " ++ Hex.text bit.toNat ++ " ? " ++ on.text ++ " : " ++ off.text ++ ")"

end Predicate

end BitClassifier
