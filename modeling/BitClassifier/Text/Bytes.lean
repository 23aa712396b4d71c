/-!
# Places counted in bytes

The UTF-8 size of a row of characters, and parts of a row between two places that are counted in
bytes. A place inside of a character bounds no part.
-/

namespace BitClassifier.Bytes

/-- The size of a row of characters. -/
def size : List Char → Nat
  | [] => 0
  | c :: cs => c.utf8Size + size cs

/-- What follows a place in a row of characters. -/
def drop? : Nat → List Char → Option (List Char)
  | 0, cs => some cs
  | _ + 1, [] => none
  | n + 1, c :: cs => if c.utf8Size ≤ n + 1 then drop? (n + 1 - c.utf8Size) cs else none

/-- The characters of a row before a place. -/
def take? : Nat → List Char → Option (List Char)
  | 0, _ => some []
  | _ + 1, [] => none
  | n + 1, c :: cs =>
    if c.utf8Size ≤ n + 1 then (take? (n + 1 - c.utf8Size) cs).map (c :: ·) else none

/-- The characters of a row between two places. -/
def slice? (start stop : Nat) (cs : List Char) : Option (List Char) := do
  take? (stop - start) (← drop? start cs)

end BitClassifier.Bytes
