/-!
# Lines

A text is cut into lines at every line feed, every carriage return and every pair of the two. Lines
are numbered by the line feeds before them, so that a lone carriage return ends a line and does not
begin a new number.
-/

namespace BitClassifier

/-- A line of a text without its end. -/
structure Line where
  number : Nat
  text : List Char
deriving DecidableEq, Repr

namespace Line

/-- The lines of a text, where `number` is the number of the first one and `begun` holds the
characters of it that have been read, the last one first. -/
def split (number : Nat) (begun : List Char) : List Char → List Line
  | [] => [⟨number, begun.reverse⟩]
  | '\r' :: '\n' :: rest => ⟨number, begun.reverse⟩ :: split (number + 1) [] rest
  | '\r' :: rest => ⟨number, begun.reverse⟩ :: split number [] rest
  | '\n' :: rest => ⟨number, begun.reverse⟩ :: split (number + 1) [] rest
  | c :: rest => split number (c :: begun) rest

/-- The lines of a text, the first one with the number 1. -/
def ofText (text : List Char) : List Line :=
  split 1 [] text

end Line

end BitClassifier
