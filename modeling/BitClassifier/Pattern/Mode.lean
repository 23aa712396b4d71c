import BitClassifier.Text.Blank

/-!
# Flags of patterns

What the flags of a pattern say about the characters in it, and the text that stands for nothing
when the flags ask for free spacing.
-/

namespace BitClassifier.Pattern

/-- The text after the white space and the comments that it begins with. A comment goes from a number
sign to the end of the line. -/
def skipFiller (inComment : Bool) : List Char → List Char
  | [] => []
  | c :: cs =>
    if inComment then skipFiller (c != '\n') cs
    else if c = '#' then skipFiller true cs
    else if Blank.isSpace c then skipFiller false cs
    else c :: cs

theorem length_skipFiller_le (inComment : Bool) (cs : List Char) :
    (skipFiller inComment cs).length ≤ cs.length := by
  fun_induction skipFiller inComment cs with
  | case1 => exact Nat.le_refl _
  | case2 c cs ih => exact Nat.le_succ_of_le ih
  | case3 _ cs _ ih => exact Nat.le_succ_of_le ih
  | case4 _ c cs _ _ _ ih => exact Nat.le_succ_of_le ih
  | case5 => exact Nat.le_refl _

/-- What the flags of a pattern say about its characters. -/
structure Mode where
  ignoreCase : Bool := false
  unicode : Bool := true
  /-- Whether white space and comments stand for nothing. -/
  freeSpacing : Bool := false
deriving DecidableEq, Repr

namespace Mode

/-- Whether a character can stand for itself. In Unicode there is no comparison of letters in either
case. -/
def allowsLiteral (m : Mode) : Bool :=
  !(m.ignoreCase && m.unicode)

/-- Whether a character can stand in a class. -/
def allowsMember (m : Mode) (c : Char) : Bool :=
  m.unicode || c.toNat < 128

/-- The text from the next character on that stands for something. -/
def skip (m : Mode) (cs : List Char) : List Char :=
  if m.freeSpacing then skipFiller false cs else cs

theorem length_skip_le (m : Mode) (cs : List Char) : (m.skip cs).length ≤ cs.length := by
  rw [skip]
  split
  · exact length_skipFiller_le false cs
  · exact Nat.le_refl _

/-- The character that decides about a dash in front of it. White space is passed over, and of a
comment only the number sign. -/
def peek? (m : Mode) (cs : List Char) : Option Char :=
  if m.freeSpacing then
    match cs.dropWhile Blank.isSpace with
    | '#' :: rest => (rest.dropWhile Blank.isSpace).head?
    | rest => rest.head?
  else cs.head?

/-- The mode with the flags of a group, each of which may stand once. The flags after a dash are
switched off, and there is at least one of them. -/
def withFlags? (m : Mode) (seen : List Char) (on : Bool) : List Char → Option Mode
  | [] => if !on && seen.head? = some '-' then none else some m
  | c :: cs =>
    if seen.contains c then none
    else if c = '-' then withFlags? m (c :: seen) false cs
    else if c = 'i' then withFlags? { m with ignoreCase := on } (c :: seen) on cs
    else if c = 'u' then withFlags? { m with unicode := on } (c :: seen) on cs
    else if c = 'x' then withFlags? { m with freeSpacing := on } (c :: seen) on cs
    else if c = 'm' || c = 's' || c = 'U' || c = 'R' then withFlags? m (c :: seen) on cs
    else none

end Mode

end BitClassifier.Pattern
