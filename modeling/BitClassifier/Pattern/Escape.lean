import BitClassifier.Pattern.Mode
import BitClassifier.Text.Hex

/-!
# Escape sequences of patterns

A backslash in front of a character makes it stand for itself, or for a character that is hard to
write, a class of characters or a condition on a place. Classes that depend on tables of letters and
digits are not available in Unicode.
-/

namespace BitClassifier.Pattern

/-- What an escape sequence stands for. -/
inductive Escaped where
  | char (c : Char)
  /-- A class of ASCII characters. -/
  | set
  /-- A condition on the place where it stands, and whether it asks what a word is in Unicode. -/
  | place (unicodeWord : Bool)
deriving DecidableEq, Repr

/-- Reads a number of hexadecimal digits. -/
def hexDigits? (m : Mode) : (count : Nat) → List Char → Option (List Char × List Char)
  | 0, cs => some ([], cs)
  | count + 1, cs =>
    match m.skip cs with
    | [] => none
    | d :: rest =>
      if Hex.isDigit d then (hexDigits? m count rest).map fun (ds, rest) => (d :: ds, rest)
      else none

/-- Reads a character that is written by a number of hexadecimal digits. -/
def hexChar? (m : Mode) (count : Nat) (cs : List Char) : Option (Char × List Char) :=
  (hexDigits? m count cs).bind fun (digits, rest) =>
    let n := Hex.digitsValue digits
    if n.isValidChar then some (Char.ofNat n, rest) else none

/-- The control character that a letter stands for after a backslash. -/
def controlChar? : Char → Option Char
  | 'a' => some '\x07'
  | 't' => some '\t'
  | 'n' => some '\n'
  | 'v' => some '\x0b'
  | 'f' => some '\x0c'
  | 'r' => some '\r'
  | _ => none

/-- Reads an escape sequence without its backslash. -/
def escaped? (m : Mode) : List Char → Option (Escaped × List Char)
  | [] => none
  | 'x' :: cs => (hexChar? m 2 cs).bind fun (c, rest) =>
    if m.allowsMember c then some (.char c, rest) else none
  | 'u' :: cs => (hexChar? m 4 cs).map fun (c, rest) => (.char c, rest)
  | 'U' :: cs => (hexChar? m 8 cs).map fun (c, rest) => (.char c, rest)
  | c :: cs =>
    match controlChar? c with
    | some control => some (.char control, cs)
    | none =>
      if c = 'd' || c = 's' || c = 'w' then if m.unicode then none else some (.set, cs)
      else if c = 'A' || c = 'z' then some (.place false, cs)
      else if c = 'b' || c = 'B' || c = '<' || c = '>' then some (.place m.unicode, cs)
      else if c.isAlphanum || 128 ≤ c.toNat then none
      else some (.char c, cs)

end BitClassifier.Pattern
