import BitClassifier.Text.Blank
import BitClassifier.Text.Hex
import BitClassifier.Text.Line

/-!
# Records

A line of a data file holds a record, or nothing but blanks and a comment, or it is malformed. A
record is a hexadecimal code, a name and a category with semicolons between them, then any number of
further fields and a comment that begins with `#`. Blanks may stand around the code and the
category and before every semicolon.
-/

namespace BitClassifier

/-- The first three fields of a line. -/
structure Record where
  code : Nat
  name : String
  category : String
deriving DecidableEq, Repr

namespace Record

/-- The characters that may stand between the parts of a line. -/
def isBlank (c : Char) : Bool :=
  c == ' ' || c == '\t' || c == '\x0b'

/-- The characters of a name or of a further field. -/
def isFieldChar (c : Char) : Bool :=
  c != ';' && c != '#'

/-- A row of characters without the blanks in front. -/
def skipBlanks (cs : List Char) : List Char :=
  cs.dropWhile isBlank

/-- What follows a semicolon. -/
def semicolon? : List Char → Option (List Char)
  | ';' :: rest => some rest
  | _ => none

/-- Whether a record may end before the given characters. -/
def mayEnd : List Char → Bool
  | [] => true
  | c :: _ => !isFieldChar c

/-- Reads a line as a record. -/
def ofChars? (line : List Char) : Option Record := do
  let line := skipBlanks line
  let digits := line.takeWhile Hex.isDigit
  guard !digits.isEmpty
  let rest ← semicolon? (skipBlanks (line.dropWhile Hex.isDigit))
  let name := rest.takeWhile isFieldChar
  let rest ← semicolon? (rest.dropWhile isFieldChar)
  let rest := skipBlanks rest
  let category := rest.takeWhile Char.isAlphanum
  guard (category.head?.any Char.isAlpha)
  guard (mayEnd (skipBlanks (rest.dropWhile Char.isAlphanum)))
  return ⟨Hex.digitsValue digits, String.ofList (Blank.trim name), String.ofList category⟩

/-- Whether the record begins a range. -/
def opensRange (r : Record) : Bool :=
  "First>".toList.isSuffixOf r.name.toList

/-- Whether the record says that it ends a range. -/
def closesRange (r : Record) : Bool :=
  "Last>".toList.isSuffixOf r.name.toList

end Record

/-- What a line holds. -/
inductive Content where
  /-- Blanks and perhaps a comment. -/
  | nothing
  | record (r : Record)
  /-- Anything else, without the blanks in front. -/
  | malformed (text : List Char)
deriving DecidableEq, Repr

/-- Reads the characters of a line. -/
def Content.ofChars (line : List Char) : Content :=
  match Record.skipBlanks line with
  | [] => nothing
  | '#' :: _ => nothing
  | rest =>
    match Record.ofChars? rest with
    | some r => record r
    | none => malformed rest

/-- What a line holds. -/
def Line.content (line : Line) : Content :=
  Content.ofChars line.text

end BitClassifier
