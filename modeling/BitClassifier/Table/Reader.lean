import BitClassifier.Directory
import BitClassifier.Table.Basic
import BitClassifier.Table.Record

/-!
# Reading category tables

The records of a text become the blocks of a table. A record whose name ends in `First>` opens a
range, and the next record closes it, whatever that record is called. Malformed lines are reported
and skipped.
-/

namespace BitClassifier

/-- Why there is no table. -/
inductive ReadError where
  | unreadable (path : String) (reason : FileError)
  | noCodeValues (path : String)
  | codeTooLarge
  | unclosedRange (first : CodeValue)
  | emptyRange (first last : CodeValue)
deriving DecidableEq, Repr

namespace ReadError

/-- The text of an error. -/
def message : ReadError → String
  | unreadable path _ => "failed to read " ++ path
  | noCodeValues path => "no code values found in " ++ path
  | codeTooLarge => "invalid code value"
  | unclosedRange first => "range starting at " ++ Hex.text first.toNat ++ " is never closed"
  | emptyRange first last =>
    "range " ++ Hex.text first.toNat ++ "..=" ++ Hex.text last.toNat ++ " is empty"

/-- The text of what lies behind an error. -/
def cause? : ReadError → Option String
  | unreadable _ reason => some reason.message
  | codeTooLarge => some "number too large to fit in target type"
  | _ => none

end ReadError

/-- The outcome of reading, with what was reported until it was known. -/
structure Reported (α : Type) where
  events : List Event
  result : Except ReadError α

namespace Reported

variable {α : Type}

/-- Reading that stops with an error. -/
def stop (events : List Event) (error : ReadError) : Reported α :=
  ⟨events, .error error⟩

/-- Reports something before the rest. -/
def report (events : List Event) (rest : Reported α) : Reported α :=
  ⟨events ++ rest.events, rest.result⟩

end Reported

/-- The outcome of reading a table. -/
abbrev Reading := Reported Table

namespace Reading

/-- The table that was read, or why there is none. -/
abbrev table (reading : Reading) : Except ReadError Table :=
  reading.result

/-- Puts a block before those of the rest. -/
def add (block : Block) (rest : Reading) : Reading :=
  ⟨rest.events, rest.table.map fun table => ⟨block :: table.blocks⟩⟩

/-- What is reported about a record that closes a range. -/
def closingEvents (first : CodeValue) (r : Record) : List Event :=
  if r.closesRange then [] else [.rangeClosedBy first r.name]

/-- Reads lines, where `opened` is the first value and the category of a range that has begun. -/
def ofLines (opened : Option (CodeValue × String)) : List Line → Reading
  | [] =>
    match opened with
    | none => ⟨[], .ok {}⟩
    | some (first, _) => .stop [] (.unclosedRange first)
  | line :: lines =>
    match line.content with
    | .nothing => ofLines opened lines
    | .malformed text =>
      (ofLines opened lines).report [.lineSkipped line.number (String.ofList text)]
    | .record r =>
      if UInt32.size ≤ r.code then .stop [] .codeTooLarge
      else
        let code := BitVec.ofNat 32 r.code
        match opened with
        | some (first, category) =>
          if code < first then .stop (closingEvents first r) (.emptyRange first code)
          else ((ofLines none lines).add ⟨first, code, category⟩).report (closingEvents first r)
        | none =>
          if r.opensRange then ofLines (some (code, r.category)) lines
          else (ofLines none lines).add ⟨code, code, r.category⟩

/-- Reads a text. -/
def ofText (text : String) : Reading :=
  ofLines none (Line.ofText text.toList)

/-- Reads the text of the file at a path, if it could be had. A table without values is an error. -/
def ofFile (path : String) (text : Except FileError String) : Reading :=
  match text with
  | .error reason => .stop [] (.unreadable path reason)
  | .ok text =>
    let reading := ofText text
    match reading.table with
    | .error _ => reading
    | .ok table =>
      if table.isEmpty then .stop reading.events (.noCodeValues path)
      else ⟨reading.events ++ [.dataLoaded path table.len table.categories.length], .ok table⟩

end Reading

end BitClassifier
