import BitClassifier.Event
import BitClassifier.Cli.ValuePattern
import BitClassifier.Text.Blank
import BitClassifier.Text.Bytes

/-!
# Directives of a log filter

A directive is a level, a target, or both as `target=level`. After the target it can name a span of
time and a field of events in brackets, as in `target[span{field=value}]=level`.

The parts of a directive are found in its text without the blanks around it, and are taken from the
text with the blanks, at the same number of bytes from the beginning. So blanks in front of a
directive move its parts, and blanks behind it belong to the last one.
-/

namespace BitClassifier

/-- The least serious level that is shown, or nothing. -/
abbrev Threshold := Option Level

namespace Threshold

/-- The threshold with a number. -/
def ofNumber? : Nat → Option Threshold
  | 0 => some none
  | 1 => some (some .error)
  | 2 => some (some .warn)
  | 3 => some (some .info)
  | 4 => some (some .debug)
  | 5 => some (some .trace)
  | _ => none

/-- The threshold with a name in either case. No name at all is the most serious level. -/
def ofName? (name : String) : Option Threshold :=
  match name.toLower with
  | "" => some (some .error)
  | "off" => some none
  | "error" => some (some .error)
  | "warn" => some (some .warn)
  | "info" => some (some .info)
  | "debug" => some (some .debug)
  | "trace" => some (some .trace)
  | _ => none

/-- The number that decimal digits stand for, with or without a plus sign. -/
def number? (cs : List Char) : Option Nat :=
  let digits := match cs with
    | '+' :: rest => rest
    | cs => cs
  if digits.isEmpty || !digits.all Char.isDigit then none
  else some (digits.foldl (fun n d => 10 * n + (d.toNat - 48)) 0)

/-- Reads a threshold by its number or its name. -/
def ofText? (text : String) : Option Threshold :=
  ((number? text.toList).bind ofNumber?).or (ofName? text)

end Threshold

/-- A field that events must have, and the value that it must have. -/
structure FieldTest where
  name : String
  value : Option String
deriving DecidableEq, Repr

/-- A part of a log filter, for the targets that begin with `target`. -/
structure Directive where
  target : String := ""
  span : Option String := none
  field : Option FieldTest := none
  threshold : Threshold := some .trace
deriving DecidableEq, Repr

/-- Why a directive cannot be read. -/
inductive DirectiveError where
  | malformed
  | unknownLevel
  /-- What should be the value of a field describes none. -/
  | badValue (fault : ValueFault)
  /-- Blanks in front of the directive move the end of a part into a character. This is a fault of
  the program and ends it. -/
  | insideCharacter
deriving DecidableEq, Repr

/-- The text of an error. -/
def DirectiveError.message : DirectiveError → String
  | malformed => "invalid filter directive"
  | unknownLevel =>
    "error parsing level filter: expected one of \"off\", \"error\", \"warn\", \"info\", "
      ++ "\"debug\", \"trace\", or a number 0-5"
  | badValue fault => "invalid field filter: " ++ fault.message
  | insideCharacter => "a part of the filter directive ends inside of a character"

/-- Reads the test of a field. What follows a second equals sign is ignored. -/
def FieldTest.ofChars (cs : List Char) : Except DirectiveError FieldTest :=
  let name := String.ofList (cs.takeWhile (· != '='))
  match cs.dropWhile (· != '=') with
  | [] => .ok ⟨name, none⟩
  | _ :: rest =>
    let value := rest.takeWhile (· != '=')
    match ValuePattern.fault? value with
    | none => .ok ⟨name, some (String.ofList value)⟩
    | some fault => .error (.badValue fault)

namespace Directive

/-- The characters other than a bracket with which a directive may begin. -/
def mayBegin (c : Char) : Bool :=
  c == '-' || c == ':' || c == '_' || isAlphanumeric c

/-- The part of a text between two places. -/
def part (text : List Char) (start stop : Nat) : Except DirectiveError (List Char) :=
  match Bytes.slice? start stop text with
  | some cs => .ok cs
  | none => .error .insideCharacter

/-- The level that begins at a place of a text. All levels are meant if nothing is there. -/
def levelAt (text : List Char) (start : Nat) : Except DirectiveError Threshold :=
  match Bytes.drop? start text with
  | none => .error .insideCharacter
  | some [] => .ok (some .trace)
  | some cs =>
    match Threshold.ofText? (String.ofList cs) with
    | some threshold => .ok threshold
    | none => .error .unknownLevel

/-- Reads what follows the brackets, which is at a place of a text: a level or nothing. -/
def withLevel (d : Directive) (text : List Char) (start : Nat) :
    List Char → Except DirectiveError Directive
  | [] => .ok d
  | '=' :: _ => do return { d with threshold := ← levelAt text (start + 1) }
  | _ => .error .malformed

/-- Reads what follows the opening brace, which is at a place of a text: a field, the closing
brackets, and what follows them. -/
def withField (d : Directive) (text : List Char) (start : Nat) (cs : List Char) :
    Except DirectiveError Directive :=
  let size := Bytes.size (cs.takeWhile (· != '\x7d'))
  match cs.dropWhile (· != '\x7d') with
  | [] => .error .malformed
  | _ :: rest => do
    match ← part text start (start + size) with
    | [] => throw .malformed
    | field =>
      let d := { d with field := some (← FieldTest.ofChars field) }
      match rest with
      | ']' :: rest => d.withLevel text (start + size + 2) rest
      | _ => throw .malformed

/-- Reads what follows the opening bracket, which is at a place of a text: a span, a field, and what
follows them. -/
def withSpan (d : Directive) (text : List Char) (start : Nat) (cs : List Char) :
    Except DirectiveError Directive :=
  let ends (c : Char) : Bool := c == ']' || c == '\x7b'
  let size := Bytes.size (cs.takeWhile fun c => !ends c)
  match cs.dropWhile fun c => !ends c with
  | [] => .error .malformed
  | ']' :: rest => do
    let span ← part text start (start + size)
    { d with span := some (String.ofList span) }.withLevel text (start + size + 1) rest
  | _ :: rest => do
    let span ← part text start (start + size)
    let d := if span.isEmpty then d else { d with span := some (String.ofList span) }
    d.withField text (start + size + 1) rest

/-- Reads a directive, in which there is no comma. A target alone stands for all levels. -/
def ofText (source : String) : Except DirectiveError Directive :=
  let text := source.toList
  match Blank.trim text with
  | [] => .error .malformed
  | '[' :: rest => withSpan {} text 1 rest
  | c :: rest =>
    if !mayBegin c then .error .malformed
    else
      let ends (c : Char) : Bool := c == '=' || c == '['
      let size := Bytes.size ((c :: rest).takeWhile fun c => !ends c)
      match (c :: rest).dropWhile fun c => !ends c with
      | [] =>
        match Threshold.ofText? source with
        | some threshold => .ok { threshold }
        | none => .ok { target := source }
      | '=' :: _ => do
        let target ← part text 0 size
        return { target := String.ofList target, threshold := ← levelAt text (size + 1) }
      | _ :: rest => do
        let target ← part text 0 size
        withSpan { target := String.ofList target } text (size + 1) rest

/-- Whether a directive can decide about events outside of all spans. A field can be asked for by its
name; values and spans are only known inside of a span. -/
def isStatic (d : Directive) : Bool :=
  d.span.isNone && d.field.all (·.value.isNone)

/-- Whether a directive is about an event outside of all spans. -/
def covers (d : Directive) (e : Event) : Bool :=
  d.isStatic && d.target.toList.isPrefixOf e.target.toList
    && d.field.all fun field => e.fieldNames.contains field.name

/-- Whether another directive is to be asked first: one with a longer target, or with a target of the
same length and a field, of fields the one with the later name. -/
def yieldsTo (d other : Directive) : Bool :=
  let size := d.target.utf8ByteSize
  let size' := other.target.utf8ByteSize
  size < size' || (size == size' && match d.field, other.field with
    | none, some _ => true
    | some field, some field' => field.name < field'.name
    | _, none => false)

end Directive

end BitClassifier
