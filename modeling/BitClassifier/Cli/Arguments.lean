import BitClassifier.Cli.Steps
import BitClassifier.Text.Terminal

/-!
# Command line arguments

Options may stand anywhere, before and after the categories. The value of a long option follows it
or is attached by `=`; short options can be joined, and the value of the last one attached. After
`--` everything is a category.

An option whose value is the next argument is only looked at when the argument after it is read, so
an unknown option is reported before a wrong value in front of it.
-/

namespace BitClassifier

/-- The options that have a value. -/
inductive Setting where
  | unicodeData
  | outputDir
  | language
  | width
  | logLevel
deriving DecidableEq, Repr

/-- The options without a value. -/
inductive Switch where
  | noTests
  | profiler
  | version
  | help
deriving DecidableEq, Repr

namespace Setting

/-- An option as it is shown in messages. -/
def name : Setting → String
  | unicodeData => "--unicode-data <UNICODE_DATA>"
  | outputDir => "--output-dir <OUTPUT_DIR>"
  | language => "--language <LANGUAGE>"
  | width => "--width <WIDTH>"
  | logLevel => "--log-level <LOG_LEVEL>"

end Setting

namespace Switch

/-- An option as it is shown in messages. -/
def name : Switch → String
  | noTests => "--no-tests"
  | profiler => "--profiler"
  | version => "--version"
  | help => "--help"

end Switch

/-- Why arguments cannot be understood. -/
inductive ArgumentError where
  | missingCategories
  | unexpected (argument : String)
  | missingValue (option : Setting)
  | invalidValue (option : Setting) (value : String) (reason : Option String)
  | repeated (name : String)
  | unexpectedValue (value : String) (option : Switch)
deriving DecidableEq, Repr

/-- The text of an error. What was given on the command line is shown without control sequences. -/
def ArgumentError.message : ArgumentError → String
  | missingCategories => "error: the following required arguments were not provided:"
  | unexpected argument => "error: unexpected argument '" ++ Terminal.plain argument ++ "' found"
  | missingValue option =>
    "error: a value is required for '" ++ option.name ++ "' but none was supplied"
  | invalidValue option value reason =>
    "error: invalid value '" ++ Terminal.plain value ++ "' for '" ++ option.name ++ "'"
      ++ (match reason with | some text => ": " ++ text | none => "")
  | repeated name => "error: the argument '" ++ name ++ "' cannot be used multiple times"
  | unexpectedValue value option =>
    "error: unexpected value '" ++ Terminal.plain value ++ "' for '" ++ option.name
      ++ "' found; no more were expected"

/-- Why the reading of arguments ends early. -/
inductive EarlyExit where
  | error (e : ArgumentError)
  | version
  | help
deriving DecidableEq, Repr

/-- What an option's name stands for. -/
inductive OptionKind where
  | setting (s : Setting)
  | switch (s : Switch)
deriving DecidableEq, Repr

namespace OptionKind

/-- The option with a long name. -/
def ofLong? : String → Option OptionKind
  | "unicode-data" => some (.setting .unicodeData)
  | "output-dir" => some (.setting .outputDir)
  | "language" => some (.setting .language)
  | "width" => some (.setting .width)
  | "log-level" => some (.setting .logLevel)
  | "no-tests" => some (.switch .noTests)
  | "profiler" => some (.switch .profiler)
  | "version" => some (.switch .version)
  | "help" => some (.switch .help)
  | _ => none

/-- The option with a short name. -/
def ofShort? : Char → Option OptionKind
  | 'u' => some (.setting .unicodeData)
  | 'o' => some (.setting .outputDir)
  | 'l' => some (.setting .language)
  | 'w' => some (.setting .width)
  | 'p' => some (.switch .profiler)
  | 'V' => some (.switch .version)
  | 'h' => some (.switch .help)
  | _ => none

end OptionKind

/-! ## Numbers -/

/-- Why a text is no number of 32 bits. -/
inductive NumberError where
  | empty
  | invalidDigit
  | tooLarge
deriving DecidableEq, Repr

/-- The text of an error. -/
def NumberError.message : NumberError → String
  | empty => "cannot parse integer from empty string"
  | invalidDigit => "invalid digit found in string"
  | tooLarge => "number too large to fit in target type"

/-- Reads decimal digits up to the first fault. -/
def readDigits (n : Nat) : List Char → Except NumberError Nat
  | [] => .ok n
  | c :: cs =>
    if !c.isDigit then .error .invalidDigit
    else
      let n' := 10 * n + (c.toNat - 48)
      if UInt32.size ≤ n' then .error .tooLarge else readDigits n' cs

/-- Reads a decimal number of 32 bits, with or without a plus sign. -/
def readNumber (text : String) : Except NumberError Nat :=
  match text.toList with
  | [] => .error .empty
  | ['+'] => .error .invalidDigit
  | '+' :: digits => readDigits 0 digits
  | digits => readDigits 0 digits

/-- Reads a width. -/
def readWidth (text : String) : Except String Width :=
  match readNumber text with
  | .error e => .error e.message
  | .ok bits =>
    match Width.ofNat? bits with
    | .error e => .error e.message
    | .ok width => .ok width

/-! ## Reading arguments -/

/-- An option that waits to be looked at. -/
inductive Waiting where
  | nothing
  | forValue (option : Setting)
  | withValue (option : Setting) (value : String)
deriving DecidableEq, Repr

/-- The state of reading arguments. -/
structure Scan where
  options : Options := {}
  /-- The names of the options that have been given. -/
  given : List String := []
  waiting : Waiting := .nothing
  /-- Whether only categories follow. -/
  trailing : Bool := false
deriving DecidableEq, Repr

namespace Scan

/-- Notes that an option is given, which it may be once. -/
def mark (s : Scan) (name : String) : Except EarlyExit Scan :=
  if s.given.contains name then .error (.error (.repeated name))
  else .ok { s with given := name :: s.given }

/-- Gives an option its value. -/
def assign (s : Scan) (option : Setting) (value : String) : Except EarlyExit Scan := do
  let s ← s.mark option.name
  let o := s.options
  let path : Except EarlyExit String :=
    if value.isEmpty then .error (.error (.missingValue option)) else .ok value
  match option with
  | .unicodeData => return { s with options := { o with unicodeData := ← path } }
  | .outputDir =>
    return { s with options := { o with settings := { o.settings with outputDir := ← path } } }
  | .language =>
    let language ← match value with
      | "c" => pure Language.c
      | "cpp" => pure Language.cpp
      | "" => throw (.error (.missingValue option))
      | _ => throw (.error (.invalidValue option value none))
    return { s with options := { o with settings := { o.settings with language } } }
  | .width =>
    match readWidth value with
    | .ok width => return { s with options := { o with settings := { o.settings with width } } }
    | .error reason => throw (.error (.invalidValue option value (some reason)))
  | .logLevel => return { s with options := { o with logLevel := some value } }

/-- Looks at the option that waits. -/
def settle (s : Scan) : Except EarlyExit Scan :=
  let s' := { s with waiting := .nothing }
  match s.waiting with
  | .nothing => .ok s'
  | .forValue option => .error (.error (.missingValue option))
  | .withValue option value => s'.assign option value

/-- Throws a switch. -/
def throwSwitch (s : Scan) (option : Switch) : Except EarlyExit Scan := do
  let s ← s.settle
  match option with
  | .version => throw .version
  | .help => throw .help
  | .noTests =>
    let s ← s.mark option.name
    return { s with
      options := { s.options with settings := { s.options.settings with tests := false } } }
  | .profiler =>
    let s ← s.mark option.name
    return { s with
      options := { s.options with settings := { s.options.settings with profiler := true } } }

/-- Begins an option, with its value if that is attached. -/
def start (s : Scan) (option : Setting) (attached : Option String) : Except EarlyExit Scan := do
  let s ← s.settle
  match attached with
  | some value => s.assign option value
  | none => return { s with waiting := .forValue option }

/-- Reads a long option without its dashes. -/
def long (s : Scan) (text : List Char) : Except EarlyExit Scan :=
  let name := String.ofList (text.takeWhile (· != '='))
  let attached := match text.dropWhile (· != '=') with
    | [] => none
    | _ :: value => some (String.ofList value)
  match OptionKind.ofLong? name, attached with
  | some (.setting option), attached => s.start option attached
  | some (.switch option), none => s.throwSwitch option
  | some (.switch option), some value => .error (.error (.unexpectedValue value option))
  | none, _ => .error (.error (.unexpected ("--" ++ name)))

/-- Reads joined short options without their dash. -/
def short (s : Scan) : List Char → Except EarlyExit Scan
  | [] => .ok s
  | c :: rest =>
    match OptionKind.ofShort? c with
    | some (.switch option) => do (← s.throwSwitch option).short rest
    | some (.setting option) =>
      match rest with
      | [] => s.start option none
      | '=' :: value => s.start option (some (String.ofList value))
      | value => s.start option (some (String.ofList value))
    | none => .error (.error (.unexpected ("-" ++ String.singleton c)))

/-- Reads a category. -/
def category (s : Scan) (text : String) : Except EarlyExit Scan := do
  let s ← s.settle
  return { s with options := { s.options with categories := s.options.categories ++ [text] } }

/-- Reads an argument. -/
def argument (s : Scan) (text : String) : Except EarlyExit Scan :=
  if s.trailing then s.category text
  else
    match text.toList with
    | ['-', '-'] => .ok { s with trailing := true }
    | '-' :: '-' :: rest => s.long rest
    | '-' :: c :: rest => s.short (c :: rest)
    | _ =>
      match s.waiting with
      | .forValue option => .ok { s with waiting := .withValue option text }
      | _ => s.category text

end Scan

/-- Reads the arguments of the program. -/
def Options.ofArguments (arguments : List String) : Except EarlyExit Options := do
  let s ← arguments.foldlM Scan.argument {}
  let s ← s.settle
  if s.options.categories.isEmpty then throw (.error .missingCategories)
  return s.options

end BitClassifier
