/-!
# Output languages

What differs between the languages in which classifiers are emitted: names of types, constants and
files, and the functions that count compare and jump instructions.
-/

namespace BitClassifier

/-- A language in which classifiers are emitted. -/
inductive Language where
  | c
  | cpp
deriving DecidableEq, Repr

/-- The counting functions of a profiled classifier. -/
inductive Counter where
  | reset
  /-- Counts one instruction more, and holds. -/
  | moreTrue
  /-- Counts one instruction more, and fails. -/
  | moreFalse
  /-- Counts one instruction less, and holds. -/
  | lessTrue
  /-- Counts one instruction less, and fails. -/
  | lessFalse
  /-- The number of counted instructions. -/
  | count
deriving DecidableEq, Repr

/-- Lines of source text. -/
def unlines (lines : List String) : String :=
  String.join (lines.map (· ++ "\n"))

/-- An indentation by a number of tabulators. -/
def tabs (n : Nat) : String :=
  String.ofList (List.replicate n '\t')

/-- The comment at the top of every emitted file. -/
def banner : String :=
  "// Autogenerated by uniclass 0.1.0. Do not edit.\n\n"

namespace Language

/-- The extension of source files. -/
def sourceExtension : Language → String
  | c => "c"
  | cpp => "cpp"

/-- The extension of headers. -/
def headerExtension : Language → String
  | c => "h"
  | cpp => "hpp"

/-- The header extension in capitals, as it is used in include guards. -/
def guardSuffix : Language → String
  | c => "H"
  | cpp => "HPP"

/-- The type of a classifier's answer. -/
def boolType : Language → String
  | c => "int"
  | cpp => "bool"

/-- The constant for an answer. -/
def constant : Language → Bool → String
  | c, true => "1"
  | c, false => "0"
  | cpp, true => "true"
  | cpp, false => "false"

/-- The name of a counting function. -/
def counter : Language → Counter → String
  | c, .reset => "profiler_reset"
  | c, .moreTrue => "inct"
  | c, .moreFalse => "incf"
  | c, .lessTrue => "dect"
  | c, .lessFalse => "decf"
  | c, .count => "jumps"
  | cpp, .reset => "Profiler::reset"
  | cpp, .moreTrue => "Profiler::inct"
  | cpp, .moreFalse => "Profiler::incf"
  | cpp, .lessTrue => "Profiler::dect"
  | cpp, .lessFalse => "Profiler::decf"
  | cpp, .count => "Profiler::jumps"

/-- The line that includes the combined header. -/
def includeHeader (l : Language) : String :=
  "#include \"uniclass." ++ l.headerExtension ++ "\"\n"

end Language

end BitClassifier
