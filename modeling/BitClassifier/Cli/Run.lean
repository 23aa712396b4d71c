import BitClassifier.Cli.Arguments
import BitClassifier.Cli.LogFilter
import BitClassifier.Cli.LogLine

/-!
# The program

Arguments either lead to a run or end the program early. Of what a run reports, the log filter
decides what is shown.
-/

namespace BitClassifier

/-- The line that tells the version of the program. -/
def versionLine : String := "uniclass 0.1.0"

/-- The line that tells how the program is used. -/
def usageLine : String := "Usage: uniclass [OPTIONS] <CATEGORIES>..."

/-- The outcome of the program. -/
structure Outcome where
  exitCode : Nat
  output : List String
  errors : List String
  directory : Directory

/-- The outcome for arguments that do not lead to a run. -/
def EarlyExit.outcome (d : Directory) : EarlyExit → Outcome
  | error e => ⟨2, [], [e.message], d⟩
  | version => ⟨0, [versionLine], [], d⟩
  | help => ⟨0, [usageLine], [], d⟩

/-- The exit code of a program that a fault has ended. -/
def faultCode : Nat := 101

/-- The program in a directory, with the log filter of the environment. -/
def execute (arguments : List String) (environment : Option String) (d : Directory) : Outcome :=
  match Options.ofArguments arguments with
  | .error early => early.outcome d
  | .ok o =>
    match LogFilter.choose o.logLevel environment with
    | (none, complaints) => ⟨faultCode, [], complaints, d⟩
    | (some filter, complaints) =>
      let ran := o.run d
      { exitCode := if ran.succeeded then 0 else 1
        output := (ran.events.filter filter.shows).map Event.line
        errors := complaints
        directory := ran.directory }

end BitClassifier
