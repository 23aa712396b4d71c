import BitClassifier.Compile
import BitClassifier.Emit.Generator
import BitClassifier.Table.Reader

/-!
# Runs

What a run does is settled by its options and the text of the data file: a list of steps, each of
which reports something, writes a file or ends the run. `Options.run` takes the steps in a directory
that is a value.
-/

namespace BitClassifier

/-- What a run of the program is asked to do. -/
structure Options where
  categories : List String := []
  unicodeData : String := "UnicodeData.txt"
  settings : Settings := {}
  logLevel : Option String := none
deriving DecidableEq, Repr

/-- A step of a run. -/
inductive Step where
  | report (event : Event)
  | write (file : SourceFile)
  /-- The run has failed. -/
  | fail (message : String) (cause : Option String)
deriving DecidableEq, Repr

/-- What is reported about a failure. -/
def failureEvents (message : String) (cause : Option String) : List Event :=
  .failed message :: (cause.toList.map .causedBy)

namespace Options

/-- The steps for the categories of a run, one classifier after another, and for the shared files
at the end. -/
def classifierSteps (o : Options) (table : Table) : (g : Generator) → List String → List Step
  | g, [] => g.sharedSources.map .write
  | g, spec :: specs =>
    let values := table.filter spec
    let reported := (table.filterEvents spec).map Step.report
    match compileReporting values o.settings.width with
    | .error fault => reported ++ [.fail fault.message none]
    | .ok (compiled, events) =>
      let name := classifierName spec
      let g' := g.register name
      reported ++ events.map .report
        ++ [.report (.classifierCompiled spec values.length compiled.comparisons
          compiled.predicate.worstCase)]
        ++ (g'.sources name compiled.predicate values).map .write
        ++ classifierSteps o table g' specs

/-- The steps of a run, given the text of the data file. -/
def steps (o : Options) (text : Except FileError String) : List Step :=
  let reading := Reading.ofFile o.unicodeData text
  reading.events.map .report
    ++ match reading.table with
      | .error e => [.fail e.message e.cause?]
      | .ok table =>
        .report (.dataRead o.unicodeData table.len)
          :: o.classifierSteps table ⟨o.settings, []⟩ o.categories

end Options

/-- What is left of a run. -/
structure Ran where
  directory : Directory
  events : List Event
  succeeded : Bool

/-- Takes the steps of a run in order until one fails. -/
def Step.runAll (d : Directory) : List Step → Ran
  | [] => ⟨d, [], true⟩
  | .report event :: steps =>
    let rest := runAll d steps
    { rest with events := event :: rest.events }
  | .write file :: steps =>
    let event := Event.writing file.artifact file.path
    match d.write file.path file.text with
    | .ok d' =>
      let rest := runAll d' steps
      { rest with events := event :: rest.events }
    | .error reason =>
      let e : WriteError := ⟨file.path, reason⟩
      ⟨d, event :: failureEvents e.message (some reason.message), false⟩
  | .fail message cause :: _ => ⟨d, failureEvents message cause, false⟩

/-- A run in a directory. -/
def Options.run (o : Options) (d : Directory) : Ran :=
  Step.runAll d (o.steps (d.read o.unicodeData))

end BitClassifier
