import BitClassifier.Cli.Run

/-!
# The program

Reads the data file and writes the source files of the classifiers named on the command line.
-/

namespace BitClassifier

/-- The reason behind a failed file operation. -/
def FileError.ofSystem : IO.Error → FileError
  | .noFileOrDirectory .. => .notFound
  | .inappropriateType _ 20 _ => .notADirectory
  | .inappropriateType _ 21 _ => .isADirectory
  | e => .other (toString e)

/-- The text of a file. -/
def readText (path : String) : IO (Except FileError String) := do
  try
    match String.fromUTF8? (← IO.FS.readBinFile path) with
    | some text => return .ok text
    | none => return .error .notText
  catch e => return .error (.ofSystem e)

/-- Takes the steps of a run until one fails, and tells whether none did. -/
def runSteps (emit : Event → IO Unit) : List Step → IO Bool
  | [] => return true
  | .report event :: steps => do
    emit event
    runSteps emit steps
  | .write file :: steps => do
    emit (.writing file.artifact file.path)
    let failed ← try
        IO.FS.writeFile file.path file.text
        pure none
      catch e => pure (some (FileError.ofSystem e))
    match failed with
    | none => runSteps emit steps
    | some reason => do
      (failureEvents (WriteError.message ⟨file.path, reason⟩) (some reason.message)).forM emit
      return false
  | .fail message cause :: _ => do
    (failureEvents message cause).forM emit
    return false

end BitClassifier

open BitClassifier in
/-- Runs the program with the arguments of the command line. -/
def main (arguments : List String) : IO UInt32 := do
  match Options.ofArguments arguments with
  | .error early =>
    let outcome := early.outcome { folders := [], files := [] }
    outcome.output.forM IO.println
    outcome.errors.forM fun line => IO.eprintln line
    return UInt32.ofNat outcome.exitCode
  | .ok o =>
    let (filter?, complaints) := LogFilter.choose o.logLevel (← IO.getEnv "RUST_LOG")
    complaints.forM fun line => IO.eprintln line
    match filter? with
    | none => return UInt32.ofNat faultCode
    | some filter =>
      let emit (e : Event) : IO Unit := do
        if filter.shows e then IO.println e.line
      let succeeded ← runSteps emit (o.steps (← readText o.unicodeData))
      return if succeeded then 0 else 1
