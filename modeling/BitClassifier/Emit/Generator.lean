import BitClassifier.Directory
import BitClassifier.Emit.Shared
import BitClassifier.Emit.Test
import BitClassifier.Event
import BitClassifier.Text.Blank

/-!
# Generators

A generator emits the source files of one classifier after another (`Generator.sources`) and at last
those that all of them share (`Generator.sharedSources`). The files are written one by one, each
announced by an event, until one cannot be written.
-/

namespace BitClassifier

/-- What is emitted, and where. -/
structure Settings where
  outputDir : String := "."
  /-- Whether tests are emitted. -/
  tests : Bool := true
  /-- Whether instructions are counted. -/
  profiler : Bool := false
  width : Width := .widest
  language : Language := .cpp
deriving DecidableEq, Repr

/-- A file to be written. -/
structure SourceFile where
  artifact : Artifact
  path : String
  text : String
deriving DecidableEq, Repr

/-- A file that could not be written. -/
structure WriteError where
  path : String
  reason : FileError
deriving DecidableEq, Repr

/-- The text of an error, without its reason. -/
def WriteError.message (e : WriteError) : String :=
  "failed to write " ++ e.path

/-- The name of the classifier for a list of categories: without white space, and with underscores
for commas. -/
def classifierName (categories : String) : String :=
  "uniclass_" ++ String.ofList ((categories.toList.filter fun c => !Blank.isSpace c).map fun c =>
    if c = ',' then '_' else c)

/-- The settings, and the names of the classifiers that have been asked for. -/
structure Generator where
  settings : Settings
  classifiers : List String := []
deriving DecidableEq, Repr

namespace Generator

/-- How expressions are emitted. -/
def style (g : Generator) : Style :=
  ⟨g.settings.language, g.settings.profiler, g.settings.width⟩

/-- Registers one more classifier. -/
def register (g : Generator) (name : String) : Generator :=
  { g with classifiers := g.classifiers ++ [name] }

/-- A file of the output directory. -/
def file (g : Generator) (artifact : Artifact) (name extension text : String) : SourceFile :=
  ⟨artifact, joinPath g.settings.outputDir (name ++ "." ++ extension), text⟩

/-- The text of a classifier's source file. -/
def renderClassifier (g : Generator) (name : String) (p : Predicate) : String :=
  g.style.classifier name p

/-- The text of a test's source file, for the matching values. -/
def renderTest (g : Generator) (name : String) (values : List CodeValue) : String :=
  g.style.testFile name values

/-- The text of the header that declares the classifiers. -/
def renderHeader (g : Generator) : String :=
  g.settings.language.header g.settings.profiler g.classifiers

/-- The text of the header that runs the tests. -/
def renderTestHeader (g : Generator) : String :=
  g.settings.language.testHeader g.classifiers

/-- The files of one classifier. -/
def sources (g : Generator) (name : String) (p : Predicate) (values : List CodeValue) :
    List SourceFile :=
  let extension := g.settings.language.sourceExtension
  g.file .classifier name extension (g.renderClassifier name p)
    :: if g.settings.tests then
      [g.file .classifierTest ("test_" ++ name) extension (g.renderTest name values)]
    else []

/-- The files that all classifiers share. -/
def sharedSources (g : Generator) : List SourceFile :=
  let l := g.settings.language
  [g.file .header "uniclass" l.headerExtension g.renderHeader]
    ++ (if g.settings.tests then
        [g.file .testHeader "test_uniclass" l.headerExtension g.renderTestHeader]
      else [])
    ++ (if g.settings.profiler then
        [g.file .profiler "uniclass_profiler" l.sourceExtension l.profilerSource]
      else [])
    ++ [g.file .main "main" l.sourceExtension (l.mainSource g.settings.tests g.classifiers)]

end Generator

/-- The outcome of writing files: the directory as it is left, what was reported, and the first
file that could not be written. -/
structure Written where
  directory : Directory
  events : List Event
  error? : Option WriteError

/-- Writes files in order until one cannot be written. -/
def Directory.writeAll (d : Directory) : List SourceFile → Written
  | [] => ⟨d, [], none⟩
  | file :: files =>
    let event := Event.writing file.artifact file.path
    match d.write file.path file.text with
    | .error reason => ⟨d, [event], some ⟨file.path, reason⟩⟩
    | .ok d' =>
      let rest := d'.writeAll files
      { rest with events := event :: rest.events }

/-- Registers a classifier and writes its files. -/
def Generator.generate (g : Generator) (d : Directory) (name : String) (p : Predicate)
    (values : List CodeValue) : Generator × Written :=
  let g' := g.register name
  (g', d.writeAll (g'.sources name p values))

/-- Writes the shared files. -/
def Generator.finalize (g : Generator) (d : Directory) : Written :=
  d.writeAll g.sharedSources

end BitClassifier
