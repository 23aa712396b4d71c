import BitClassifier.Cli.Directive

/-!
# Log filters

Which events are shown is told by a list of directives with commas between them. Of the directives
about an event the most specific one decides.
-/

namespace BitClassifier

/-- Which events are shown. -/
structure LogFilter where
  directives : List Directive
deriving DecidableEq, Repr

namespace LogFilter

/-- Shows everything down to a level. -/
def atLeast (level : Level) : LogFilter :=
  ⟨[{ threshold := some level }]⟩

/-- The parts of a text between its commas that are not empty. -/
def parts (text : String) : List String :=
  ((text.toList.splitOn ',').filter (!·.isEmpty)).map String.ofList

/-- Reads a filter all of whose directives must be well-formed. Without any, nothing is shown. -/
def ofText (text : String) : Except DirectiveError LogFilter :=
  return ⟨← (parts text).mapM Directive.ofText⟩

/-- What comes of reading directives of which some may be malformed. -/
structure Lenient where
  directives : List Directive := []
  complaints : List String := []
  /-- Whether the reading was broken off by a fault. -/
  brokenOff : Bool := false
deriving DecidableEq, Repr

/-- The complaint about a directive. -/
def complaint (part : String) (e : DirectiveError) : String :=
  "ignoring \x60" ++ part ++ "\x60: " ++ e.message

/-- Reads the directives that are well-formed and complains about each of the others. -/
def Lenient.ofParts : List String → Lenient
  | [] => {}
  | part :: parts =>
    match Directive.ofText part with
    | .ok d =>
      let rest := ofParts parts
      { rest with directives := d :: rest.directives }
    | .error .insideCharacter => { brokenOff := true }
    | .error e =>
      let rest := ofParts parts
      { rest with complaints := complaint part e :: rest.complaints }

/-- The filter that has been read, if the reading was not broken off. Without directives, errors are
shown. -/
def Lenient.filter? (l : Lenient) : Option LogFilter :=
  if l.brokenOff then none
  else some (if l.directives.isEmpty then atLeast .error else ⟨l.directives⟩)

/-- The directive that decides about an event, which is the last one of those that yield to no
other. -/
def deciding? (f : LogFilter) (e : Event) : Option Directive :=
  (f.directives.filter (·.covers e)).foldl (fun best d =>
    match best with
    | none => some d
    | some b => if d.yieldsTo b then some b else some d) none

/-- Whether an event is shown. -/
def shows (f : LogFilter) (e : Event) : Bool :=
  match (f.deciding? e).bind (·.threshold) with
  | some level => e.level.rank ≤ level.rank
  | none => false

/-- The filter for the log of a run, if it could be read, and complaints about it: the option
decides, then the environment, and without either (or with a malformed environment) everything from
`info` on is shown. -/
def choose (option environment : Option String) : Option LogFilter × List String :=
  match option, environment with
  | some text, _ =>
    let lenient := Lenient.ofParts (parts text)
    (lenient.filter?, lenient.complaints)
  | none, none => (some (atLeast .info), [])
  | none, some text =>
    match ofText text with
    | .ok filter => (some filter, [])
    | .error .insideCharacter => (none, [])
    | .error _ => (some (atLeast .info), [])

end LogFilter

end BitClassifier
