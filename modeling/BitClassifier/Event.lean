import BitClassifier.Region

/-!
# Events

What the operations of the library report while they work. An event is a value: operations return
the events in order, and the outer layer decides which of them to show and how.
-/

namespace BitClassifier

/-- How serious an event is, the most serious level first. -/
inductive Level where
  | error
  | warn
  | info
  | debug
  | trace
deriving DecidableEq, Repr

/-- The place of a level among the five, zero for the most serious one. -/
def Level.rank : Level → Nat
  | error => 0
  | warn => 1
  | info => 2
  | debug => 3
  | trace => 4

/-- The name of a level in a line of the log. -/
def Level.name : Level → String
  | error => "ERROR"
  | warn => "WARN"
  | info => "INFO"
  | debug => "DEBUG"
  | trace => "TRACE"

/-- The kinds of file that a generator writes. -/
inductive Artifact where
  | classifier
  | classifierTest
  | header
  | testHeader
  | profiler
  | main
deriving DecidableEq, Repr

/-- The name of a kind of file. -/
def Artifact.name : Artifact → String
  | classifier => "classifier"
  | classifierTest => "classifier test"
  | header => "combined header"
  | testHeader => "combined test header"
  | profiler => "profiler"
  | main => "main"

/-- A reported fact. -/
inductive Event where
  /-- Distinct values above the domain were left out of a classifier. -/
  | valuesIgnored (skipped : Nat) (width : Width)
  | trieBuilt (values nodes : Nat) (width : Width)
  | triePruned (nodes comparisons : Nat)
  /-- A chain of only children led to an accepted region. -/
  | chainAccepts (region : Region)
  /-- A chain of only children led to a node with two. -/
  | chainNarrowed (region : Region)
  /-- Both sides of a bit were the same, and the bit was dropped. -/
  | twinsMerged (bit : CodeValue)
  | allButOne (hole : Region)
  /-- An accepted region was taken out of a subtree. -/
  | branchPruned (region : Region)
  | lineSkipped (line : Nat) (text : String)
  /-- A range was closed by a line whose name does not say so. -/
  | rangeClosedBy (first : CodeValue) (name : String)
  | categoryUndefined (name : String)
  | dataLoaded (path : String) (values categories : Nat)
  | dataRead (path : String) (values : Nat)
  | classifierCompiled (categories : String) (matching comparisons worstCase : Nat)
  | writing (artifact : Artifact) (path : String)
  | failed (message : String)
  | causedBy (message : String)
deriving DecidableEq, Repr

namespace Event

/-- The value of a field: a number, text shown as it is, or text shown in quotes. -/
inductive Field where
  | number (n : Nat)
  | plain (text : String)
  | quoted (text : String)
deriving DecidableEq, Repr

/-- How serious an event is. -/
def level : Event → Level
  | valuesIgnored .. => .warn
  | trieBuilt .. => .debug
  | triePruned .. => .debug
  | chainAccepts _ => .trace
  | chainNarrowed _ => .trace
  | twinsMerged _ => .trace
  | allButOne _ => .trace
  | branchPruned _ => .trace
  | lineSkipped .. => .warn
  | rangeClosedBy .. => .warn
  | categoryUndefined _ => .warn
  | dataLoaded .. => .debug
  | dataRead .. => .info
  | classifierCompiled .. => .info
  | writing .. => .info
  | failed _ => .error
  | causedBy _ => .error

/-- The part of the program that reports the event, by which a log can be filtered. -/
def target : Event → String
  | triePruned .. => "uniclass::predicate::pruner"
  | chainAccepts _ => "uniclass::predicate::pruner"
  | chainNarrowed _ => "uniclass::predicate::pruner"
  | twinsMerged _ => "uniclass::predicate::pruner"
  | allButOne _ => "uniclass::predicate::pruner"
  | branchPruned _ => "uniclass::predicate::pruner"
  | lineSkipped .. => "uniclass::parser"
  | rangeClosedBy .. => "uniclass::parser"
  | categoryUndefined _ => "uniclass::parser"
  | dataLoaded .. => "uniclass::parser"
  | writing .. => "uniclass::generator"
  | _ => "uniclass"

/-- What an event says. -/
def message : Event → String
  | valuesIgnored .. => "code values outside of the domain are ignored"
  | trieBuilt .. => "built match trie"
  | triePruned .. => "pruned match trie"
  | chainAccepts _ => "base chain ends in an accepting region"
  | chainNarrowed _ => "base chain narrowed"
  | twinsMerged _ => "merged identical subtrees"
  | allButOne _ => "subtree accepts all but one region"
  | branchPruned _ => "pruned accepting branch"
  | lineSkipped .. => "skipping malformed line"
  | rangeClosedBy .. => "range closed by an unexpected line"
  | categoryUndefined _ => "general category is undefined, ignoring"
  | dataLoaded .. => "loaded unicode data"
  | dataRead .. => "read unicode data"
  | classifierCompiled .. => "compiled classifier"
  | writing artifact _ => "writing " ++ artifact.name
  | failed message => message
  | causedBy message => "  caused by: " ++ message

/-- The fields of an event in the order in which they are shown. -/
def fields : Event → List (String × Field)
  | valuesIgnored skipped width => [("skipped", .number skipped), ("width", .plain width.text)]
  | trieBuilt values nodes width =>
    [("values", .number values), ("nodes", .number nodes), ("width", .plain width.text)]
  | triePruned nodes comparisons =>
    [("nodes", .number nodes), ("comparisons", .number comparisons)]
  | chainAccepts region => [("prefix", .plain region.text)]
  | chainNarrowed region => [("prefix", .plain region.text)]
  | twinsMerged bit => [("bit", .number bit.toNat)]
  | allButOne hole => [("hole", .plain hole.text)]
  | branchPruned region => [("prefix", .plain region.text)]
  | lineSkipped line text => [("line", .number line), ("text", .quoted text)]
  | rangeClosedBy first name => [("first", .number first.toNat), ("name", .quoted name)]
  | categoryUndefined name => [("category", .quoted name)]
  | dataLoaded path values categories =>
    [("path", .plain path), ("values", .number values), ("categories", .number categories)]
  | dataRead path values => [("path", .plain path), ("values", .number values)]
  | classifierCompiled categories matching comparisons worstCase =>
    [("categories", .quoted categories), ("matching", .number matching),
      ("comparisons", .number comparisons), ("worst_case", .number worstCase)]
  | writing _ path => [("path", .plain path)]
  | failed _ => []
  | causedBy _ => []

/-- The names by which a log filter can ask for a field. The message counts as a field. -/
def fieldNames (e : Event) : List String :=
  "message" :: e.fields.map (·.1)

end Event

end BitClassifier
