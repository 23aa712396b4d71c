import BitClassifier.Table.Reader
import Std.Data.HashMap

/-!
# Stores

A store is the form in which the categories of code values are kept while a data file is read. The
name of a category is interned, and from then on it is known by its symbol; a hash map leads from
the symbols to the values. A name is interned as soon as a record brings it, but if that record
opens a range, there are no values for it until the range is closed.

How names are interned is left open (`Interner`), and so is the hash by which symbols are found.
-/

namespace BitClassifier

/-- A way to keep names once each, with a symbol for every name. -/
structure Interner (Symbol Names : Type) where
  /-- Before any name is kept. -/
  empty : Names
  /-- The symbol of a name, if it is kept. -/
  get? : Names → String → Option Symbol
  /-- The symbol of a name, which is kept from now on. -/
  intern : Names → String → Symbol × Names
  /-- The name that a symbol stands for. -/
  resolve? : Names → Symbol → Option String

/-- Names in the order in which they came, each with its place as its symbol. -/
def Interner.listed : Interner Nat (List String) where
  empty := []
  get? names name := names.idxOf? name
  intern names name :=
    match names.idxOf? name with
    | some place => (place, names)
    | none => (names.length, names ++ [name])
  resolve? names place := names[place]?

/-- The categories of code values under their symbols. -/
structure Store (Symbol Names : Type) [DecidableEq Symbol] [Hashable Symbol] where
  names : Names
  lists : Std.HashMap Symbol (List CodeValue)
  len : Nat

namespace Reported

/-- An outcome about which nothing is reported. -/
def ok {α : Type} (a : α) : Reported α :=
  ⟨[], .ok a⟩

/-- Goes on from an outcome unless it is an error. -/
def andThen {α β : Type} (x : Reported α) (rest : α → Reported β) : Reported β :=
  match x.result with
  | .error e => stop x.events e
  | .ok a => (rest a).report x.events

end Reported

namespace Store

variable {Symbol Names : Type} [DecidableEq Symbol] [Hashable Symbol]

/-- The store before anything is read. -/
def empty (I : Interner Symbol Names) : Store Symbol Names :=
  ⟨I.empty, ∅, 0⟩

/-- The symbol of a category. -/
def category? (I : Interner Symbol Names) (d : Store Symbol Names) (name : String) :
    Option Symbol :=
  I.get? d.names name

/-- The name of a category. -/
def resolve? (I : Interner Symbol Names) (d : Store Symbol Names) (s : Symbol) : Option String :=
  I.resolve? d.names s

/-- The names of the categories that have values, in ascending order. -/
def categories (I : Interner Symbol Names) (d : Store Symbol Names) : List String :=
  (d.lists.keys.filterMap (d.resolve? I)).mergeSort fun a b => decide (a ≤ b)

/-- The values of a category in the order of the file. -/
def values (d : Store Symbol Names) (s : Symbol) : List CodeValue :=
  d.lists.getD s []

/-- Whether there are no values. -/
def isEmpty (d : Store Symbol Names) : Bool :=
  d.len == 0

/-- The values of all categories that are named in a list, ascending. -/
def filter (I : Interner Symbol Names) (d : Store Symbol Names) (spec : String) :
    List CodeValue :=
  ascending ((Table.names spec).flatMap fun name => (d.category? I name).elim [] d.values)

/-- What is reported about a list of names. -/
def filterEvents (I : Interner Symbol Names) (d : Store Symbol Names) (spec : String) :
    List Event :=
  ((Table.names spec).filter fun name => (d.category? I name).isNone).map .categoryUndefined

/-- The symbol of a name that is kept from now on. -/
def intern (I : Interner Symbol Names) (d : Store Symbol Names) (name : String) :
    Symbol × Store Symbol Names :=
  let (s, names) := I.intern d.names name
  (s, { d with names })

/-- Puts values behind those of a category. -/
def addRange (d : Store Symbol Names) (first last : CodeValue) (s : Symbol) :
    Store Symbol Names :=
  let before := d.values s
  let after := before ++ valuesFrom first last
  { d with lists := d.lists.insert s after, len := d.len + (after.length - before.length) }

/-! ### Reading -/

/-- How far reading has come: what is stored, and the first value and the category of a range that
has begun. -/
structure Progress (Symbol Names : Type) [DecidableEq Symbol] [Hashable Symbol] where
  store : Store Symbol Names
  opened : Option (CodeValue × Symbol) := none

namespace Progress

/-- Reads a record. -/
def readRecord (I : Interner Symbol Names) (p : Progress Symbol Names) (r : Record) :
    Reported (Progress Symbol Names) :=
  if UInt32.size ≤ r.code then .stop [] .codeTooLarge
  else
    let code := BitVec.ofNat 32 r.code
    match p.opened with
    | some (first, s) =>
      let events := Reading.closingEvents first r
      if code < first then .stop events (.emptyRange first code)
      else (Reported.ok ⟨p.store.addRange first code s, none⟩).report events
    | none =>
      let (s, store) := p.store.intern I r.category
      if r.opensRange then .ok ⟨store, some (code, s)⟩
      else .ok ⟨store.addRange code code s, none⟩

/-- Reads a line. -/
def readLine (I : Interner Symbol Names) (p : Progress Symbol Names) (line : Line) :
    Reported (Progress Symbol Names) :=
  match line.content with
  | .nothing => .ok p
  | .malformed text => (Reported.ok p).report [.lineSkipped line.number (String.ofList text)]
  | .record r => p.readRecord I r

/-- Reads lines one after another. -/
def readLines (I : Interner Symbol Names) (p : Progress Symbol Names) :
    List Line → Reported (Progress Symbol Names)
  | [] => .ok p
  | line :: lines => (p.readLine I line).andThen fun p => p.readLines I lines

/-- What is stored at the end, where no range may be open. -/
def finish (p : Progress Symbol Names) : Reported (Store Symbol Names) :=
  match p.opened with
  | none => .ok p.store
  | some (first, _) => .stop [] (.unclosedRange first)

end Progress

/-- Reads a text. -/
def ofText (I : Interner Symbol Names) (text : String) : Reported (Store Symbol Names) :=
  ((⟨empty I, none⟩ : Progress Symbol Names).readLines I (Line.ofText text.toList)).andThen
    Progress.finish

end Store

end BitClassifier
