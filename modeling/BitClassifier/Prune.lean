import BitClassifier.Event
import BitClassifier.Predicate.Basic
import BitClassifier.Trie.Basic

/-!
# Pruning

A trie is turned into a predicate with few compare and jump instructions by taking it apart from the
root. A subtree is named by its node, the frontier, and by the region of the values that lead there.
The frontier is reduced in turns, each of which takes the first step that applies:

* a chain of only children becomes one test of all its bits, and the frontier moves to its end;
* a bit whose two sides are the same is dropped;
* a subtree that accepts all but one region becomes one negated test;
* an accepted region that hangs on a side or on a chain of only children is tested first and taken
  out of the subtree;
* otherwise the predicate jumps on the bit of the frontier.

What a step has dealt with is cleared from the trie. A run that leaves a node behind is a fault.
-/

namespace BitClassifier

/-- The test for a region (`equals`) or for its complement. -/
def Region.test (r : Region) (equals : Bool) : Predicate :=
  .bitTest r.mask r.value equals

/-- An accepting slot, with the region it accepts. -/
structure Found where
  id : Nat
  side : Bool
  region : Region
  /-- The number of bits that the region fixes below the place where the search began. -/
  depth : Nat
deriving DecidableEq, Repr

/-- Of two regions the deeper one, and the second one if they are equally deep. -/
def Found.deeper? : (on off : Option Found) → Option Found
  | some on, some off => some (if off.depth < on.depth then on else off)
  | some on, none => some on
  | none, off => off

/-- A test that is made before the rest of a subtree is looked at. -/
inductive Link where
  /-- The rest counts only if the test holds. -/
  | and (test : Predicate)
  /-- The rest counts only if the test fails. -/
  | or (test : Predicate)
deriving DecidableEq, Repr

/-- A predicate behind a test. -/
def Link.join (rest : Predicate) : Link → Predicate
  | and test => .and test rest
  | or test => .or test rest

/-- A predicate behind a chain of tests, the last of which comes first in the list. -/
def Link.joinAll (chain : List Link) (rest : Predicate) : Predicate :=
  chain.foldl join rest

/-- What a chain of only children comes to. -/
inductive Base where
  /-- There is no such chain. -/
  | unchanged
  /-- The whole subtree is one test. -/
  | resolved (test : Predicate)
  /-- Behind a test the subtree of another node is left. -/
  | narrowed (test : Predicate) (frontier : Nat) (region : Region)
deriving DecidableEq, Repr

/-- What the accepted regions of a subtree come to. -/
inductive Top where
  | unchanged
  /-- The whole subtree is one test. -/
  | resolved (test : Predicate)
  /-- A region was tested and taken out of the subtree. -/
  | pruned (test : Predicate)
deriving DecidableEq, Repr

/-- What a turn comes to. The tests that were made are listed with the last one first. -/
inductive Turn where
  /-- The subtree is dealt with. -/
  | done (tail : Predicate)
  /-- The subtree of the frontier is left. -/
  | again (links : List Link) (frontier : Nat) (region : Region)
  /-- The subtree of the frontier is left, and only a jump can deal with it. -/
  | jump (links : List Link) (frontier : Nat) (region : Region)
deriving DecidableEq, Repr

namespace Trie

/-- Follows only children from a slot down to one that accepts everything. `depth` counts the bits
that were fixed before. -/
def chase (t : Trie) (id : Nat) (region : Region) (depth : Nat) : Run (Option Found) := do
  let n ← t.node id
  match n.single? with
  | none => return none
  | some (side, s) =>
    let region := region.fix n.bit side
    match s with
    | .child below => t |>.chase below region (depth + 1)
    | .full => return some ⟨id, side, region, depth + 1⟩
    | .absent => throw .absentSingle
partial_fixpoint

/-- The accepted region at the end of a chain of only children that starts in a slot. -/
def findRegion (t : Trie) (s : Slot) (region : Region) : Run (Option Found) :=
  match s with
  | .child id => t.chase id region 0
  | _ => return none

/-- The only region of a subtree that is not accepted, if every node on the way to it has an
accepting slot. -/
def findHole (t : Trie) (id : Nat) (region : Region) : Run (Option Region) := do
  let n ← t.node id
  match n.on, n.off with
  | .full, .absent => return some (region.fix n.bit false)
  | .absent, .full => return some (region.fix n.bit true)
  | .full, .child below => t |>.findHole below (region.fix n.bit false)
  | .child below, .full => t |>.findHole below (region.fix n.bit true)
  | _, _ => return none
partial_fixpoint

end Trie

/-- A trie that is being pruned, with what was emitted so far. -/
structure Pruner where
  trie : Trie
  /-- The compare and jump instructions that were emitted. -/
  comparisons : Nat
  events : Array Event
deriving DecidableEq, Repr

namespace Pruner

/-- Reports a step. -/
def report (p : Pruner) (e : Event) : Pruner :=
  { p with events := p.events.push e }

/-- Counts one more instruction. -/
def count (p : Pruner) : Pruner :=
  { p with comparisons := p.comparisons + 1 }

/-- Empties a slot of the trie. -/
def clear (p : Pruner) (id : Nat) (side : Bool) : Run Pruner := do
  let (_, trie) ← p.trie.clear id side
  return { p with trie }

/-- Folds the chain of only children from a node below the frontier on. -/
def foldChain (p : Pruner) (frontier id : Nat) (region : Region) : Run (Base × Pruner) := do
  let n ← p.trie.node id
  match n.single? with
  | some (side, s) =>
    let region := region.fix n.bit side
    match s with
    | .child below => p |>.foldChain frontier below region
    | .full => do
      let p ← (p.report (.chainAccepts region)).clear id side
      return (.resolved (region.test true), p.count)
    | .absent => throw .absentSingle
  | none =>
    if id = frontier then return (.unchanged, p)
    else return (.narrowed (region.test true) id region, (p.report (.chainNarrowed region)).count)
partial_fixpoint

/-- Folds the chain of only children that starts at the frontier into one test. -/
def pruneBase (p : Pruner) (frontier : Nat) (region : Region) : Run (Base × Pruner) :=
  p.foldChain frontier frontier region

/-- Drops the bit of the frontier if its two sides are the same. The first part of the answer is the
side that is left. -/
def mergeTwins (p : Pruner) (frontier : Nat) : Run (Option Nat × Pruner) := do
  let n ← p.trie.node frontier
  match n.on, n.off with
  | .child on, .child off =>
    if ← p.trie.sameSubtree (.child on) (.child off) then do
      let p ← (p.report (.twinsMerged n.bit)).clear frontier true
      return (some off, p)
    else return (none, p)
  | _, _ => return (none, p)

/-- Takes an accepted region out of the subtree of the frontier. -/
def pruneTop (p : Pruner) (frontier : Nat) (region : Region) : Run (Top × Pruner) := do
  let n ← p.trie.node frontier
  if n.on = .full ∨ n.off = .full then
    let side := decide (n.on = .full)
    match ← p.trie.findHole frontier region with
    | some hole => do
      let p ← (p.report (.allButOne hole)).clear frontier !side
      let p ← p.clear frontier side
      return (.resolved (hole.test false), p.count)
    | none => do
      let p ← p.clear frontier side
      return (.pruned ((region.fix n.bit side).test true), p.count)
  else do
    let on ← p.trie.findRegion n.on (region.fix n.bit true)
    let off ← p.trie.findRegion n.off (region.fix n.bit false)
    match Found.deeper? on off with
    | some found => do
      let p ← (p.report (.branchPruned found.region)).clear found.id found.side
      return (.pruned (found.region.test true), p.count)
    | none => return (.unchanged, p)

/-- The steps of a turn after chains of only children. -/
def reduce (p : Pruner) (links : List Link) (frontier : Nat) (region : Region) :
    Run (Turn × Pruner) := do
  match ← p.mergeTwins frontier with
  | (some twin, p) => return (.again links twin region, p)
  | (none, p) => do
    match ← p.pruneTop frontier region with
    | (.resolved test, p) => return (.done (Link.joinAll links test), p)
    | (.pruned test, p) => return (.again (.or test :: links) frontier region, p)
    | (.unchanged, p) => return (.jump links frontier region, p)

/-- One turn at the frontier. -/
def turn (p : Pruner) (frontier : Nat) (region : Region) : Run (Turn × Pruner) := do
  match ← p.pruneBase frontier region with
  | (.resolved test, p) => return (.done test, p)
  | (.narrowed test frontier region, p) => p.reduce [.and test] frontier region
  | (.unchanged, p) => p.reduce [] frontier region

mutual

/-- Takes the subtree of the frontier apart, behind the tests of `chain`. -/
def prune (p : Pruner) (chain : List Link) (frontier : Nat) (region : Region) :
    Run (Predicate × Pruner) := do
  match ← p.turn frontier region with
  | (.done tail, p) => return (Link.joinAll chain tail, p)
  | (.again links frontier region, p) => p |>.prune (links ++ chain) frontier region
  | (.jump links frontier region, p) => do
    let (tail, p) ← p |>.branch frontier region
    return (Link.joinAll (links ++ chain) tail, p)
partial_fixpoint

/-- Jumps on the bit of the frontier and takes its two sides apart, `on` before `off`. -/
def branch (p : Pruner) (frontier : Nat) (region : Region) : Run (Predicate × Pruner) := do
  let n ← p.trie.node frontier
  match n.on, n.off with
  | .child on, .child off => do
    let (whenOn, p) ← p.count |>.prune [] on (region.fix n.bit true)
    let (whenOff, p) ← p |>.prune [] off (region.fix n.bit false)
    return (.cond n.bit whenOn whenOff, p)
  | _, _ => throw .unbranched
partial_fixpoint

end

/-- The start of a run. -/
def start (trie : Trie) : Pruner :=
  ⟨trie, 0, #[]⟩

/-- Takes the whole trie apart. -/
def resolve (p : Pruner) : Run (Predicate × Pruner) := do
  if ← p.trie.isEmpty then return (.constant false, p)
  else if ← p.trie.isFull then return (.constant true, p)
  else p.prune [] 0 .whole

/-- Turns a trie into a predicate. Nothing of the trie is left when this succeeds. -/
def run (p : Pruner) : Run (Predicate × Pruner) := do
  let nodes := p.trie.len
  let (predicate, p) ← p.resolve
  if p.trie.len = 0 then return (predicate, p.report (.triePruned nodes p.comparisons))
  else throw .unconsumed

end Pruner

end BitClassifier
