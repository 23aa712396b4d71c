import BitClassifier.Fault

/-!
# Tries

A set of code values of one width as a binary trie, most significant bit first. The nodes are
entries of an array and name each other by their indices. The root is entry 0 and always stays; a
new node is a new entry at the end, and the entry of a removed node stays empty, so that no number
is given twice.

Numbers are natural numbers, and no run that comes to its end hands out one that words of 32 bits
would not hold. The first such number is `2 ^ 32`, which would be cut to 0, the root. It would go
into the slot in which the descent for a value has stopped, and from there the descent would begin
again at the root, come down the same way to this slot and never end. A trie that is only filled
never gets there: it has less than `2 ^ 32` entries.

A trie is kept minimal: a node that accepts everything is folded into its parent (`trimUp`), and a
node that holds nothing is removed (`removeUp`).
-/

namespace BitClassifier

/-- What is in a slot of a node. -/
inductive Slot where
  /-- Nothing below is in the set. -/
  | absent
  /-- Everything below is in the set. -/
  | full
  /-- The node with this number decides. -/
  | child (id : Nat)
deriving DecidableEq, Repr

namespace Slot

/-- Whether a slot holds a node. -/
def isChild : Slot → Bool
  | child _ => true
  | _ => false

/-- The numbers of the nodes directly in a slot. -/
def children : Slot → List Nat
  | child id => [id]
  | _ => []

end Slot

/-- A node of a trie. -/
structure Node where
  /-- The bit that the node tests. -/
  bit : CodeValue
  /-- The values with the bit. -/
  on : Slot
  /-- The values without the bit. -/
  off : Slot
  /-- The node that holds this one; the root has none. -/
  parent : Option Nat
deriving DecidableEq, Repr

namespace Node

/-- A node that holds nothing. -/
def bare (bit : CodeValue) (parent : Option Nat) : Node :=
  ⟨bit, .absent, .absent, parent⟩

/-- The slot on one side. -/
def slot (n : Node) (side : Bool) : Slot :=
  if side then n.on else n.off

/-- Fills the slot on one side. -/
def put (n : Node) (side : Bool) (s : Slot) : Node :=
  if side then { n with on := s } else { n with off := s }

/-- The only slot that holds something, if the other one is absent. -/
def single? (n : Node) : Option (Bool × Slot) :=
  match n.on, n.off with
  | .absent, .absent => none
  | s, .absent => some (true, s)
  | .absent, s => some (false, s)
  | _, _ => none

end Node

/-- A set of code values. -/
structure Trie where
  width : Width
  nodes : Array (Option Node)
  /-- The number of nodes below the root. -/
  count : Nat
deriving DecidableEq, Repr

namespace Trie

/-- The empty set. -/
def empty (width : Width) : Trie :=
  ⟨width, #[some (.bare width.highBit none)], 0⟩

/-- The node with a number, if there is one. -/
def cell? (t : Trie) (id : Nat) : Option Node :=
  t.nodes[id]?.join

/-- Whether a node has this number. -/
def Live (t : Trie) (id : Nat) : Prop :=
  (t.cell? id).isSome

/-- The number of nodes below the root. -/
def len (t : Trie) : Nat := t.count

/-- The node with a number. -/
def node (t : Trie) (id : Nat) : Run Node :=
  match t.cell? id with
  | some n => pure n
  | none => throw (.notLive id)

/-- Whether no value is in the set. -/
def isEmpty (t : Trie) : Run Bool := do
  let root ← t.node 0
  return root.on = .absent && root.off = .absent

/-- Whether the whole domain is in the set. -/
def isFull (t : Trie) : Run Bool := do
  let root ← t.node 0
  return root.on = .full && root.off = .full

/-! ## Entries -/

/-- Replaces an entry. -/
def setCell (t : Trie) (id : Nat) (n : Option Node) : Trie :=
  { t with nodes := t.nodes.setIfInBounds id n }

/-- Fills a slot of a node. -/
def putSlot (t : Trie) (id : Nat) (side : Bool) (s : Slot) : Run Trie := do
  let n ← t.node id
  return t.setCell id (some (n.put side s))

/-- Fills the slot of a node that holds a given node. -/
def putSlotOf (t : Trie) (id held : Nat) (s : Slot) : Run Trie := do
  let n ← t.node id
  if n.on = .child held then return t.setCell id (some (n.put true s))
  else if n.off = .child held then return t.setCell id (some (n.put false s))
  else throw (.notHeld held)

/-- Makes a new node. -/
def alloc (t : Trie) (n : Node) : Nat × Trie :=
  (t.nodes.size, { t with nodes := t.nodes.push (some n), count := t.count + 1 })

/-- Counts one node less. -/
def uncount (t : Trie) : Run Trie :=
  if t.count = 0 then throw .miscounted
  else return { t with count := t.count - 1 }

/-- Gives up a node that holds no other node. -/
def free (t : Trie) (id : Nat) : Run Trie :=
  if id = 0 then throw .rootFreed
  else match t.cell? id with
    | none => return t
    | some n =>
      if n.on.isChild || n.off.isChild then throw (.nodeBelow id)
      else (t.setCell id none).uncount

/-- Gives up the nodes on a stack with all below them, and adds their number to `released`. -/
def releaseAll (t : Trie) (stack : List Nat) (released : Nat) : Run (Nat × Trie) :=
  match stack with
  | [] => return (released, t)
  | id :: stack =>
    match t.cell? id with
    | none => t |>.releaseAll stack released
    | some n => do
      let t ← (t.setCell id none).uncount
      t |>.releaseAll (n.off.children ++ n.on.children ++ stack) (released + 1)
partial_fixpoint

/-- Gives up a node with all below it; the slot that held it is left to the caller. The first part
of the answer is the number of given up nodes. -/
def release (t : Trie) (id : Nat) : Run (Nat × Trie) :=
  t.releaseAll [id] 0

/-- Gives up what is in a slot. -/
def releaseSlot (t : Trie) : Slot → Run (Nat × Trie)
  | .child id => t.release id
  | _ => return (0, t)

/-- Replaces a node both slots of which hold `s` by `s`, then its parent, and so on upwards. The
first part of the answer is the number of replaced nodes. -/
def cascade (s : Slot) (t : Trie) (id : Nat) : Run (Nat × Trie) := do
  let n ← t.node id
  match n.parent with
  | none => return (0, t)
  | some parent =>
    if n.on = s ∧ n.off = s then do
      let t ← t.putSlotOf parent id s
      let t ← t.free id
      let (replaced, t) ← t |>.cascade s parent
      return (replaced + 1, t)
    else return (0, t)
partial_fixpoint

/-- Folds a node that accepts everything into its parent, and so on upwards. -/
def trimUp (t : Trie) (id : Nat) : Run (Nat × Trie) :=
  cascade .full t id

/-- Removes a node that holds nothing from its parent, and so on upwards. -/
def removeUp (t : Trie) (id : Nat) : Run (Nat × Trie) :=
  cascade .absent t id

/-! ## The set -/

/-- Makes the path of a value below a node as far as it is missing. The first part of the answer is
the last node of the path, or nothing if the path ends in a slot that accepts everything. -/
def descend (value : CodeValue) (t : Trie) (id : Nat) : Run (Option Nat × Trie) := do
  let n ← t.node id
  let side := hits value n.bit
  match n.slot side with
  | .full => return (none, t)
  | .child below => t |>.descend value below
  | .absent =>
    if n.bit = 1#32 then do
      let t ← t.putSlot id side .full
      return (some id, t)
    else do
      let (below, t) := t.alloc (.bare (n.bit >>> 1) (some id))
      let t ← t.putSlot id side (.child below)
      t |>.descend value below
partial_fixpoint

/-- Adds a value of the domain. The first part of the answer tells whether it is new. -/
def insert (t : Trie) (value : CodeValue) : Run (Bool × Trie) :=
  if t.width.contains value then do
    let (last?, t) ← t.descend value 0
    match last? with
    | none => return (false, t)
    | some last => do
      let (_, t) ← t.trimUp last
      return (true, t)
  else throw (.outOfDomain value)

/-- Adds values in order. -/
def insertAll (t : Trie) : List CodeValue → Run Trie
  | [] => return t
  | value :: values => do
    let (_, t) ← t.insert value
    t.insertAll values

/-- The set of the values of an ascending list; of equal neighbours only the first is added. -/
def ofSorted (width : Width) (values : List CodeValue) : Run Trie :=
  (empty width).insertAll values.eraseReps

/-- Whether a value is accepted below a node. -/
def accepts (t : Trie) (value : CodeValue) (id : Nat) : Run Bool := do
  let n ← t.node id
  match n.slot (hits value n.bit) with
  | .absent => return false
  | .full => return true
  | .child below => t |>.accepts value below
partial_fixpoint

/-- Whether a value is in the set. Bits above the width do not count. -/
def contains (t : Trie) (value : CodeValue) : Run Bool :=
  t.accepts value 0

/-- Empties a slot of a node, and removes the nodes that are left without anything below them. The
first part of the answer is the number of removed nodes. The root stays. -/
def clear (t : Trie) (id : Nat) (side : Bool) : Run (Nat × Trie) := do
  let n ← t.node id
  let t ← t.putSlot id side .absent
  let (released, t) ← t.releaseSlot (n.slot side)
  let (removed, t) ← t.removeUp id
  return (released + removed, t)

/-- Whether the pairs on a stack have nodes and accepting slots in the same places. -/
def sameAll (t : Trie) (stack : List (Slot × Slot)) : Run Bool :=
  match stack with
  | [] => return true
  | (.child left, .child right) :: stack => do
    let l ← t.node left
    let r ← t.node right
    t |>.sameAll ((l.off, r.off) :: (l.on, r.on) :: stack)
  | (.absent, .absent) :: stack => t |>.sameAll stack
  | (.full, .full) :: stack => t |>.sameAll stack
  | _ => return false
partial_fixpoint

/-- Whether two slots have nodes and accepting slots in the same places. -/
def sameSubtree (t : Trie) (left right : Slot) : Run Bool :=
  t.sameAll [(left, right)]

/-! ## Paths -/

/-- The node at the end of a path that starts at a node. -/
def walk? (t : Trie) (id : Nat) : List Bool → Option Nat
  | [] => (t.cell? id).map fun _ => id
  | side :: path => do
    let n ← t.cell? id
    match n.slot side with
    | .child below => t.walk? below path
    | _ => none

/-- The node at the end of a path from the root. -/
def idAt? (t : Trie) (path : List Bool) : Option Nat :=
  t.walk? 0 path

end Trie

end BitClassifier
