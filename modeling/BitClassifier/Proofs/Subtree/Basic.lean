import BitClassifier.Proofs.Bits
import BitClassifier.Trie.Basic
import Mathlib.Data.Multiset.AddSub
import Mathlib.Data.Multiset.MapFold

/-!
# Trees of nodes

What hangs below a slot of a trie, as one value: a tree whose nodes carry the numbers under which
they are stored. `cells` is the storage that a tree takes up, `accepts` is its meaning.

The shape of a tree is settled by two conditions. `Fits n` says that the nodes test one bit after
another, from `2 ^ (n - 1)` down. `Minimal` says that the two sides of a node are never the same
leaf, so that a tree has a node wherever it accepts some values and rejects others.
-/

namespace BitClassifier

open BitVec

/-- What hangs below a slot. -/
inductive Subtree where
  /-- Nothing below is in the set. -/
  | absent
  /-- Everything below is in the set. -/
  | full
  /-- Tests one bit: `off` for the values without it, `on` for those with it. -/
  | node (id : Nat) (bit : CodeValue) (off on : Subtree)
deriving DecidableEq, Repr

namespace Subtree

/-- The slot that holds a tree. -/
def slot : Subtree → Slot
  | absent => .absent
  | full => .full
  | node id .. => .child id

/-- The nodes of a tree with their numbers, as they are stored below a parent. -/
def cells : Subtree → (parent : Option Nat) → Multiset (Nat × Node)
  | absent, _ => 0
  | full, _ => 0
  | node id bit off on, parent =>
    (id, ⟨bit, on.slot, off.slot, parent⟩) ::ₘ (off.cells (some id) + on.cells (some id))

/-- The number of nodes. -/
def size : Subtree → Nat
  | absent => 0
  | full => 0
  | node _ _ off on => 1 + off.size + on.size

/-- Whether a value is accepted. -/
def accepts (c : CodeValue) : Subtree → Bool
  | absent => false
  | full => true
  | node _ bit off on => if hits c bit then on.accepts c else off.accepts c

/-- The tree without nodes that accepts everything or nothing. -/
def leaf (b : Bool) : Subtree :=
  if b then full else absent

/-- Whether a tree is a node. -/
def isNode : Subtree → Bool
  | node .. => true
  | _ => false

/-- The nodes test the bits from `2 ^ (n - 1)` down, one on each level. -/
def Fits : Subtree → (n : Nat) → Prop
  | absent, _ => True
  | full, _ => True
  | node .., 0 => False
  | node _ bit off on, n + 1 => bit = twoPow 32 n ∧ off.Fits n ∧ on.Fits n

/-- The two sides of a node are never the same leaf. -/
def Minimal : Subtree → Prop
  | absent => True
  | full => True
  | node _ _ off on => (∀ b, ¬(off = leaf b ∧ on = leaf b)) ∧ off.Minimal ∧ on.Minimal

section Slots

variable {s : Subtree} {id : Nat}

@[simp] theorem slot_absent : absent.slot = .absent := rfl

@[simp] theorem slot_full : full.slot = .full := rfl

@[simp] theorem slot_node (id : Nat) (bit : CodeValue) (off on : Subtree) :
    (node id bit off on).slot = .child id := rfl

@[simp] theorem slot_eq_absent : s.slot = .absent ↔ s = absent := by
  cases s <;> simp [slot]

@[simp] theorem slot_eq_full : s.slot = .full ↔ s = full := by
  cases s <;> simp [slot]

theorem slot_eq_child : s.slot = .child id ↔ ∃ bit off on, s = node id bit off on := by
  cases s <;> simp [slot]

@[simp] theorem leaf_true : leaf true = full := rfl

@[simp] theorem leaf_false : leaf false = absent := rfl

theorem slot_eq_leaf {b : Bool} : s.slot = (leaf b).slot ↔ s = leaf b := by
  cases b
  · exact slot_eq_absent
  · exact slot_eq_full

theorem isNode_iff : s.isNode = true ↔ ∃ id bit off on, s = node id bit off on := by
  cases s <;> simp [isNode]

theorem isNode_of_slot (h : s.slot = .child id) : s.isNode = true := by
  obtain ⟨bit, off, on, rfl⟩ := slot_eq_child.mp h
  rfl

theorem exists_slot_of_isNode (h : s.isNode = true) : ∃ id, s.slot = .child id := by
  obtain ⟨id, bit, off, on, rfl⟩ := isNode_iff.mp h
  exact ⟨id, rfl⟩

theorem isNode_of_ne (habsent : s ≠ absent) (hfull : s ≠ full) : s.isNode = true := by
  cases s <;> simp_all [isNode]

theorem ne_leaf_of_isNode (h : s.isNode = true) (b : Bool) : s ≠ leaf b := by
  rintro rfl
  cases b <;> cases h

theorem size_pos (h : s.isNode = true) : 0 < s.size := by
  obtain ⟨id, bit, off, on, rfl⟩ := isNode_iff.mp h
  rw [size]
  omega

theorem card_cells (s : Subtree) (parent : Option Nat) : (s.cells parent).card = s.size := by
  induction s generalizing parent with
  | absent => rfl
  | full => rfl
  | node id bit off on ihOff ihOn =>
    rw [cells, size, Multiset.card_cons, Multiset.card_add, ihOff, ihOn]
    omega

end Slots

/-! ## Meaning -/

section Meaning

variable {id : Nat} {bit c d : CodeValue} {off on s : Subtree} {n : Nat}

@[simp] theorem fits_absent : absent.Fits n := by
  cases n <;> exact trivial

@[simp] theorem fits_full : full.Fits n := by
  cases n <;> exact trivial

theorem Fits.pos (h : (node id bit off on).Fits n) : ∃ k, n = k + 1 := by
  cases n with
  | zero => exact h.elim
  | succ k => exact ⟨k, rfl⟩

/-- A tree that fits `n` levels sees the lowest `n` bits only. -/
theorem accepts_congr (hn : n ≤ 32) (hs : s.Fits n) (hc : AgreeBelow n c d) :
    s.accepts c = s.accepts d := by
  induction s generalizing n with
  | absent => rfl
  | full => rfl
  | node id bit off on ihOff ihOn =>
    obtain ⟨k, rfl⟩ := hs.pos
    obtain ⟨rfl, hOff, hOn⟩ := hs
    rw [agreeBelow_succ] at hc
    simp only [accepts, hits_twoPow hn, hc.1, ihOff (by omega) hOff hc.2,
      ihOn (by omega) hOn hc.2]

end Meaning

end Subtree

end BitClassifier
