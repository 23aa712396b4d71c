import BitClassifier.Proofs.Prune.Plan
import BitClassifier.Proofs.Trie.Path

/-!
# Searches

The loops of the pruner that only read: each of them, run in a trie, gives what the function on
trees says of the tree that is stored there.
-/

namespace BitClassifier

open Subtree

/-! ## Only children -/

namespace Frame

variable {f : Frame} {p : Option Nat}

theorem single?_node (hother : f.other = absent) {s : Slot} (hs : s ≠ .absent) :
    (f.node s p).single? = some (f.side, s) := by
  obtain ⟨id, bit, side, other⟩ := f
  obtain rfl : other = absent := hother
  cases side <;> cases s <;> simp_all [node, Node.single?, slot]

end Frame

theorem Node.single?_of_forked {bit : CodeValue} {on off : Slot} {p : Option Nat}
    (hon : on ≠ .absent) (hoff : off ≠ .absent) : (⟨bit, on, off, p⟩ : Node).single? = none := by
  cases on <;> cases off <;> simp_all [Node.single?]

namespace Subtree

variable {f : Frame} {x : Subtree} {r : Region}

theorem found?_fill_full (hother : f.other = absent) :
    (f.fill full).found? r = some ⟨f.id, f.side, r.fix f.bit f.side, 1⟩ := by
  unfold found?
  rw [core_fill hother (by simp)]
  rfl

theorem found?_fill_node (hother : f.other = absent) (hx : x.isNode) :
    (f.fill x).found? r =
      (x.found? (r.fix f.bit f.side)).map fun g => { g with depth := g.depth + 1 } := by
  have hcore := core_ne hx
  unfold found?
  rw [core_fill hother (ne_leaf_of_isNode hx false)]
  generalize x.core = c at hcore ⊢
  obtain ⟨l, e⟩ := c
  cases l <;> cases e <;> simp_all [Region.along]

end Subtree

namespace Trie

variable {t : Trie} {w : Width} {k : Spine} {s : Subtree} {id : Nat}

theorem Shows.chase (h : t.Shows w (plug k s)) (hs : s.slot = .child id) (r : Region)
    (depth : Nat) :
    t.chase id r depth = pure ((s.found? r).map fun g => { g with depth := depth + g.depth }) := by
  have hnode := isNode_of_slot hs
  induction s, hnode using chain_induction generalizing k id r depth with
  | empty id' bit =>
    obtain rfl : id' = id := Slot.child.inj hs
    rw [Trie.chase, h.node_eq, pure_bind]
    rfl
  | lone f x hother hx ih =>
    obtain rfl : f.id = id := Slot.child.inj ((f.fill_slot x).symm.trans hs)
    have hslot : x.slot ≠ .absent := fun habsent => hx (slot_eq_absent.mp habsent)
    rw [Trie.chase, h.node, pure_bind, Frame.single?_node hother hslot]
    cases x with
    | absent => exact absurd rfl hx
    | full =>
      rw [found?_fill_full hother, Frame.node_bit]
      rfl
    | node id' bit off on =>
      rw [found?_fill_node hother rfl, Option.map_map]
      simp only [slot_node, Frame.node_bit]
      rw [ih rfl (k := f :: k) h rfl]
      congr 3
      funext g
      simp only [Function.comp]
      congr 1
      omega
  | fork s hnode hforked =>
    obtain ⟨bit, off, on, rfl⟩ := slot_eq_child.mp hs
    rw [Trie.chase, h.node_eq, pure_bind, Node.single?_of_forked (mt slot_eq_absent.mp hforked.2)
      (mt slot_eq_absent.mp hforked.1), found?, core_of_forked hforked]
    rfl

theorem Shows.findRegion (h : t.Shows w (plug k s)) (hs : s.isNode) (r : Region) :
    t.findRegion s.slot r = pure (s.found? r) := by
  obtain ⟨id, bit, off, on, rfl⟩ := isNode_iff.mp hs
  rw [slot_node, Trie.findRegion, h.chase rfl]
  simp

theorem Shows.findHole (h : t.Shows w (plug k s)) (hs : s.slot = .child id) (r : Region) :
    t.findHole id r = pure (s.hole? r) := by
  induction s generalizing k id r with
  | absent => cases hs
  | full => cases hs
  | node id' bit off on ihOff ihOn =>
    obtain rfl : id' = id := Slot.child.inj hs
    rw [Trie.findHole, h.node_eq, pure_bind]
    cases on with
    | absent => cases off <;> simp [hole?]
    | full =>
      cases off with
      | absent => simp [hole?]
      | full => simp [hole?]
      | node below bit' off' on' =>
        rw [hole?, if_pos rfl]
        exact ihOff (k := ⟨id', bit, false, full⟩ :: k) h rfl _
    | node below bit' off' on' =>
      cases off with
      | absent => simp [hole?]
      | full =>
        rw [hole?, if_neg (by simp), if_pos rfl]
        exact ihOn (k := ⟨id', bit, true, full⟩ :: k) h rfl _
      | node => simp [hole?]

/-- The pairs on top of the stack are compared before the rest. -/
theorem Shows.sameAll {j : Spine} {s' : Subtree} (h : t.Shows w (plug k s))
    (h' : t.Shows w (plug j s')) (stack : List (Slot × Slot)) :
    t.sameAll ((s.slot, s'.slot) :: stack) =
      if s.sameShape s' then t.sameAll stack else pure false := by
  induction s generalizing k j s' stack with
  | absent => cases s' <;> simp [Trie.sameAll, sameShape]
  | full => cases s' <;> simp [Trie.sameAll, sameShape]
  | node id bit off on ihOff ihOn =>
    cases s' with
    | absent => simp [Trie.sameAll, sameShape]
    | full => simp [Trie.sameAll, sameShape]
    | node id' bit' off' on' =>
      have hoff := ihOff (k := ⟨id, bit, false, on⟩ :: k) (j := ⟨id', bit', false, on'⟩ :: j) h h'
      have hon := ihOn (k := ⟨id, bit, true, off⟩ :: k) (j := ⟨id', bit', true, off'⟩ :: j) h h'
      rw [slot_node, slot_node, Trie.sameAll, h.node_eq, pure_bind, h'.node_eq, pure_bind]
      simp only [hoff, hon, sameShape, Bool.and_eq_true, ite_and]

end Trie

end BitClassifier
