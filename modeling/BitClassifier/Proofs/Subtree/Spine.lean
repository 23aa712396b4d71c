import BitClassifier.Proofs.Subtree.Basic
import Mathlib.Algebra.Order.Group.Multiset
import Mathlib.Tactic.Abel

/-!
# Places in a tree

A place below the root is given by the frames of the nodes above it, the nearest one first: a spine.
`plug` puts a tree into the place. `climb b` does the same for a node that may have the leaf `b` on
both of its sides: it replaces such a node by the leaf, then looks at the node above in the same
way, and leaves the root as it is. The two differ in shape only (`accepts_climb`).
-/

namespace BitClassifier

open BitVec

/-- A node with an open side. -/
structure Frame where
  id : Nat
  bit : CodeValue
  /-- The open side. -/
  side : Bool
  /-- What is on the other side. -/
  other : Subtree

/-- The frames above a place, the nearest one first. -/
abbrev Spine := List Frame

namespace Frame

/-- Closes the open side. -/
def fill (f : Frame) (s : Subtree) : Subtree :=
  if f.side then .node f.id f.bit f.other s else .node f.id f.bit s f.other

/-- The node as it is stored, with a slot on its open side. -/
def node (f : Frame) (s : Slot) (parent : Option Nat) : Node :=
  if f.side then ⟨f.bit, s, f.other.slot, parent⟩ else ⟨f.bit, f.other.slot, s, parent⟩

section Stored

variable (f : Frame) (s s' : Slot) (p : Option Nat)

@[simp] theorem node_bit : (f.node s p).bit = f.bit := by
  unfold node
  split <;> rfl

@[simp] theorem node_slot : (f.node s p).slot f.side = s := by
  unfold node Node.slot
  split <;> rfl

@[simp] theorem node_slot_not : (f.node s p).slot (!f.side) = f.other.slot := by
  unfold node Node.slot
  cases f.side <;> rfl

@[simp] theorem node_put : (f.node s p).put f.side s' = f.node s' p := by
  unfold node Node.put
  split <;> rfl

end Stored

section Filled

variable (f : Frame) (s : Subtree)

@[simp] theorem fill_slot : (f.fill s).slot = .child f.id := by
  unfold fill
  split <;> rfl

theorem cells_fill (p : Option Nat) :
    (f.fill s).cells p =
      (f.id, f.node s.slot p) ::ₘ (s.cells (some f.id) + f.other.cells (some f.id)) := by
  unfold fill node
  split
  · rw [Subtree.cells, add_comm]
  · rfl

theorem accepts_fill (c : CodeValue) :
    (f.fill s).accepts c = if hits c f.bit = f.side then s.accepts c else f.other.accepts c := by
  unfold fill
  cases f.side <;> cases hc : hits c f.bit <;> simp [Subtree.accepts, hc]

theorem fits_fill {n : Nat} :
    (f.fill s).Fits (n + 1) ↔ f.bit = twoPow 32 n ∧ s.Fits n ∧ f.other.Fits n := by
  unfold fill
  split
  · rw [Subtree.Fits, and_comm (a := f.other.Fits n)]
  · rfl

theorem fits_fill_pos {n : Nat} (h : (f.fill s).Fits n) : ∃ m, n = m + 1 := by
  unfold fill at h
  split at h <;> exact h.pos

end Filled

end Frame

namespace Subtree

/-- The tree on one side of a node. -/
def pick (side : Bool) (off on : Subtree) : Subtree :=
  if side then on else off

/-- A node, seen from one of its sides. -/
theorem fill_pick (id : Nat) (bit : CodeValue) (side : Bool) (off on : Subtree) :
    (⟨id, bit, side, pick (!side) off on⟩ : Frame).fill (pick side off on) =
      node id bit off on := by
  cases side <;> rfl

theorem fill_eq_node {f : Frame} {x : Subtree} {id : Nat} {bit : CodeValue} {off on : Subtree} :
    f.fill x = node id bit off on ↔
      f = ⟨id, bit, f.side, pick (!f.side) off on⟩ ∧ x = pick f.side off on := by
  obtain ⟨i, b, side, other⟩ := f
  cases side <;> simp [Frame.fill, pick] <;> grind

/-- A node, seen from the side of a value. -/
theorem exists_fill_hits (v : CodeValue) (id : Nat) (bit : CodeValue) (off on : Subtree) :
    ∃ (f : Frame) (x : Subtree),
      f.id = id ∧ hits v f.bit = f.side ∧ node id bit off on = f.fill x :=
  ⟨⟨id, bit, hits v bit, pick (!hits v bit) off on⟩, pick (hits v bit) off on, rfl, rfl,
    (fill_pick id bit (hits v bit) off on).symm⟩

/-- Puts a tree into a place. -/
def plug : Spine → Subtree → Subtree
  | [], s => s
  | f :: k, s => plug k (f.fill s)

theorem plug_append (j k : Spine) (s : Subtree) : plug (j ++ k) s = plug k (plug j s) := by
  induction j generalizing s with
  | nil => rfl
  | cons f j ih => exact ih (f.fill s)

theorem size_fill (f : Frame) (s : Subtree) : (f.fill s).size = 1 + s.size + f.other.size := by
  unfold Frame.fill
  split
  · rw [size]
    omega
  · rfl

theorem size_plug_le (j : Spine) (s : Subtree) : j.length + s.size ≤ (plug j s).size := by
  induction j generalizing s with
  | nil => simp [plug]
  | cons f j ih =>
    have hplug := ih (f.fill s)
    rw [size_fill] at hplug
    rw [plug, List.length_cons]
    omega

/-- Above a node there are only nodes. -/
theorem exists_slot_plug {k : Spine} {s : Subtree} {id : Nat} (h : s.slot = .child id) :
    ∃ root, (plug k s).slot = .child root := by
  induction k generalizing s id with
  | nil => exact ⟨id, h⟩
  | cons f k ih => exact ih (f.fill_slot s)

/-- Every stored node can be found from either of its sides. -/
theorem exists_place {s : Subtree} {id : Nat} {n : Node} {p : Option Nat} (h : (id, n) ∈ s.cells p)
    (side : Bool) :
    ∃ (k : Spine) (f : Frame) (x : Subtree), s = plug k (f.fill x) ∧ f.id = id ∧ f.side = side := by
  induction s generalizing p with
  | absent => exact absurd h (Multiset.notMem_zero _)
  | full => exact absurd h (Multiset.notMem_zero _)
  | node root bit off on ihOff ihOn =>
    rw [cells, Multiset.mem_cons, Multiset.mem_add] at h
    rcases h with hroot | hoff | hon
    · obtain ⟨rfl, -⟩ := Prod.mk.injEq .. ▸ hroot
      exact ⟨[], ⟨id, bit, side, pick (!side) off on⟩, pick side off on,
        (fill_pick id bit side off on).symm, rfl, rfl⟩
    · obtain ⟨k, f, x, rfl, hf⟩ := ihOff hoff
      exact ⟨k ++ [⟨root, bit, false, on⟩], f, x, by rw [plug_append]; rfl, hf⟩
    · obtain ⟨k, f, x, rfl, hf⟩ := ihOn hon
      exact ⟨k ++ [⟨root, bit, true, off⟩], f, x, by rw [plug_append]; rfl, hf⟩

/-- The number of the node right above a place. -/
def holder : Spine → Option Nat
  | [] => none
  | f :: _ => some f.id

/-- The nodes of a spine and of the trees beside it as they are stored, with a slot in the place. -/
def spineCells : Spine → Slot → Multiset (Nat × Node)
  | [], _ => 0
  | f :: k, s =>
    (f.id, f.node s (holder k)) ::ₘ (f.other.cells (some f.id) + spineCells k (.child f.id))

theorem cells_plug (k : Spine) (s : Subtree) :
    (plug k s).cells none = s.cells (holder k) + spineCells k s.slot := by
  induction k generalizing s with
  | nil => rw [plug, holder, spineCells, add_zero]
  | cons f k ih =>
    rw [plug, ih, Frame.cells_fill, holder, spineCells, Frame.fill_slot]
    simp only [← Multiset.singleton_add]
    abel

/-- Whether a value leads to a place. -/
def Follows (k : Spine) (c : CodeValue) : Prop :=
  ∀ f ∈ k, hits c f.bit = f.side

theorem follows_nil (c : CodeValue) : Follows [] c :=
  List.forall_mem_nil _

theorem follows_cons {f : Frame} {k : Spine} {c : CodeValue} :
    Follows (f :: k) c ↔ hits c f.bit = f.side ∧ Follows k c :=
  List.forall_mem_cons

theorem accepts_plug_of_follows {k : Spine} {c : CodeValue} (h : Follows k c) (s : Subtree) :
    (plug k s).accepts c = s.accepts c := by
  induction k generalizing s with
  | nil => rfl
  | cons f k ih =>
    rw [follows_cons] at h
    rw [plug, ih h.2, Frame.accepts_fill, if_pos h.1]

theorem accepts_plug_of_not_follows {k : Spine} {c : CodeValue} (h : ¬Follows k c)
    (s s' : Subtree) : (plug k s).accepts c = (plug k s').accepts c := by
  induction k generalizing s s' with
  | nil => exact absurd (follows_nil c) h
  | cons f k ih =>
    by_cases hk : Follows k c
    · have hf : ¬hits c f.bit = f.side := fun hf => h (follows_cons.mpr ⟨hf, hk⟩)
      rw [plug, plug, accepts_plug_of_follows hk, accepts_plug_of_follows hk,
        Frame.accepts_fill, Frame.accepts_fill, if_neg hf, if_neg hf]
    · exact ih hk _ _

/-- Trees that accept the same value can take each other's place. -/
theorem accepts_plug_congr {k : Spine} {c : CodeValue} {s s' : Subtree}
    (h : s.accepts c = s'.accepts c) : (plug k s).accepts c = (plug k s').accepts c := by
  by_cases hk : Follows k c
  · rw [accepts_plug_of_follows hk, accepts_plug_of_follows hk, h]
  · exact accepts_plug_of_not_follows hk s s'

/-! ## Climbing -/

/-- A node with the same leaf on both sides becomes the leaf. -/
def shrink (b : Bool) : Subtree → Subtree
  | node id bit off on => if off = leaf b ∧ on = leaf b then leaf b else node id bit off on
  | s => s

/-- Puts a node into a place and shrinks it and the nodes above it as far as they can be, but never
the root. -/
def climb (b : Bool) : Spine → Subtree → Subtree
  | [], s => s
  | f :: k, s => climb b k (f.fill (s.shrink b))

variable {b : Bool}

@[simp] theorem accepts_leaf (c : CodeValue) : (leaf b).accepts c = b := by
  cases b <;> rfl

theorem accepts_shrink (c : CodeValue) (s : Subtree) : (s.shrink b).accepts c = s.accepts c := by
  cases s with
  | absent => rfl
  | full => rfl
  | node id bit off on =>
    rw [shrink]
    split
    · rename_i h
      rw [h.1, h.2]
      simp [accepts]
    · rfl

theorem accepts_climb (c : CodeValue) (k : Spine) (s : Subtree) :
    (climb b k s).accepts c = (plug k s).accepts c := by
  induction k generalizing s with
  | nil => rfl
  | cons f k ih =>
    rw [climb, ih, plug]
    apply accepts_plug_congr
    rw [Frame.accepts_fill, Frame.accepts_fill, accepts_shrink]

/-- The values that lead to an emptied place are taken out, and no others. -/
theorem accepts_climb_absent {k : Spine} {f : Frame} (x : Subtree) (c : CodeValue) :
    (climb false k (f.fill absent)).accepts c = true ↔
      (plug k (f.fill x)).accepts c = true ∧ ¬Follows (f :: k) c := by
  rw [accepts_climb]
  show (plug (f :: k) absent).accepts c = true ↔ (plug (f :: k) x).accepts c = true ∧ _
  by_cases hc : Follows (f :: k) c
  · rw [accepts_plug_of_follows hc]
    simp [accepts, hc]
  · rw [accepts_plug_of_not_follows hc absent x]
    simp [hc]

theorem shrink_fill_of_ne {f : Frame} {s : Subtree} (hs : s ≠ leaf b) :
    (f.fill s).shrink b = f.fill s := by
  unfold Frame.fill
  split <;> simp [shrink, hs]

/-- A node with something else on its other side stays as it is. -/
theorem shrink_fill_of_other {f : Frame} {s : Subtree} (h : f.other ≠ leaf b) :
    (f.fill s).shrink b = f.fill s := by
  unfold Frame.fill
  split <;> simp [shrink, h]

/-- A climb ends at the first node that cannot be shrunk. -/
theorem climb_eq_plug {k : Spine} {s : Subtree} (hnode : s.isNode) (hs : s.shrink b = s) :
    climb b k s = plug k s := by
  induction k generalizing s with
  | nil => rfl
  | cons f k ih =>
    have hne : s ≠ leaf b := by
      rintro rfl
      cases b <;> simp [isNode] at hnode
    rw [climb, hs, plug]
    refine ih ?_ (shrink_fill_of_ne hne)
    unfold Frame.fill
    split <;> rfl

end Subtree

end BitClassifier
