import BitClassifier.Proofs.Subtree.Chain
import BitClassifier.Proofs.Trie.Exchange
import BitClassifier.Proofs.Trie.WellFormed

/-!
# Detaching a subtree

The stem of a node goes up from it as long as the node above is not the root and holds nothing else.
A trie without the nodes of a subtree and without its stem is `Detached`: one slot of one node that
stays is emptied, the one that held the top of the stem, and all other nodes are stored as before.

In the stored tree this is what a climb from the emptied place comes to (`Shows.detached`). The
proof follows the climb: while the node above has nothing on its other side, the nodes to be
detached are the same from there as they are from below (`Shows.detaches_iff`).
-/

namespace BitClassifier

open Subtree

namespace Trie

/-- The node `i` is the node `id` or below it. -/
def InSubtree (t : Trie) (id i : Nat) : Prop :=
  ∃ p, t.walk? id p = some i

/-- A node, and going up from it the nodes below the root that hold only the one before. -/
inductive Stem (t : Trie) (id : Nat) : Nat → Prop where
  | self : Stem t id id
  | up {below i : Nat} {n : Node} {side : Bool} : Stem t id below → i ≠ 0 → t.cell? i = some n →
      n.slot side = .child below → n.slot (!side) = .absent → Stem t id i

/-- The nodes that go with a subtree: its own, and its stem. -/
def Detaches (t : Trie) (id i : Nat) : Prop :=
  t.InSubtree id i ∨ t.Stem id i

/-- What is left without a subtree. -/
structure Detached (t : Trie) (id : Nat) (t' : Trie) : Prop where
  live_iff : ∀ i, t'.Live i ↔ t.Live i ∧ ¬t.Detaches id i
  /-- A node that held the top of the stem stays, with an empty slot in its place. -/
  kept : ∃ last n side top, t.Stem id top ∧ t.cell? last = some n ∧ n.slot side = .child top ∧
    t'.cell? last = some (n.put side .absent) ∧ ∀ i, i ≠ last → t'.Live i → t'.cell? i = t.cell? i

variable {t t' : Trie} {w : Width} {k : Spine} {f : Frame} {s : Subtree} {id i : Nat} {n : Node}
  {side : Bool}

/-- A node is held by the slot of the frame above it only. -/
theorem Shows.eq_of_slot (h : t.Shows w (plug (f :: k) s)) (hs : s.slot = .child id)
    (hcell : t.cell? i = some n) (hslot : n.slot side = .child id) : i = f.id ∧ side = f.side := by
  have hid : id ≠ 0 := h.ne_zero_of_mem (mem_numbers_of_slot hs)
  have hslot' : (f.node s.slot (holder k)).slot f.side = .child id := (f.node_slot _ _).trans hs
  obtain ⟨bit, off, on, rfl⟩ := slot_eq_child.mp hs
  obtain ⟨above, m, side', -, -, -, honly⟩ := h.held hid h.cell?_eq
  obtain ⟨hiAbove, hiSide⟩ := honly i n side hcell hslot
  obtain ⟨hfAbove, hfSide⟩ := honly f.id _ f.side (Shows.opened (k := k) h).cell?_eq hslot'
  exact ⟨hiAbove.trans hfAbove.symm, hiSide.trans hfSide.symm⟩

/-- The nodes of a subtree are those that are numbered in it. -/
theorem Shows.inSubtree_iff (h : t.Shows w (plug k s)) (hs : s.slot = .child id) :
    t.InSubtree id i ↔ i ∈ s.numbers := by
  rw [mem_numbers_iff]
  constructor
  · rintro ⟨p, hp⟩
    obtain ⟨j, x, hplace, hx, -⟩ := (h.walk?_eq_some hs p i).mp hp
    exact ⟨j, x, hplace, hx⟩
  · rintro ⟨j, x, hplace, hx⟩
    exact ⟨path j, (h.walk?_eq_some hs _ i).mpr ⟨j, x, hplace, hx, rfl⟩⟩

/-- The stem goes on from the node above if that is not the root and has nothing on its other
side. -/
theorem Shows.stem_iff (h : t.Shows w (plug (f :: k) s)) (hs : s.slot = .child id) :
    t.Stem id i ↔ i = id ∨ f.id ≠ 0 ∧ f.other = absent ∧ t.Stem f.id i := by
  have hcell : t.cell? f.id = some (f.node s.slot (holder k)) :=
    (Shows.opened (k := k) h).cell?_eq
  constructor
  · intro hstem
    induction hstem with
    | self => exact .inl rfl
    | up hbelow hi hn hslot hother ih =>
      rcases ih with rfl | ⟨hf, hlone, hstem⟩
      · obtain ⟨rfl, rfl⟩ := h.eq_of_slot hs hn hslot
        obtain rfl := Option.some.inj (hcell.symm.trans hn)
        rw [f.node_slot_not, slot_eq_absent] at hother
        exact .inr ⟨hi, hother, .self⟩
      · exact .inr ⟨hf, hlone, hstem.up hi hn hslot hother⟩
  · rintro (rfl | ⟨hf, hlone, hstem⟩)
    · exact .self
    · induction hstem with
      | self =>
        have hother : (f.node s.slot (holder k)).slot (!f.side) = .absent := by
          rw [f.node_slot_not, hlone, slot_absent]
        exact .up .self hf hcell ((f.node_slot _ _).trans hs) hother
      | up _ hi hn hslot hother ih => exact ih.up hi hn hslot hother

/-- Below a node with nothing on its other side, the same nodes go as from the node itself. -/
theorem Shows.detaches_iff (h : t.Shows w (plug (f :: k) s)) (hs : s.slot = .child id)
    (hf : f.id ≠ 0) (hlone : f.other = absent) : t.Detaches id i ↔ t.Detaches f.id i := by
  have habove := Shows.inSubtree_iff (k := k) (i := i) h (f.fill_slot s)
  have hself : t.Stem f.id f.id := .self
  rw [numbers_fill, hlone, numbers, add_zero, Multiset.mem_cons, ← h.inSubtree_iff hs] at habove
  rw [Detaches, Detaches, h.stem_iff hs, habove]
  constructor
  · rintro (hin | rfl | ⟨-, -, hstem⟩)
    · exact .inl (.inr hin)
    · exact .inl (.inr ((h.inSubtree_iff hs).mpr (mem_numbers_of_slot hs)))
    · exact .inr hstem
  · rintro ((rfl | hin) | hstem)
    · exact .inr (.inr ⟨hf, hlone, hself⟩)
    · exact .inl hin
    · exact .inr (.inr ⟨hf, hlone, hstem⟩)

/-- Where the climb ends, the place itself is emptied. -/
theorem Shows.detached_of_stop (h : t.Shows w (plug (f :: k) s)) (hs : s.slot = .child id)
    (hstop : f.id = 0 ∨ f.other ≠ absent) (h' : t'.Shows w (plug k (f.fill absent))) :
    t.Detached id t' := by
  have hplace : t.Shows w (plug k (f.fill s)) := h
  have hdetaches (i : Nat) : t.Detaches id i ↔ i ∈ s.numbers := by
    rw [Detaches, h.stem_iff hs, h.inSubtree_iff hs]
    constructor
    · rintro (hin | rfl | ⟨hf, hlone, -⟩)
      · exact hin
      · exact mem_numbers_of_slot hs
      · exact absurd hlone (hstop.resolve_left hf)
    · exact .inl
  have hkept : t'.cell? f.id = some ((f.node s.slot (holder k)).put f.side .absent) := by
    rw [h'.opened.cell?_eq, Frame.node_put, slot_absent]
  refine ⟨fun i => ?_, f.id, _, f.side, id, .self, hplace.opened.cell?_eq,
    (f.node_slot _ _).trans hs, hkept, fun i hi hlive => ?_⟩
  · rw [hplace.exchanged_live_iff h', hdetaches, numbers]
    simp
  · obtain ⟨n, hcell⟩ := Option.isSome_iff_exists.mp hlive
    obtain ⟨rfl, -⟩ | hin | ⟨-, hold⟩ := hplace.exchanged_cases h' hcell
    · exact absurd rfl hi
    · exact absurd hin (Multiset.notMem_zero _)
    · rw [hcell, hold]

/-- A climb from an emptied place detaches what was there. -/
theorem Shows.detached (h : t.Shows w (plug (f :: k) s)) (hs : s.slot = .child id)
    (h' : t'.Shows w (climb false k (f.fill absent))) : t.Detached id t' := by
  induction k generalizing f s id with
  | nil =>
    obtain ⟨off, on, hroot⟩ := label_eq_some.mp h.root
    have hf : f.id = 0 := Slot.child.inj ((f.fill_slot s).symm.trans (congrArg slot hroot))
    exact h.detached_of_stop hs (.inl hf) h'
  | cons g k ih =>
    by_cases hlone : f.other = absent
    · rw [fill_absent_eq_bare (s := s) hlone, climb_bare_cons (isNode_fill f s)] at h'
      have hf : f.id ≠ 0 := Shows.ne_zero_of_mem (f := g) (k := k) h
        (mem_numbers_of_slot (f.fill_slot s))
      obtain ⟨hlive, last, n, side, top, hstem, hrest⟩ := ih h (f.fill_slot s) h'
      refine ⟨fun i => ?_, last, n, side, top, ?_, hrest⟩
      · rw [hlive, h.detaches_iff hs hf hlone]
      · exact (h.stem_iff hs).mpr (.inr ⟨hf, hlone, hstem⟩)
    · rw [climb_fill_absent hlone] at h'
      exact h.detached_of_stop hs (.inr hlone) h'

end Trie

end BitClassifier
