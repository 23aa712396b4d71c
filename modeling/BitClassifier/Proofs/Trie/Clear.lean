import BitClassifier.Proofs.Subtree.Sound
import BitClassifier.Proofs.Trie.Ledger

/-!
# Clearing a slot

`Shows` ties a trie to the tree that it stores: the ledger of the trie is the list of cells of the
tree. Opened at a place, the ledger has the cell of the node there in front (`cells_plug_fill`), and
an operation that works at that node changes what is in front only.

Clearing a slot puts `absent` into the place and climbs from there (`Shows.clear`).
-/

namespace BitClassifier

open Subtree

namespace Subtree

/-- The cells around a place that is opened at the frame `f`. -/
def beside (f : Frame) (k : Spine) : Multiset (Nat × Node) :=
  f.other.cells (some f.id) + spineCells k (.child f.id)

theorem cells_plug_fill (k : Spine) (f : Frame) (s : Subtree) :
    (plug k (f.fill s)).cells none =
      (f.id, f.node s.slot (holder k)) ::ₘ (s.cells (some f.id) + beside f k) := by
  rw [cells_plug, Frame.cells_fill, Frame.fill_slot, beside, Multiset.cons_add, add_assoc]

/-- The root is stored above every place. -/
theorem root_mem_spineCells {f : Frame} {k : Spine} {s : Subtree} {id : Nat} {bit : CodeValue}
    (h : (plug (f :: k) s).label = some (id, bit)) (x : Slot) :
    ∃ n, (id, n) ∈ spineCells (f :: k) x := by
  induction k generalizing f s x with
  | nil =>
    obtain ⟨rfl, -⟩ : f.id = id ∧ f.bit = bit := by simpa [plug] using h
    exact ⟨_, Multiset.mem_cons_self _ _⟩
  | cons g k ih =>
    obtain ⟨n, hn⟩ := ih h (.child f.id)
    exact ⟨n, Multiset.mem_cons_of_mem (Multiset.mem_add.mpr (.inr hn))⟩

end Subtree

namespace Trie

/-- The tree that a trie stores. -/
structure Shows (t : Trie) (w : Width) (s : Subtree) : Prop where
  holds : t.Holds w (s.cells none)
  root : s.label = some (0, w.highBit)

variable {t : Trie} {w : Width} {k : Spine} {f : Frame} {s : Subtree} {b : Bool}
  {R : Multiset (Nat × Node)} {p : Option Nat}

theorem Shows.opened (h : t.Shows w (plug k (f.fill s))) :
    t.Holds w ((f.id, f.node s.slot (holder k)) ::ₘ (s.cells (some f.id) + beside f k)) :=
  cells_plug_fill k f s ▸ h.holds

theorem Shows.closed {s s' : Subtree} (h : t.Shows w (plug k (f.fill s))) {t' : Trie}
    (h' : t'.Holds w ((f.id, f.node s'.slot (holder k)) ::ₘ (s'.cells (some f.id) + beside f k))) :
    t'.Shows w (plug k (f.fill s')) where
  holds := cells_plug_fill k f s' ▸ h'
  root := by rw [← h.root]; exact label_plug_congr (by simp)

/-- The node at a place. -/
theorem Shows.node (h : t.Shows w (plug k (f.fill s))) :
    t.node f.id = pure (f.node s.slot (holder k)) :=
  h.opened.node (Multiset.mem_cons_self _ _)

/-- The entry of the node in a place. -/
theorem Shows.cell?_eq {id : Nat} {bit : CodeValue} {off on : Subtree}
    (h : t.Shows w (plug k (.node id bit off on))) :
    t.cell? id = some ⟨bit, on.slot, off.slot, holder k⟩ := by
  rw [h.holds.cell?_iff, cells_plug]
  exact Multiset.mem_add.mpr (.inl (Multiset.mem_cons_self _ _))

theorem Shows.node_eq {id : Nat} {bit : CodeValue} {off on : Subtree}
    (h : t.Shows w (plug k (.node id bit off on))) :
    t.node id = pure ⟨bit, on.slot, off.slot, holder k⟩ := by
  rw [Trie.node, h.cell?_eq]

/-- Only the root has the number 0. -/
theorem Shows.id_ne_zero (h : t.Shows w (plug (f :: k) s)) {id : Nat} {n : Node}
    (hmem : (id, n) ∈ s.cells (some f.id)) : id ≠ 0 := by
  rintro rfl
  obtain ⟨m, hm⟩ := root_mem_spineCells h.root s.slot
  have hnodup := h.holds.nodup
  rw [cells_plug, Multiset.map_add, Multiset.nodup_add] at hnodup
  exact Multiset.disjoint_left.mp hnodup.2.2 (Multiset.mem_map.mpr ⟨_, hmem, rfl⟩)
    (Multiset.mem_map.mpr ⟨_, hm, rfl⟩)

/-- The two sides of a node never hold the same node. -/
theorem Shows.other_slot_ne {id : Nat} {bit : CodeValue} {off on : Subtree}
    (h : t.Shows w (plug k (f.fill (.node id bit off on)))) : f.other.slot ≠ .child id := by
  intro hslot
  obtain ⟨bit', off', on', hother⟩ := slot_eq_child.mp hslot
  have hnodup := h.opened.nodup
  rw [beside, hother, cells, cells] at hnodup
  simp at hnodup

/-! ## Climbing -/

/-- The slot that holds a node can be found and filled. -/
theorem Holds.putSlotOf {id : Nat} (h : t.Holds w ((f.id, f.node (.child id) p) ::ₘ R))
    (hother : f.other.slot ≠ .child id) (x : Slot) :
    ∃ t', t.putSlotOf f.id id x = pure t' ∧ t'.Holds w ((f.id, f.node x p) ::ₘ R) := by
  refine ⟨t.setCell f.id (some (f.node x p)), ?_, h.setCell _⟩
  rw [Trie.putSlotOf, h.node (Multiset.mem_cons_self _ _), pure_bind]
  cases hside : f.side <;> simp [Frame.node, Node.put, hside, hother]

/-- The cascade from a node climbs from its place. -/
theorem Shows.cascade {id : Nat} (h : t.Shows w (plug k s)) (hs : s.slot = .child id) (b : Bool) :
    ∃ m t', cascade (leaf b).slot t id = pure (m, t') ∧ t'.Shows w (climb b k s) ∧
      t'.count + m = t.count := by
  induction k generalizing t id s with
  | nil =>
    obtain ⟨bit, off, on, rfl⟩ := slot_eq_child.mp hs
    refine ⟨0, t, ?_, h, rfl⟩
    rw [Trie.cascade, Shows.node_eq (k := []) h, pure_bind]
    rfl
  | cons f k ih =>
    obtain ⟨bit, off, on, rfl⟩ := slot_eq_child.mp hs
    rw [Trie.cascade, h.node_eq, pure_bind, holder]
    by_cases hleaf : off = leaf b ∧ on = leaf b
    · obtain ⟨rfl, rfl⟩ := hleaf
      have hcells : ∀ p, (leaf b).cells p = 0 := by cases b <;> exact fun _ => rfl
      have hchild : (leaf b).slot.isChild = false := by cases b <;> rfl
      have hid := h.id_ne_zero (Multiset.mem_cons_self _ _)
      -- first the slot of the parent is filled, then the node is given up, then the parent is next
      obtain ⟨t₁, hput, h₁⟩ := h.opened.putSlotOf h.other_slot_ne (leaf b).slot
      rw [cells, hcells, zero_add, Multiset.cons_add, zero_add, Multiset.cons_swap] at h₁
      obtain ⟨t₂, hfree, h₂⟩ := h₁.free hid Multiset.cons_ne_zero hchild hchild
      have hshow : t₂.Shows w (plug k (f.fill (leaf b))) :=
        Shows.closed h (by rw [hcells, zero_add]; exact h₂)
      obtain ⟨m, t₃, hrest, h₃, hcount⟩ := ih hshow (f.fill_slot _)
      refine ⟨m + 1, t₃, ?_, ?_, ?_⟩
      · simp [hput, hfree, hrest]
      · rw [climb, shrink, if_pos ⟨rfl, rfl⟩]
        exact h₃
      · have hcard := h.opened.count
        have hcard₂ := h₂.count
        simp only [cells, hcells, zero_add, Multiset.card_cons, Multiset.card_add,
          Multiset.card_zero] at hcard hcard₂
        omega
    · refine ⟨0, t, ?_, ?_, rfl⟩
      · simp only [slot_eq_leaf, and_comm, hleaf, if_false]
      · rw [climb_eq_plug rfl (by rw [shrink, if_neg hleaf])]
        exact h

/-! ## Releasing -/

/-- A tree on top of the stack is given up as a whole before the rest of the stack. -/
theorem Holds.releaseAll (h : t.Holds w (s.cells p + R)) (hR : R ≠ 0) :
    ∃ m, ∃ t' : Trie, t'.Holds w R ∧ t'.count + m = t.count ∧
      ∀ stack released, t.releaseAll (s.slot.children ++ stack) released =
        t'.releaseAll stack (released + m) := by
  induction s generalizing t p R with
  | absent => exact ⟨0, t, by simpa [cells] using h, rfl, fun _ _ => rfl⟩
  | full => exact ⟨0, t, by simpa [cells] using h, rfl, fun _ _ => rfl⟩
  | node id bit off on ihOff ihOn =>
    rw [cells, Multiset.cons_add] at h
    obtain ⟨t₁, hdrop, h₁⟩ := h.uncount (add_cells_ne_zero hR)
    have hcard := h.count
    have hcard₁ := h₁.count
    rw [Multiset.card_cons] at hcard
    rw [add_assoc] at h₁
    -- the cells of `on` are part of the rest while `off` is given up
    obtain ⟨m₂, t₂, h₂, hcount₂, hrun₂⟩ := ihOff h₁ (add_cells_ne_zero hR)
    obtain ⟨m₃, t₃, h₃, hcount₃, hrun₃⟩ := ihOn h₂ hR
    refine ⟨m₂ + m₃ + 1, t₃, h₃, by omega, fun stack released => ?_⟩
    calc t.releaseAll (id :: stack) released
        = t₁.releaseAll (off.slot.children ++ on.slot.children ++ stack) (released + 1) := by
          rw [Trie.releaseAll, h.cell?_eq]
          simp [hdrop]
      _ = t₂.releaseAll (on.slot.children ++ stack) (released + 1 + m₂) := by
          rw [List.append_assoc, hrun₂]
      _ = t₃.releaseAll stack (released + (m₂ + m₃ + 1)) := by
          rw [hrun₃]
          congr 1
          omega

theorem releaseSlot_eq (t : Trie) (x : Slot) : t.releaseSlot x = t.releaseAll x.children 0 := by
  cases x with
  | child id => rfl
  | absent | full => simp [Slot.children, Trie.releaseAll, Trie.releaseSlot]

/-- What is in a slot is given up, whatever it is. -/
theorem Holds.releaseSlot (h : t.Holds w (s.cells p + R)) (hR : R ≠ 0) :
    ∃ m t', t.releaseSlot s.slot = pure (m, t') ∧ t'.Holds w R ∧ t'.count + m = t.count := by
  obtain ⟨m, t', h', hcount, hrun⟩ := h.releaseAll hR
  refine ⟨m, t', ?_, h', hcount⟩
  rw [releaseSlot_eq, ← List.append_nil s.slot.children, hrun, Nat.zero_add, Trie.releaseAll]

/-- Clearing a slot gives up what is in it and climbs from the emptied place. -/
theorem Shows.clear (h : t.Shows w (plug k (f.fill s))) :
    ∃ m t', t.clear f.id f.side = pure (m, t') ∧ t'.Shows w (climb false k (f.fill .absent)) ∧
      t'.count + m = t.count := by
  obtain ⟨t₁, hput, h₁⟩ := h.opened.putSlot f.side .absent
  rw [Frame.node_put] at h₁
  have hcard := h.opened.count
  have hcard₁ := h₁.count
  rw [← Multiset.add_cons] at h₁
  obtain ⟨m, t₂, hrelease, h₂, hcount⟩ := h₁.releaseSlot Multiset.cons_ne_zero
  have hshow : t₂.Shows w (plug k (f.fill .absent)) :=
    Shows.closed h (by simpa [cells, slot] using h₂)
  obtain ⟨m', t₃, hcascade, h₃, hcount'⟩ := hshow.cascade (f.fill_slot _) false
  refine ⟨m + m', t₃, ?_, h₃, ?_⟩
  · have hremove : t₂.removeUp f.id = pure (m', t₃) := hcascade
    simp [Trie.clear, h.node, hput, hrelease, hremove]
  · rw [Multiset.card_cons] at hcard hcard₁
    omega

end Trie

end BitClassifier
