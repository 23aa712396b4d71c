import BitClassifier.Proofs.Trie.History
import Mathlib.Data.Finset.Card

/-!
# Well-formed tries

What can be said of the entries of a trie without the tree that they store: how they refer to each
other, which bits they test, and how many of them there are. A trie that represents a tree is well
formed (`Represents.wellFormed`).
-/

namespace BitClassifier

open Subtree

namespace Trie

/-- The nodes to which slots lead from the root. -/
inductive Reaches (t : Trie) : Nat → Prop where
  | root : Reaches t 0
  | step {id next : Nat} {n : Node} {side : Bool} : Reaches t id → t.cell? id = some n →
      n.slot side = .child next → Reaches t next

instance (t : Trie) (id : Nat) : Decidable (t.Live id) :=
  inferInstanceAs (Decidable ((t.cell? id).isSome = true))

/-- The entries of a trie are as they should be: the nodes form one binary tree below the root, bits
halve on the way down to the lowest one, no node is kept that could be folded or removed, and the
nodes are counted. -/
structure WellFormed (t : Trie) : Prop where
  /-- The root is live, has no parent and tests the highest bit. -/
  root : ∃ n, t.cell? 0 = some n ∧ n.parent = none ∧ n.bit = t.width.highBit
  live_iff : ∀ id, t.Live id ↔ t.Reaches id
  /-- Below the root a node is held by one slot, which belongs to its parent. -/
  held : ∀ id n, id ≠ 0 → t.cell? id = some n → ∃ above m side,
    n.parent = some above ∧ t.cell? above = some m ∧ m.slot side = .child id ∧
      ∀ id' m' side', t.cell? id' = some m' → m'.slot side' = .child id →
        id' = above ∧ side' = side
  halved : ∀ id n side below m, t.cell? id = some n → n.slot side = .child below →
    t.cell? below = some m → m.bit = n.bit >>> 1
  lowest : ∀ id n side, t.cell? id = some n → n.bit = 1#32 → (n.slot side).isChild = false
  /-- Below the root no node has nothing, and none has everything, on both of its sides. -/
  minimal : ∀ id n, id ≠ 0 → t.cell? id = some n →
    ¬(n.on = .absent ∧ n.off = .absent) ∧ ¬(n.on = .full ∧ n.off = .full)
  counted : t.len = ((Finset.range t.nodes.size).filter fun id => id ≠ 0 ∧ t.Live id).card

variable {t : Trie} {w : Width} {k : Spine} {f : Frame} {s : Subtree} {id : Nat} {n : Node}

/-- A live entry stores a node of the tree. -/
theorem Shows.exists_node (h : t.Shows w s) (hcell : t.cell? id = some n) :
    ∃ (k : Spine) (bit : CodeValue) (off on : Subtree),
      s = plug k (.node id bit off on) ∧ n = ⟨bit, on.slot, off.slot, holder k⟩ := by
  obtain ⟨k, f, x, rfl, rfl, hside⟩ := exists_place ((h.holds.cell?_iff id n).mp hcell) true
  have hfill : f.fill x = .node f.id f.bit f.other x := by rw [Frame.fill, hside, if_pos rfl]
  rw [hfill] at h ⊢
  exact ⟨k, f.bit, f.other, x, rfl, Option.some.inj (hcell.symm.trans h.cell?_eq)⟩

/-- What is in a slot of a stored node. -/
theorem slot_pick (side : Bool) (bit : CodeValue) (off on : Subtree) (p : Option Nat) :
    (⟨bit, on.slot, off.slot, p⟩ : Node).slot side = (pick side off on).slot := by
  cases side <;> rfl

/-- A slot that holds a node leads to the place of the node. -/
theorem Shows.exists_below {side : Bool} {below : Nat} (h : t.Shows w s)
    (hcell : t.cell? id = some n) (hslot : n.slot side = .child below) :
    ∃ (k : Spine) (f : Frame) (bit : CodeValue) (off on : Subtree),
      s = plug (f :: k) (.node below bit off on) ∧ f.id = id ∧ f.side = side ∧
        n.bit = f.bit := by
  obtain ⟨k, bit, off, on, rfl, rfl⟩ := h.exists_node hcell
  rw [slot_pick] at hslot
  obtain ⟨bit', off', on', hpick⟩ := slot_eq_child.mp hslot
  refine ⟨k, ⟨id, bit, side, pick (!side) off on⟩, bit', off', on', ?_, rfl, rfl, rfl⟩
  rw [plug, ← hpick, fill_pick]

theorem Shows.root_cell (h : t.Shows w s) :
    ∃ n, t.cell? 0 = some n ∧ n.parent = none ∧ n.bit = w.highBit := by
  obtain ⟨off, on, rfl⟩ := label_eq_some.mp h.root
  exact ⟨_, h.cell?_eq (k := []), rfl, rfl⟩

theorem Shows.reaches (h : t.Shows w (plug k s)) (hs : s.slot = .child id) : t.Reaches id := by
  induction k generalizing s id with
  | nil =>
    obtain ⟨off, on, rfl⟩ := label_eq_some.mp h.root
    obtain rfl : 0 = id := Slot.child.inj hs
    exact .root
  | cons f k ih =>
    exact .step (ih h (f.fill_slot s)) (Shows.opened (k := k) h).cell?_eq
      ((f.node_slot s.slot (holder k)).trans hs)

/-- The live entries are those to which slots lead from the root. -/
theorem Shows.live_iff (h : t.Shows w s) (id : Nat) : t.Live id ↔ t.Reaches id := by
  constructor
  · intro hlive
    obtain ⟨n, hcell⟩ := Option.isSome_iff_exists.mp hlive
    obtain ⟨k, bit, off, on, rfl, -⟩ := h.exists_node hcell
    exact h.reaches rfl
  · intro hreaches
    induction hreaches with
    | root =>
      obtain ⟨n, hcell, -⟩ := h.root_cell
      exact Option.isSome_iff_exists.mpr ⟨n, hcell⟩
    | step _ hcell hslot _ =>
      obtain ⟨k, f, bit, off, on, rfl, -⟩ := h.exists_below hcell hslot
      exact Option.isSome_iff_exists.mpr ⟨_, h.cell?_eq⟩

/-- A node below the root is held by the slot of its parent that leads to its place. -/
theorem Shows.held (h : t.Shows w s) (hid : id ≠ 0) (hcell : t.cell? id = some n) :
    ∃ above m side, n.parent = some above ∧ t.cell? above = some m ∧ m.slot side = .child id ∧
      ∀ id' m' side', t.cell? id' = some m' → m'.slot side' = .child id →
        id' = above ∧ side' = side := by
  obtain ⟨k, bit, off, on, rfl, rfl⟩ := h.exists_node hcell
  cases k with
  | nil =>
    obtain ⟨off', on', hroot⟩ := label_eq_some.mp h.root
    cases hroot
    exact absurd rfl hid
  | cons f k =>
    refine ⟨f.id, _, f.side, rfl, (Shows.opened (k := k) h).cell?_eq, f.node_slot _ _,
      fun id' m' side' hcell' hslot' => ?_⟩
    obtain ⟨j, g, bit', off', on', hplace, rfl, rfl, -⟩ := h.exists_below hcell' hslot'
    -- another slot that holds the node gives it another place, but it has one path only
    have h' := hplace ▸ h
    have hparent := h.cell?_eq.symm.trans h'.cell?_eq
    have hpath := h.path_unique h' rfl rfl
    rw [path_cons, path_cons] at hpath
    simp only [holder, Option.some_inj, Node.mk.injEq] at hparent
    exact ⟨hparent.2.2.2.symm, (List.singleton_inj.mp (List.append_inj_right' hpath rfl)).symm⟩

theorem Represents.halved {side : Bool} {below : Nat} {m : Node} (h : t.Represents w s)
    (hcell : t.cell? id = some n) (hslot : n.slot side = .child below)
    (hbelow : t.cell? below = some m) : m.bit = n.bit >>> 1 := by
  obtain ⟨k, f, bit, off, on, rfl, -, -, hbit⟩ := h.shows.exists_below hcell hslot
  obtain rfl := Option.some.inj (h.shows.cell?_eq.symm.trans hbelow)
  obtain ⟨i, ⟨hfBit, -, -, habove⟩, hfit, -⟩ := exists_above h.sound.fits h.sound.sides
  obtain ⟨i, rfl⟩ := hfit.pos
  rw [hbit, hfBit, twoPow_succ_half habove.lt_widest]
  exact hfit.1

theorem Represents.lowest {side : Bool} (h : t.Represents w s) (hcell : t.cell? id = some n)
    (hone : n.bit = 1#32) : (n.slot side).isChild = false := by
  cases hslot : n.slot side with
  | absent => rfl
  | full => rfl
  | child below =>
    obtain ⟨k, f, bit, off, on, rfl, -, -, hbit⟩ := h.shows.exists_below hcell hslot
    obtain ⟨i, ⟨hfBit, -, -, habove⟩, hfit, -⟩ := exists_above h.sound.fits h.sound.sides
    obtain ⟨i, rfl⟩ := hfit.pos
    rw [hbit, hfBit, twoPow_eq_one_iff habove.lt_widest] at hone
    exact absurd hone (Nat.succ_ne_zero i)

theorem Represents.minimal (h : t.Represents w s) (hid : id ≠ 0) (hcell : t.cell? id = some n) :
    ¬(n.on = .absent ∧ n.off = .absent) ∧ ¬(n.on = .full ∧ n.off = .full) := by
  obtain ⟨k, bit, off, on, rfl, rfl⟩ := h.shows.exists_node hcell
  obtain ⟨i, -, -, -, hmin⟩ := exists_above h.sound.fits h.sound.sides
  have hk : k ≠ [] := by
    rintro rfl
    obtain ⟨off', on', hroot⟩ := label_eq_some.mp h.shows.root
    cases hroot
    exact absurd rfl hid
  obtain ⟨hpair, -⟩ := hmin hk
  simp only [slot_eq_absent, slot_eq_full]
  exact ⟨fun hboth => hpair false hboth.symm, fun hboth => hpair true hboth.symm⟩

theorem Live.lt_size (h : t.Live id) : id < t.nodes.size := by
  by_contra hout
  rw [Live, cell?, Array.getElem?_eq_none (Nat.le_of_not_lt hout)] at h
  cases h

/-- The numbers of the stored nodes. -/
def Holds.ids {cells : Multiset (Nat × Node)} (h : t.Holds w cells) : Finset Nat :=
  ⟨cells.map Prod.fst, h.nodup⟩

theorem Holds.mem_ids {cells : Multiset (Nat × Node)} (h : t.Holds w cells) :
    id ∈ h.ids ↔ t.Live id := by
  rw [Live, Option.isSome_iff_exists]
  simp [ids, h.cell?_iff]

theorem Shows.counted (h : t.Shows w s) :
    t.len = ((Finset.range t.nodes.size).filter fun id => id ≠ 0 ∧ t.Live id).card := by
  have hcard : h.holds.ids.card = t.len + 1 := by
    rw [Holds.ids, Finset.card_mk, Multiset.card_map]
    exact h.holds.count.symm
  have hroot : 0 ∈ h.holds.ids := by
    obtain ⟨n, hcell, -⟩ := h.root_cell
    exact h.holds.mem_ids.mpr (Option.isSome_iff_exists.mpr ⟨n, hcell⟩)
  have hbelow : ((Finset.range t.nodes.size).filter fun id => id ≠ 0 ∧ t.Live id) =
      h.holds.ids.erase 0 := by
    ext id
    rw [Finset.mem_filter, Finset.mem_range, Finset.mem_erase, h.holds.mem_ids]
    exact ⟨And.right, fun hboth => ⟨hboth.2.lt_size, hboth⟩⟩
  rw [hbelow, Finset.card_erase_of_mem hroot, hcard, Nat.add_sub_cancel]

theorem Represents.wellFormed (h : t.Represents w s) : t.WellFormed where
  root := h.shows.holds.width ▸ h.shows.root_cell
  live_iff := h.shows.live_iff
  held _ _ := h.shows.held
  halved _ _ _ _ _ := h.halved
  lowest _ _ _ := h.lowest
  minimal _ _ := h.minimal
  counted := h.shows.counted

end Trie

end BitClassifier
