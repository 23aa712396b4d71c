import BitClassifier.Trie.Basic
import Mathlib.Algebra.Order.Group.Multiset
import Mathlib.Data.Multiset.UnionInter

/-!
# The ledger of a trie

`Holds` says that the live entries of a trie are exactly the listed cells, each number once, and
that the count is right. It is the one thing that is said about the storage of a trie: every
operation on entries is described by what it does to the list, and what it does not mention stays.
-/

namespace BitClassifier

theorem add_cells_ne_zero {cells R : Multiset (Nat × Node)} (hR : R ≠ 0) : cells + R ≠ 0 := by
  rw [← Multiset.card_pos] at hR ⊢
  rw [Multiset.card_add]
  omega

namespace Trie

/-- The live entries are exactly these, and all but the root are counted. -/
structure Holds (t : Trie) (w : Width) (cells : Multiset (Nat × Node)) : Prop where
  width : t.width = w
  nodup : (cells.map Prod.fst).Nodup
  cell?_iff : ∀ id n, t.cell? id = some n ↔ (id, n) ∈ cells
  count : t.count + 1 = cells.card

theorem cell?_setCell {t : Trie} {id : Nat} {n : Node} (h : t.cell? id = some n)
    (m : Option Node) (j : Nat) :
    (t.setCell id m).cell? j = if id = j then m else t.cell? j := by
  have hid : id < t.nodes.size := by
    by_contra hout
    rw [cell?, Array.getElem?_eq_none (Nat.le_of_not_lt hout)] at h
    cases h
  rw [cell?, setCell, Array.getElem?_setIfInBounds]
  by_cases hj : id = j
  · subst hj
    simp [hid]
  · rw [if_neg hj, if_neg hj, cell?]

theorem cell?_alloc (t : Trie) (n : Node) (j : Nat) :
    (t.alloc n).2.cell? j = if j = t.nodes.size then some n else t.cell? j := by
  rw [cell?, alloc, Array.getElem?_push]
  split
  · rfl
  · rfl

theorem cell?_size (t : Trie) : t.cell? t.nodes.size = none := by
  rw [cell?, Array.getElem?_eq_none (Nat.le_refl _)]
  rfl

namespace Holds

variable {t : Trie} {w : Width} {cells : Multiset (Nat × Node)} {id : Nat} {n : Node}

theorem node (h : t.Holds w cells) (hmem : (id, n) ∈ cells) : t.node id = pure n := by
  rw [Trie.node, (h.cell?_iff id n).mpr hmem]

theorem cell?_eq (h : t.Holds w ((id, n) ::ₘ cells)) : t.cell? id = some n :=
  (h.cell?_iff id n).mpr (Multiset.mem_cons_self _ _)

theorem not_mem (h : t.Holds w ((id, n) ::ₘ cells)) (m : Node) : (id, m) ∉ cells := by
  have hnodup := h.nodup
  rw [Multiset.map_cons, Multiset.nodup_cons] at hnodup
  exact fun hmem => hnodup.1 (Multiset.mem_map.mpr ⟨_, hmem, rfl⟩)

/-- An entry that is replaced or emptied is the only one that changes. -/
theorem cell?_setCell_iff (h : t.Holds w ((id, n) ::ₘ cells)) (o : Option Node) (j : Nat)
    (m : Node) :
    (t.setCell id o).cell? j = some m ↔ (id = j ∧ o = some m) ∨ (j, m) ∈ cells := by
  rw [cell?_setCell h.cell?_eq]
  by_cases hj : id = j
  · subst hj
    simp [h.not_mem m]
  · rw [if_neg hj, h.cell?_iff, Multiset.mem_cons, Prod.mk.injEq]
    simp [hj, Ne.symm hj]

/-- Replacing an entry replaces its cell. -/
theorem setCell (h : t.Holds w ((id, n) ::ₘ cells)) (m : Node) :
    (t.setCell id (some m)).Holds w ((id, m) ::ₘ cells) where
  width := h.width
  nodup := by simpa using h.nodup
  cell?_iff := by
    intro j m'
    rw [h.cell?_setCell_iff, Multiset.mem_cons, Prod.mk.injEq, Option.some_inj, eq_comm (a := id),
      eq_comm (a := m)]
  count := by
    rw [Multiset.card_cons, ← Multiset.card_cons (id, n)]
    exact h.count

/-- Giving up an entry takes its cell out, as long as another one is left. -/
theorem uncount (h : t.Holds w ((id, n) ::ₘ cells)) (hne : cells ≠ 0) :
    ∃ t', (t.setCell id none).uncount = pure t' ∧ t'.Holds w cells := by
  have hcount : t.count = cells.card := by
    have := h.count
    rw [Multiset.card_cons] at this
    omega
  -- the last cell could not be given up: the root is not counted
  have hpos : 0 < cells.card := Multiset.card_pos.mpr hne
  refine ⟨{ t.setCell id none with count := t.count - 1 }, ?_, ⟨h.width, ?_, ?_, ?_⟩⟩
  · have hcell : (t.setCell id none).count ≠ 0 := by
      show t.count ≠ 0
      omega
    rw [Trie.uncount, if_neg hcell]
    rfl
  · have hnodup := h.nodup
    rw [Multiset.map_cons, Multiset.nodup_cons] at hnodup
    exact hnodup.2
  · intro j m
    show (t.setCell id none).cell? j = some m ↔ _
    rw [h.cell?_setCell_iff]
    simp
  · show t.count - 1 + 1 = cells.card
    omega

/-- A new entry adds its cell. -/
theorem alloc (h : t.Holds w cells) (n : Node) :
    (t.alloc n).2.Holds w ((t.nodes.size, n) ::ₘ cells) := by
  have hfresh : ∀ m, (t.nodes.size, m) ∉ cells := by
    intro m hmem
    have hnone := (h.cell?_iff _ m).mpr hmem
    rw [cell?_size] at hnone
    cases hnone
  refine ⟨h.width, ?_, ?_, ?_⟩
  · rw [Multiset.map_cons, Multiset.nodup_cons]
    refine ⟨?_, h.nodup⟩
    rw [Multiset.mem_map]
    rintro ⟨⟨id, m⟩, hmem, rfl⟩
    exact hfresh m hmem
  · intro j m
    rw [cell?_alloc, Multiset.mem_cons, Prod.mk.injEq]
    by_cases hj : j = t.nodes.size
    · subst hj
      simp [hfresh m, eq_comm]
    · simp [hj, h.cell?_iff]
  · show t.count + 1 + 1 = _
    rw [Multiset.card_cons, h.count]

end Holds

/-! ## Operations on entries -/

variable {t : Trie} {w : Width} {cells : Multiset (Nat × Node)} {id : Nat} {n : Node}

theorem Holds.putSlot (h : t.Holds w ((id, n) ::ₘ cells)) (side : Bool) (s : Slot) :
    ∃ t', t.putSlot id side s = pure t' ∧ t'.Holds w ((id, n.put side s) ::ₘ cells) := by
  refine ⟨t.setCell id (some (n.put side s)), ?_, h.setCell _⟩
  rw [Trie.putSlot, h.node (Multiset.mem_cons_self _ _), pure_bind]

/-- A node is given up without a fault if it is not the root and holds no other node. -/
theorem Holds.free (h : t.Holds w ((id, n) ::ₘ cells)) (hid : id ≠ 0) (hne : cells ≠ 0)
    (hon : n.on.isChild = false) (hoff : n.off.isChild = false) :
    ∃ t', t.free id = pure t' ∧ t'.Holds w cells := by
  obtain ⟨t', hrun, ht'⟩ := h.uncount hne
  refine ⟨t', ?_, ht'⟩
  rw [Trie.free, if_neg hid, h.cell?_eq]
  simp only [hon, hoff, Bool.or_self, Bool.false_eq_true, if_false]
  exact hrun

end Trie

end BitClassifier
