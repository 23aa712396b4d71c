import BitClassifier.Proofs.Trie.Size
import BitClassifier.Proofs.Trie.WellFormed
import Mathlib.Algebra.BigOperators.Group.Finset.Basic

/-!
# The accepted regions of a trie

A slot that accepts everything below it stands for a block of the set that is as large as possible.
A trie has one such slot for each of these blocks (`History.fullSlots_eq`), except that the two
slots of the root make up the whole domain.
-/

namespace BitClassifier

open BitVec Subtree

/-- The blocks that lie in a set while the block of twice their size around them does not. -/
def Width.maximalBlocks (w : Width) (S : Set CodeValue) : Set (Nat × Nat) :=
  {q | q.1 ≤ w.bits ∧ q.2 < 2 ^ q.1 ∧ w.block q.1 q.2 ⊆ S ∧
    (q.1 ≠ 0 → ¬w.block (q.1 - 1) (q.2 / 2) ⊆ S)}

/-- How many of the two slots accept everything. -/
def Node.fullSlots (n : Node) : Nat :=
  (if n.on = .full then 1 else 0) + if n.off = .full then 1 else 0

/-- The number of slots that accept everything. -/
def Trie.fullSlots (t : Trie) : Nat :=
  ∑ id ∈ Finset.range t.nodes.size, (t.cell? id).elim 0 Node.fullSlots

theorem ofNat_ushiftRight_one {k p : Nat} (hk : k ≤ 32) (hp : p < 2 ^ k) :
    BitVec.ofNat 32 p >>> 1 = BitVec.ofNat 32 (p / 2) := by
  have hhalf : p / 2 < 2 ^ k := Nat.lt_of_le_of_lt (Nat.div_le_self p 2) hp
  apply eq_of_toNat_eq
  rw [toNat_ushiftRight, toNat_ofNat_of_lt hk hp, toNat_ofNat_of_lt hk hhalf,
    Nat.shiftRight_eq_div_pow, Nat.pow_one]

namespace Subtree

variable {w : Width} {s : Subtree} {S : Set CodeValue} {k p : Nat}

/-! ## Blocks of a tree -/

theorem block_subset_iff (hS : ∀ c, s.accepts c = true ↔ w.residue c ∈ S) (hk : k ≤ w.bits)
    (hp : p < 2 ^ k) :
    w.block k p ⊆ S ↔
      ∀ c, digits k (BitVec.ofNat 32 p) <+: digits w.bits c → s.accepts c = true := by
  have houtside := not_congr (exists_mem_block_iff hS hk hp false)
  simpa [Set.subset_def] using houtside

/-- The block around a block has a path that is one digit shorter. -/
theorem parent_subset_iff (hS : ∀ c, s.accepts c = true ↔ w.residue c ∈ S) (hk : k ≤ w.bits)
    (hp : p < 2 ^ k) (hpos : k ≠ 0) :
    w.block (k - 1) (p / 2) ⊆ S ↔
      ∀ c, (digits k (BitVec.ofNat 32 p)).dropLast <+: digits w.bits c → s.accepts c = true := by
  obtain ⟨j, rfl⟩ := Nat.exists_eq_succ_of_ne_zero hpos
  have hhalf : p / 2 < 2 ^ j := by
    rw [Nat.pow_succ] at hp
    omega
  rw [dropLast_digits, ofNat_ushiftRight_one (Nat.le_trans hk w.le_widest) hp]
  exact block_subset_iff hS (Nat.le_of_succ_le hk) hhalf

theorem Minimal.mem_maximalBlocks_iff (hmin : s.Minimal) (hfit : s.Fits w.bits)
    (hS : ∀ c, s.accepts c = true ↔ w.residue c ∈ S) (k p : Nat) :
    (k, p) ∈ w.maximalBlocks S ↔ k ≤ w.bits ∧ p < 2 ^ k ∧
      digits k (BitVec.ofNat 32 p) ∈ s.places fun x => x = full := by
  refine and_congr_right fun hk => and_congr_right fun hp => ?_
  have hplace : digits k (BitVec.ofNat 32 p) ∈ (s.places fun x => x = full) ↔
      s.at? (digits k (BitVec.ofNat 32 p)) = some full := by
    simp [places]
  have hempty : digits k (BitVec.ofNat 32 p) ≠ [] ↔ k ≠ 0 := by
    rw [← List.length_pos_iff, length_digits, Nat.pos_iff_ne_zero]
  rw [hplace, hmin.full_at?_iff w.le_widest hfit, length_digits, block_subset_iff hS hk hp, hempty,
    and_iff_right hk]
  refine and_congr_right fun _ => forall_congr' fun hpos => ?_
  rw [parent_subset_iff hS hk hp hpos]
  simp

/-- The accepting leaves of a minimal tree are as many as the blocks of its set that are as large as
possible. -/
theorem Minimal.encard_maximalBlocks (hmin : s.Minimal) (hfit : s.Fits w.bits)
    (hS : ∀ c, s.accepts c = true ↔ w.residue c ∈ S) :
    (w.maximalBlocks S).encard = s.regions := by
  rw [← encard_places_full]
  refine encard_eq_of_paths w.le_widest (hmin.mem_maximalBlocks_iff hfit hS) ?_
  rintro l ⟨x, hx, rfl⟩
  exact ((hmin.full_at?_iff w.le_widest hfit l).mp hx).1

/-! ## Slots of a tree -/

/-- An accepting leaf is in a slot of a stored node, unless it is the whole tree. -/
theorem sum_fullSlots_cells (s : Subtree) (parent : Option Nat) :
    ((s.cells parent).map fun q => q.2.fullSlots).sum + (if s = full then 1 else 0) =
      s.regions := by
  induction s generalizing parent with
  | absent => rfl
  | full => rfl
  | node id bit off on ihOff ihOn =>
    have hoff := ihOff (some id)
    have hon := ihOn (some id)
    have hroot : (⟨bit, on.slot, off.slot, parent⟩ : Node).fullSlots =
        (if on = full then 1 else 0) + if off = full then 1 else 0 := by
      simp only [Node.fullSlots, slot_eq_full]
    have hnode : node id bit off on ≠ full := by simp
    rw [cells, Multiset.map_cons, Multiset.sum_cons, Multiset.map_add, Multiset.sum_add, hroot,
      if_neg hnode, regions]
    omega

end Subtree

namespace Trie

variable {t : Trie} {w : Width} {s : Subtree} {S : Set CodeValue}

theorem Holds.fullSlots_eq {cells : Multiset (Nat × Node)} (h : t.Holds w cells) :
    t.fullSlots = (cells.map fun q => q.2.fullSlots).sum := by
  let slots (id : Nat) : Nat := (t.cell? id).elim 0 Node.fullSlots
  have hids : h.ids ⊆ Finset.range t.nodes.size :=
    fun id hid => Finset.mem_range.mpr (h.mem_ids.mp hid).lt_size
  have hdead : ∀ id ∈ Finset.range t.nodes.size, id ∉ h.ids → slots id = 0 := by
    intro id _ hid
    have hnone : t.cell? id = none := Option.not_isSome_iff_eq_none.mp (mt h.mem_ids.mpr hid)
    simp only [slots, hnone, Option.elim_none]
  have hslots : ∀ q ∈ cells, slots q.1 = q.2.fullSlots := by
    intro q hq
    have hcell : t.cell? q.1 = some q.2 := (h.cell?_iff q.1 q.2).mpr hq
    simp only [slots, hcell, Option.elim_some]
  calc t.fullSlots = ∑ id ∈ h.ids, slots id := (Finset.sum_subset hids hdead).symm
    _ = ((cells.map Prod.fst).map slots).sum := rfl
    _ = (cells.map fun q => q.2.fullSlots).sum := by
      rw [Multiset.map_map]
      exact congrArg Multiset.sum (Multiset.map_congr rfl hslots)

theorem Represents.fullSlots_eq_regions (h : t.Represents w s) : t.fullSlots = s.regions := by
  obtain ⟨off, on, rfl⟩ := label_eq_some.mp h.sound.label
  rw [h.shows.holds.fullSlots_eq, ← sum_fullSlots_cells _ none, if_neg (by simp), Nat.add_zero]

/-- In a trie that does not hold the whole domain, the slots that accept everything are as many as
the blocks of the set that are as large as possible. -/
theorem History.fullSlots_eq (h : t.History w S) (hout : ∃ c, w.contains c = true ∧ c ∉ S) :
    (t.fullSlots : ℕ∞) = (w.maximalBlocks S).encard := by
  obtain ⟨s, hrep, hS⟩ := h.represents
  rw [hrep.fullSlots_eq_regions]
  obtain ⟨c, hc, hcS⟩ := hout
  have hreject : s.accepts c = false := by
    rw [← Bool.not_eq_true, hS, Width.residue_of_contains hc]
    exact hcS
  by_cases hempty : s = .node 0 w.highBit absent absent
  · -- the root of an empty trie stays, so its tree is not minimal
    have haccepts := (hrep.sound.accepts_all_iff false).mpr hempty
    rw [Minimal.encard_maximalBlocks (s := absent) trivial fits_absent fun c => by
      rw [← hS, haccepts]; rfl]
    rw [hempty]
    rfl
  · have hmin : s.Minimal := hrep.sound.minimal fun b => by
      cases b with
      | false => exact hempty
      | true =>
        intro hfull
        rw [(hrep.sound.accepts_all_iff true).mpr hfull] at hreject
        cases hreject
    rw [hmin.encard_maximalBlocks hrep.sound.fits hS]

end Trie

end BitClassifier
