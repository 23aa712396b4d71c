import BitClassifier.Proofs.Compile
import BitClassifier.Proofs.Subtree.Places

/-!
# The size of a trie

A trie has one node for every aligned block that is mixed, that is, has values of the set and other
values of the domain (`len_eq_mixedBlocks`). Full and empty blocks have none, whatever operations
made the trie.
-/

namespace BitClassifier

open Subtree

/-- The blocks below the whole domain and above single values that hold values of the set and
others. -/
def Width.mixedBlocks (w : Width) (S : Set CodeValue) : Set (Nat × Nat) :=
  {q | 1 ≤ q.1 ∧ q.1 < w.bits ∧ q.2 < 2 ^ q.1 ∧
    (∃ c ∈ w.block q.1 q.2, c ∈ S) ∧ ∃ c ∈ w.block q.1 q.2, c ∉ S}

namespace Subtree

variable {w : Width} {s : Subtree} {S : Set CodeValue} {k p : Nat}

/-- The answers for the values of a block are those for the values with its path. -/
theorem exists_mem_block_iff (hS : ∀ c, s.accepts c = true ↔ w.residue c ∈ S)
    (hk : k ≤ w.bits) (hp : p < 2 ^ k) (b : Bool) :
    (∃ c ∈ w.block k p, (c ∈ S ↔ b = true)) ↔
      ∃ c, digits k (BitVec.ofNat 32 p) <+: digits w.bits c ∧ s.accepts c = b := by
  constructor
  · rintro ⟨c, hc, hb⟩
    obtain ⟨hdomain, hpath⟩ := (Width.mem_block_iff hk hp).mp hc
    rw [← Width.residue_of_contains hdomain, ← hS] at hb
    exact ⟨c, hpath, Bool.eq_iff_iff.mpr hb⟩
  · rintro ⟨c, hpath, hb⟩
    refine ⟨w.residue c, (Width.mem_block_iff hk hp).mpr ⟨w.contains_residue c, ?_⟩, ?_⟩
    · rwa [digits_congr (w.agreeBelow_residue c)]
    · rw [← hS, hb]

/-- Below the root, the paths of nodes are those whose values are given both answers. -/
theorem Sound.isNode_at?_iff (h : Sound w s) {l : List Bool} (hl : l ≠ []) :
    (∃ x, s.at? l = some x ∧ x.isNode = true) ↔
      l.length < w.bits ∧ ∀ b, ∃ c, l <+: digits w.bits c ∧ s.accepts c = b := by
  obtain ⟨off, on, rfl⟩ := label_eq_some.mp h.label
  obtain ⟨side, p, rfl⟩ := List.exists_cons_of_ne_nil hl
  obtain ⟨m, hm⟩ := h.fits.pos
  have hfit := hm ▸ h.fits
  have hlt : m < 32 := by
    have := w.le_widest
    omega
  have hpick := pick_level h.sides hfit side
  rw [hm, at?_cons, hpick.1.isNode_at?_iff (Nat.le_of_lt hlt) hpick.2, List.length_cons,
    Nat.succ_lt_succ_iff]
  simp only [exists_prefix_cons hlt hfit]

theorem Sound.mem_mixedBlocks_iff (h : Sound w s) (hS : ∀ c, s.accepts c = true ↔ w.residue c ∈ S)
    (k p : Nat) :
    (k, p) ∈ w.mixedBlocks S ↔ k ≤ w.bits ∧ p < 2 ^ k ∧
      digits k (BitVec.ofNat 32 p) ∈ (s.places fun x => x.isNode = true) \ {[]} := by
  have hne : digits k (BitVec.ofNat 32 p) ≠ [] ↔ 1 ≤ k := by
    rw [← List.length_pos_iff, length_digits]
    rfl
  constructor
  · rintro ⟨hk, hlt, hp, hin, hout⟩
    have hle := Nat.le_of_lt hlt
    refine ⟨hle, hp, (h.isNode_at?_iff (hne.mpr hk)).mpr ⟨by rwa [length_digits], fun b => ?_⟩,
      hne.mpr hk⟩
    rw [← exists_mem_block_iff hS hle hp]
    cases b
    · simpa using hout
    · simpa using hin
  · rintro ⟨hle, hp, hplace, hpath⟩
    obtain ⟨hlt, hboth⟩ := (h.isNode_at?_iff hpath).mp hplace
    rw [length_digits] at hlt
    refine ⟨hne.mp hpath, hlt, hp, ?_, ?_⟩
    · simpa using (exists_mem_block_iff hS hle hp true).mpr (hboth true)
    · simpa using (exists_mem_block_iff hS hle hp false).mpr (hboth false)

/-- The nodes of a sound tree are as many as the mixed blocks, the root apart. -/
theorem Sound.size_eq (h : Sound w s) (hS : ∀ c, s.accepts c = true ↔ w.residue c ∈ S) :
    (s.size : ℕ∞) = (w.mixedBlocks S).encard + 1 := by
  have hroot : [] ∈ s.places fun x => x.isNode = true := by
    obtain ⟨off, on, rfl⟩ := label_eq_some.mp h.label
    exact nil_mem_places.mpr rfl
  have hblocks : (w.mixedBlocks S).encard =
      ((s.places fun x => x.isNode = true) \ {[]}).encard :=
    encard_eq_of_paths w.le_widest (h.mem_mixedBlocks_iff hS) fun l hl =>
      Nat.le_of_lt ((h.isNode_at?_iff hl.2).mp hl.1).1
  rw [hblocks, Set.encard_sdiff_singleton_add_one hroot, encard_places_isNode]

end Subtree

theorem Trie.Represents.len_eq {t : Trie} {w : Width} {s : Subtree} {S : Set CodeValue}
    (h : t.Represents w s) (hS : ∀ c, s.accepts c = true ↔ w.residue c ∈ S) :
    (t.len : ℕ∞) = (w.mixedBlocks S).encard := by
  have hsize := h.sound.size_eq hS
  rw [← h.len_add_one, Nat.cast_add, Nat.cast_one] at hsize
  exact WithTop.add_right_cancel ENat.one_ne_top hsize

/-- The nodes of a trie are as many as the mixed blocks of its set, whatever operations made it. So
are the nodes that a compilation reports for the listed values. -/
theorem len_eq_mixedBlocks :
    (∀ {t : Trie} {w : Width} {S : Set CodeValue}, t.History w S →
      (t.len : ℕ∞) = (w.mixedBlocks S).encard) ∧
    ∀ (values : List CodeValue) (w : Width), ∃ out, compile values w = .ok out ∧
      (out.nodes : ℕ∞) = (w.mixedBlocks {v | v ∈ values}).encard := by
  constructor
  · intro t w S h
    obtain ⟨s, hrep, hS⟩ := h.represents
    exact hrep.len_eq hS
  · intro values w
    obtain ⟨t, s, hrep, hS, hrun⟩ := compile_eq values w
    exact ⟨_, hrun, hrep.len_eq hS⟩

/-- The values 0, 1 and 2 of a trie from which 7 was taken out again. Of the blocks, the lower half
and its upper half are mixed. -/
theorem len_eq_mixedBlocks_cleared :
    let w : Width := ⟨3, by decide, by decide⟩
    let t : Trie :=
      ⟨w, #[some ⟨4, .absent, .child 1, none⟩, some ⟨2, .child 3, .full, some 0⟩, none,
        some ⟨1, .absent, .full, some 1⟩, none, none], 2⟩
    ∃ S, t.History w S ∧ (t.len : ℕ∞) = (w.mixedBlocks S).encard := by
  intro w t
  let t₁ : Trie :=
    ⟨w, #[some ⟨4, .child 4, .child 1, none⟩, some ⟨2, .child 3, .full, some 0⟩, none,
      some ⟨1, .absent, .full, some 1⟩, some ⟨2, .child 5, .absent, some 0⟩,
      some ⟨1, .full, .absent, some 4⟩], 4⟩
  have hsorted : Trie.ofSorted w [0, 1, 2, 7] = pure t₁ := by cbv
  have hvalues : ∀ v ∈ ([0, 1, 2, 7] : List CodeValue), w.contains v = true := by
    simp [w, Width.contains, Width.maxValue]
  have hclear : t₁.clear 0 true = pure (2, t) := by cbv
  have hlive : t₁.Live 0 := rfl
  have h := Trie.History.clear (.ofSorted hvalues hsorted) hlive hclear
  exact ⟨_, h, len_eq_mixedBlocks.1 h⟩

end BitClassifier
