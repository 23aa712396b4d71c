import BitClassifier.Proofs.Subtree.Exchange
import BitClassifier.Proofs.Trie.Renaming

/-!
# Exchanging what hangs in a place

An operation on a trie exchanges what hangs in one place of the stored tree. The node above the
place keeps everything but the slot there, and the other nodes that stay are stored as they were
(`Shows.exchanged_cases`, `Shows.exchanged_live_iff`).

So numbers keep their meaning as long as new nodes get new numbers (`Shows.exchanged_steady`): a
walk that leads to an old number is an old walk (`Steady.walk?_eq_some`).
-/

namespace BitClassifier

open Subtree

namespace Subtree

variable {s : Subtree} {id below : Nat} {n : Node} {p : Option Nat} {side : Bool}

theorem mem_numbers_of_mem_cells (h : (id, n) ∈ s.cells p) : id ∈ s.numbers :=
  map_fst_cells s p ▸ Multiset.mem_map_of_mem Prod.fst h

theorem mem_numbers_of_slot (h : s.slot = .child id) : id ∈ s.numbers :=
  mem_numbers_iff.mpr ⟨[], s, rfl, h⟩

/-- The nodes below a node of a tree are in the tree. -/
theorem mem_numbers_below (h : (id, n) ∈ s.cells p) (hslot : n.slot side = .child below) :
    below ∈ s.numbers := by
  induction s generalizing p with
  | absent => exact absurd h (Multiset.notMem_zero _)
  | full => exact absurd h (Multiset.notMem_zero _)
  | node root bit off on ihOff ihOn =>
    rw [cells, Multiset.mem_cons, Multiset.mem_add, Prod.mk.injEq] at h
    rw [numbers, Multiset.mem_cons, Multiset.mem_add]
    rcases h with ⟨-, rfl⟩ | hoff | hon
    · cases side
      · exact .inr (.inl (mem_numbers_of_slot hslot))
      · exact .inr (.inr (mem_numbers_of_slot hslot))
    · exact .inr (.inl (ihOff hoff))
    · exact .inr (.inr (ihOn hon))

end Subtree

namespace Trie

/-- Numbers keep their meaning: a node with an old number was there before with the same bit, and
hangs in the slot in which it was. -/
structure Steady (t t' : Trie) : Prop where
  kept : ∀ id n', id < t.nodes.size → t'.cell? id = some n' →
    ∃ n, t.cell? id = some n ∧ n'.bit = n.bit
  held : ∀ id n' side below, t'.cell? id = some n' → n'.slot side = .child below →
    below < t.nodes.size → ∃ n, t.cell? id = some n ∧ n.slot side = .child below

variable {t t' t₁ : Trie} {w : Width} {k : Spine} {f : Frame} {x y s : Subtree} {id i : Nat}
  {n : Node} {p : List Bool}

/-! ## Steady numbers -/

theorem Steady.refl (t : Trie) : Steady t t where
  kept _ n' _ hcell := ⟨n', hcell, rfl⟩
  held _ n' _ _ hcell hslot _ := ⟨n', hcell, hslot⟩

theorem Steady.trans (h : Steady t t₁) (h₁ : Steady t₁ t')
    (hsize : t.nodes.size ≤ t₁.nodes.size) : Steady t t' where
  kept id n' hid hcell := by
    obtain ⟨n₁, hcell₁, hbit₁⟩ := h₁.kept id n' (Nat.lt_of_lt_of_le hid hsize) hcell
    obtain ⟨n, hcell₀, hbit⟩ := h.kept id n₁ hid hcell₁
    exact ⟨n, hcell₀, hbit₁.trans hbit⟩
  held id n' side below hcell hslot hbelow := by
    obtain ⟨n₁, hcell₁, hslot₁⟩ :=
      h₁.held id n' side below hcell hslot (Nat.lt_of_lt_of_le hbelow hsize)
    exact h.held id n₁ side below hcell₁ hslot₁ hbelow

/-- A number that was given up stays so. -/
theorem Steady.live (h : Steady t t') (hid : id < t.nodes.size) (hlive : t'.Live id) :
    t.Live id := by
  obtain ⟨n', hcell'⟩ := Option.isSome_iff_exists.mp hlive
  obtain ⟨n, hcell, -⟩ := h.kept id n' hid hcell'
  exact Option.isSome_iff_exists.mpr ⟨n, hcell⟩

theorem walk?_cons_eq_some {side : Bool} :
    t.walk? i (side :: p) = some id ↔
      ∃ n next, t.cell? i = some n ∧ n.slot side = .child next ∧ t.walk? next p = some id := by
  rw [walk?]
  constructor
  · intro h
    obtain ⟨n, hcell, h⟩ := Option.bind_eq_some_iff.mp h
    split at h
    · rename_i next hslot
      exact ⟨n, next, hcell, hslot, h⟩
    · cases h
  · rintro ⟨n, next, hcell, hslot, h⟩
    refine Option.bind_eq_some_iff.mpr ⟨n, hcell, ?_⟩
    rw [hslot]
    exact h

/-- A walk starts and ends at a node. -/
theorem live_of_walk? (h : t.walk? i p = some id) : t.Live i ∧ t.Live id := by
  induction p generalizing i with
  | nil =>
    rw [walk?, Option.map_eq_some_iff] at h
    obtain ⟨n, hcell, rfl⟩ := h
    have hlive := Option.isSome_iff_exists.mpr ⟨n, hcell⟩
    exact ⟨hlive, hlive⟩
  | cons side p ih =>
    obtain ⟨n, next, hcell, -, hnext⟩ := walk?_cons_eq_some.mp h
    exact ⟨Option.isSome_iff_exists.mpr ⟨n, hcell⟩, (ih hnext).2⟩

/-- A walk that leads to an old number is an old walk. -/
theorem Steady.walk?_eq_some (h : Steady t t') (hid : id < t.nodes.size)
    (hwalk : t'.walk? i p = some id) : t.walk? i p = some id := by
  induction p generalizing i with
  | nil =>
    rw [walk?, Option.map_eq_some_iff] at hwalk ⊢
    obtain ⟨n', hcell', rfl⟩ := hwalk
    obtain ⟨n, hcell, -⟩ := h.kept i n' hid hcell'
    exact ⟨n, hcell, rfl⟩
  | cons side p ih =>
    obtain ⟨n', next, hcell', hslot', hwalk'⟩ := walk?_cons_eq_some.mp hwalk
    have hold := ih hwalk'
    -- the walk goes on from an old number, so its first step is an old one too
    obtain ⟨n, hcell, hslot⟩ := h.held i n' side next hcell' hslot' (live_of_walk? hold).1.lt_size
    exact walk?_cons_eq_some.mpr ⟨n, next, hcell, hslot, hold⟩

/-! ## Exchanges -/

/-- What is stored after an exchange: the node above the place, what hangs there now, or a node that
is stored as before. -/
theorem Shows.exchanged_cases (h : t.Shows w (plug k (f.fill x)))
    (h' : t'.Shows w (plug k (f.fill y))) (hcell : t'.cell? id = some n) :
    (id = f.id ∧ n = f.node y.slot (holder k)) ∨ (id, n) ∈ y.cells (some f.id) ∨
      (id ≠ f.id ∧ t.cell? id = some n) := by
  have hmem := (h'.holds.cell?_iff id n).mp hcell
  rw [cells_plug_fill, Multiset.mem_cons, Multiset.mem_add, Prod.mk.injEq] at hmem
  rcases hmem with hholder | hin | hout
  · exact .inl hholder
  · exact .inr (.inl hin)
  · refine .inr (.inr ⟨?_, ?_⟩)
    · rintro rfl
      have hnodup := h'.nodup_numbers
      rw [numbers_plug_fill, Multiset.nodup_cons, Multiset.mem_add] at hnodup
      exact hnodup.1 (.inr (Multiset.mem_map_of_mem Prod.fst hout))
    · rw [h.holds.cell?_iff, cells_plug_fill]
      exact Multiset.mem_cons_of_mem (Multiset.mem_add.mpr (.inr hout))

/-- The node above the place before and after an exchange. -/
theorem Shows.exchanged_holder (h : t.Shows w (plug k (f.fill x)))
    (h' : t'.Shows w (plug k (f.fill y))) :
    t'.cell? f.id = (t.cell? f.id).map (·.put f.side y.slot) := by
  rw [h.opened.cell?_eq, h'.opened.cell?_eq, Option.map_some, Frame.node_put]

/-- The nodes that hang in the place are exchanged, and no others. -/
theorem Shows.exchanged_live_iff (h : t.Shows w (plug k (f.fill x)))
    (h' : t'.Shows w (plug k (f.fill y))) (id : Nat) :
    t'.Live id ↔ id ∈ y.numbers ∨ t.Live id ∧ id ∉ x.numbers := by
  have hnodup := h.nodup_numbers
  rw [numbers_plug_fill, Multiset.nodup_cons, Multiset.nodup_add, Multiset.mem_add, not_or]
    at hnodup
  obtain ⟨⟨hholder, -⟩, -, -, hdisjoint⟩ := hnodup
  rw [h.live_iff_mem, h'.live_iff_mem, numbers_plug_fill, numbers_plug_fill, Multiset.mem_cons,
    Multiset.mem_cons, Multiset.mem_add, Multiset.mem_add]
  constructor
  · rintro (rfl | hin | hout)
    · exact .inr ⟨.inl rfl, hholder⟩
    · exact .inl hin
    · exact .inr ⟨.inr (.inr hout), fun hx => Multiset.disjoint_left.mp hdisjoint hx hout⟩
  · rintro (hin | ⟨rfl | hx | hout, hnot⟩)
    · exact .inr (.inl hin)
    · exact .inl rfl
    · exact absurd hx hnot
    · exact .inr (.inr hout)

/-- An exchange for nodes with new numbers. -/
theorem Shows.exchanged_steady (h : t.Shows w (plug k (f.fill x)))
    (h' : t'.Shows w (plug k (f.fill y))) (hnew : ∀ id ∈ y.numbers, t.nodes.size ≤ id) :
    Steady t t' where
  kept id n' hid hcell := by
    obtain ⟨rfl, rfl⟩ | hin | ⟨-, hold⟩ := h.exchanged_cases h' hcell
    · exact ⟨_, h.opened.cell?_eq, by simp⟩
    · exact absurd (hnew id (mem_numbers_of_mem_cells hin)) (Nat.not_le.mpr hid)
    · exact ⟨n', hold, rfl⟩
  held id n' side below hcell hslot hbelow := by
    have hfresh : below ∉ y.numbers := fun hmem => Nat.not_le.mpr hbelow (hnew below hmem)
    obtain ⟨rfl, rfl⟩ | hin | ⟨-, hold⟩ := h.exchanged_cases h' hcell
    · refine ⟨_, h.opened.cell?_eq, ?_⟩
      by_cases hside : side = f.side
      · subst hside
        rw [Frame.node_slot] at hslot
        exact absurd (mem_numbers_of_slot hslot) hfresh
      · obtain rfl := Bool.eq_not_of_ne hside
        rw [Frame.node_slot_not] at hslot ⊢
        exact hslot
    · exact absurd (mem_numbers_below hin hslot) hfresh
    · exact ⟨n', hold, hslot⟩

/-- A live node can be opened at either of its sides. -/
theorem Shows.exists_place_of_live (h : t.Shows w s) (hlive : t.Live id) (side : Bool) :
    ∃ (k : Spine) (f : Frame) (x : Subtree),
      s = plug k (f.fill x) ∧ f.id = id ∧ f.side = side := by
  obtain ⟨n, hcell⟩ := Option.isSome_iff_exists.mp hlive
  exact exists_place ((h.holds.cell?_iff id n).mp hcell) side

/-- The root hangs in no place below itself. -/
theorem Shows.ne_zero_of_mem (h : t.Shows w (plug (f :: k) x)) (hmem : id ∈ x.numbers) :
    id ≠ 0 := by
  rw [← map_fst_cells x (some f.id), Multiset.mem_map] at hmem
  obtain ⟨⟨id, n⟩, hcell, rfl⟩ := hmem
  exact h.id_ne_zero hcell

/-- The nodes that hang in a place are those whose path goes through it. -/
theorem Shows.mem_numbers_iff_path {k : Spine} (h : t.Shows w (plug k y)) :
    id ∈ y.numbers ↔ ∃ p, t.idAt? p = some id ∧ path k <+: p := by
  obtain ⟨off, on, hroot⟩ := label_eq_some.mp h.root
  have hwalk (p : List Bool) :=
    (Shows.walk?_eq_some (k := []) h (by rw [hroot]; rfl) p id)
  constructor
  · intro hmem
    obtain ⟨j, x, rfl, hx⟩ := mem_numbers_iff.mp hmem
    refine ⟨path (j ++ k), (hwalk _).mpr ⟨j ++ k, x, (plug_append j k x).symm, hx, rfl⟩, ?_⟩
    rw [path_append]
    exact List.prefix_append _ _
  · rintro ⟨p, hp, hpath⟩
    obtain ⟨l, x, hplace, hx, rfl⟩ := (hwalk p).mp hp
    obtain ⟨j, rfl, rfl⟩ := plug_eq_plug hplace hpath
    exact mem_numbers_iff.mpr ⟨j, x, rfl, hx⟩

end Trie

end BitClassifier
