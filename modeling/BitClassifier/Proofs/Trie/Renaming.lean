import BitClassifier.Proofs.Subtree.Renumber
import BitClassifier.Proofs.Trie.WellFormed
import Mathlib.Data.Set.Function

/-!
# Renamed tries

`Renaming ρ t t'` says that two tries are the same but for the numbers of their nodes: `ρ` takes the
live nodes of one to those of the other, one to one, and what is stored under a number is stored
under the new number with the neighbours renamed. Tries that hold the same values are renamings of
each other (`Represents.exists_renaming`).
-/

namespace BitClassifier

open Subtree

namespace Trie

/-- The two tries are the same, the numbers of their nodes apart. -/
structure Renaming (ρ : Nat → Nat) (t t' : Trie) : Prop where
  width : t'.width = t.width
  root : ρ 0 = 0
  live : Set.BijOn ρ {id | t.Live id} {id | t'.Live id}
  /-- A node keeps its bit, what its slots are, and its neighbours. -/
  cell?_eq : ∀ id, t.Live id → t'.cell? (ρ id) = (t.cell? id).map (Node.renumber ρ)
  /-- A path leads to the same node. -/
  idAt?_eq : ∀ p, t'.idAt? p = (t.idAt? p).map ρ
  len : t'.len = t.len

variable {t t' : Trie} {w : Width} {s s' : Subtree} {ρ : Nat → Nat} {id : Nat} {n : Node}

theorem Shows.live_iff_mem (h : t.Shows w s) (id : Nat) : t.Live id ↔ id ∈ s.numbers := by
  rw [Live, Option.isSome_iff_exists, ← map_fst_cells s none, Multiset.mem_map]
  constructor
  · rintro ⟨n, hcell⟩
    exact ⟨(id, n), (h.holds.cell?_iff id n).mp hcell, rfl⟩
  · rintro ⟨⟨id, n⟩, hmem, rfl⟩
    exact ⟨n, (h.holds.cell?_iff id n).mpr hmem⟩

theorem Shows.nodup_numbers (h : t.Shows w s) : s.numbers.Nodup :=
  map_fst_cells s none ▸ h.holds.nodup

/-- The node in a slot of a live node is live. -/
theorem Shows.live_below {side : Bool} {below : Nat} (h : t.Shows w s)
    (hcell : t.cell? id = some n) (hslot : n.slot side = .child below) : t.Live below := by
  rw [h.live_iff]
  exact .step ((h.live_iff id).mp (Option.isSome_iff_exists.mpr ⟨n, hcell⟩)) hcell hslot

theorem Shows.cell?_renumber (h : t.Shows w s) (h' : t'.Shows w (s.renumber ρ))
    (hcell : t.cell? id = some n) : t'.cell? (ρ id) = some (n.renumber ρ) := by
  have hmem := (h.holds.cell?_iff id n).mp hcell
  have hcells := cells_renumber ρ s none
  rw [h'.holds.cell?_iff]
  exact hcells ▸ Multiset.mem_map_of_mem _ hmem

/-- Walks along one path end at nodes that correspond. -/
theorem Shows.walk?_renumber (h : t.Shows w s) (h' : t'.Shows w (s.renumber ρ)) (p : List Bool)
    (hcell : t.cell? id = some n) : t'.walk? (ρ id) p = (t.walk? id p).map ρ := by
  induction p generalizing id n with
  | nil => rw [walk?, walk?, hcell, h.cell?_renumber h' hcell]; rfl
  | cons side p ih =>
    have hcell' := h.cell?_renumber h' hcell
    simp only [walk?, hcell, hcell', bind, Option.bind_some, Node.slot_renumber]
    cases hslot : n.slot side with
    | absent => rfl
    | full => rfl
    | child below =>
      obtain ⟨m, hbelow⟩ := Option.isSome_iff_exists.mp (h.live_below hcell hslot)
      exact ih hbelow

/-- The live nodes correspond one to one. -/
theorem Shows.bijOn_live (h : t.Shows w s) (h' : t'.Shows w (s.renumber ρ)) :
    Set.BijOn ρ {id | t.Live id} {id | t'.Live id} := by
  have hnumbers := numbers_renumber ρ s
  refine ⟨?_, ?_, ?_⟩
  · intro id hid
    rw [Set.mem_ofPred_eq, h'.live_iff_mem, hnumbers]
    exact Multiset.mem_map_of_mem ρ ((h.live_iff_mem id).mp hid)
  · intro i hi j hj heq
    have hnodup := h'.nodup_numbers
    rw [hnumbers] at hnodup
    exact Multiset.inj_on_of_nodup_map hnodup i ((h.live_iff_mem i).mp hi) j
      ((h.live_iff_mem j).mp hj) heq
  · intro j hj
    rw [Set.mem_ofPred_eq, h'.live_iff_mem, hnumbers, Multiset.mem_map] at hj
    obtain ⟨i, hi, rfl⟩ := hj
    exact ⟨i, (h.live_iff_mem i).mpr hi, rfl⟩

theorem Shows.renumber_zero (h : t.Shows w s) (h' : t'.Shows w (s.renumber ρ)) : ρ 0 = 0 := by
  obtain ⟨off, on, hroot⟩ := label_eq_some.mp h.root
  have hroot' := h'.root
  rw [hroot, renumber, label, Option.some_inj, Prod.mk.injEq] at hroot'
  exact hroot'.1

theorem Shows.len_renumber (h : t.Shows w s) (h' : t'.Shows w (s.renumber ρ)) :
    t'.len = t.len := by
  have hcells := congrArg Multiset.card (cells_renumber ρ s none)
  rw [Multiset.card_map] at hcells
  exact Nat.succ.inj (h'.holds.count.trans (hcells.trans h.holds.count.symm))

/-- A trie that stores a renumbered tree is a renaming. -/
theorem Shows.renaming (h : t.Shows w s) (h' : t'.Shows w (s.renumber ρ)) : Renaming ρ t t' where
  width := h'.holds.width.trans h.holds.width.symm
  root := h.renumber_zero h'
  live := h.bijOn_live h'
  cell?_eq id hid := by
    obtain ⟨n, hcell⟩ := Option.isSome_iff_exists.mp hid
    rw [h.cell?_renumber h' hcell, hcell, Option.map_some]
  idAt?_eq p := by
    obtain ⟨root, hcell, -⟩ := h.root_cell
    have hwalk := h.walk?_renumber h' p hcell
    rwa [h.renumber_zero h'] at hwalk
  len := h.len_renumber h'

/-- Tries that hold the same values store the same tree, its numbers apart. -/
theorem Represents.exists_renumber (h : t.Represents w s) (h' : t'.Represents w s')
    (hsame : ∀ v, w.contains v = true → t.contains v = t'.contains v) :
    ∃ ρ, s.renumber ρ = s' := by
  refine Subtree.exists_renumber (h.sound.unnumbered_eq h'.sound fun c => ?_)
    h.shows.nodup_numbers
  have hres := hsame (w.residue c) (w.contains_residue c)
  rw [h.shows.contains, h'.shows.contains, Run.pure_inj] at hres
  -- bits above the domain are not looked at
  rwa [accepts_congr w.le_widest h.sound.fits (w.agreeBelow_residue c),
    accepts_congr w.le_widest h'.sound.fits (w.agreeBelow_residue c)] at hres

end Trie

end BitClassifier
