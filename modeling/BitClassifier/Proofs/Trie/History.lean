import BitClassifier.Proofs.Trie.Path
import Mathlib

/-!
# Histories

A history is any sequence of insertions of values of the domain and of clearings of slots of live
nodes, started from the empty trie or from one that was built from a list. It keeps the set that
such a sequence ought to leave, told without a trie: an insertion adds its value, and a clearing
takes out the values whose topmost bits are the path of the node followed by the cleared side.
-/

namespace BitClassifier

open Subtree

namespace Trie

/-- The tries that a sequence of operations makes, each with the set that it ought to hold. -/
inductive History (w : Width) : Trie → Set CodeValue → Prop where
  | empty : History w (Trie.empty w) ∅
  | ofSorted {t : Trie} {values : List CodeValue} : (∀ v ∈ values, w.contains v = true) →
      Trie.ofSorted w values = pure t → History w t {v | v ∈ values}
  | insert {t t' : Trie} {S : Set CodeValue} {v : CodeValue} {new : Bool} :
      History w t S → w.contains v = true → t.insert v = pure (new, t') → History w t' ({v} ∪ S)
  | clear {t t' : Trie} {S : Set CodeValue} {id n : Nat} {side : Bool} :
      History w t S → t.Live id → t.clear id side = pure (n, t') →
      History w t' {v ∈ S | ∀ p, t.idAt? p = some id → ¬p ++ [side] <+: digits w.bits v}

variable {t t' : Trie} {w : Width} {s : Subtree} {S : Set CodeValue} {id : Nat}

/-- A slot of a live node can be cleared, and the values with the path to it are taken out. -/
theorem Represents.clear_live (h : t.Represents w s) (hlive : t.Live id) (side : Bool) :
    ∃ m t' s', t.clear id side = pure (m, t') ∧ t'.Represents w s' ∧
      ∀ c, s'.accepts c = true ↔ s.accepts c = true ∧
        ∀ p, t.idAt? p = some id → ¬p ++ [side] <+: digits w.bits c := by
  obtain ⟨q, hq, hunique⟩ := h.existsUnique_path hlive
  obtain ⟨off, on, hroot⟩ := label_eq_some.mp h.shows.root
  obtain ⟨k, x, rfl, hx, rfl⟩ := (h.shows.walk?_eq_some (k := []) (by rw [hroot]; rfl) q id).mp hq
  obtain ⟨bit, off', on', rfl⟩ := slot_eq_child.mp hx
  rw [← fill_pick id bit side off' on'] at h ⊢
  obtain ⟨m, t', hrun, hrep⟩ := h.clear
  refine ⟨m, t', _, hrun, hrep, fun c => ?_⟩
  obtain ⟨n, habove, -⟩ := exists_above (k := _ :: k) h.sound.fits h.sound.sides
  rw [accepts_climb_absent, habove.follows_iff_path, path_cons]
  constructor
  · rintro ⟨hacc, hnot⟩
    exact ⟨hacc, fun p hp => hunique p hp ▸ hnot⟩
  · rintro ⟨hacc, hall⟩
    exact ⟨hacc, hall (path k) hq⟩

/-- A history leaves a trie that represents its set. -/
theorem History.represents (h : History w t S) :
    ∃ s, t.Represents w s ∧ ∀ c, s.accepts c = true ↔ w.residue c ∈ S := by
  induction h with
  | empty => exact ⟨_, empty_represents w, fun c => by simp [Subtree.accepts]⟩
  | ofSorted hvalues hrun =>
    obtain ⟨t', s, hsorted, hrep, haccepts⟩ := ofSorted_represents hvalues
    obtain rfl := Run.pure_inj.mp (hsorted.symm.trans hrun)
    exact ⟨s, hrep, haccepts⟩
  | insert _ hv hrun ih =>
    obtain ⟨s, hrep, hS⟩ := ih
    obtain ⟨t₁, s₁, hinsert, hrep₁, haccepts⟩ := hrep.insert hv
    obtain ⟨-, rfl⟩ := Run.pure_mk_inj.mp (hinsert.symm.trans hrun)
    refine ⟨s₁, hrep₁, fun c => ?_⟩
    rw [haccepts, Bool.or_eq_true, hS, decide_eq_true_iff, or_comm]
    rfl
  | @clear t t' S id n side _ hlive hrun ih =>
    obtain ⟨s, hrep, hS⟩ := ih
    obtain ⟨m, t₁, s₁, hclear, hrep₁, haccepts⟩ := hrep.clear_live hlive side
    obtain ⟨-, rfl⟩ := Run.pure_mk_inj.mp (hclear.symm.trans hrun)
    refine ⟨s₁, hrep₁, fun c => ?_⟩
    -- the tree sees the bits of the domain only, so the residue has the same path
    rw [haccepts, hS, ← digits_congr (w.agreeBelow_residue c)]
    rfl

/-- All the values of a history are in the domain. -/
theorem History.contains_of_mem (h : History w t S) {v : CodeValue} (hv : v ∈ S) :
    w.contains v = true := by
  induction h with
  | empty => exact absurd hv (Set.notMem_empty v)
  | ofSorted hvalues _ => exact hvalues v hv
  | insert _ hdom _ ih => exact hv.elim (fun heq => heq ▸ hdom) ih
  | clear _ _ _ ih => exact ih hv.1

/-- Over any history, the trie answers as its set does: to a membership test of any value, to an
insertion, and to the questions whether nothing and whether the whole domain is in the set. No
operation that can come next fails, and a node that can be cleared has one path. -/
theorem History.answers_as_set (h : History w t S) :
    (∀ c, ∃ b, t.contains c = pure b ∧ (b = true ↔ w.residue c ∈ S)) ∧
    (∀ v, w.contains v = true → ∃ new t', t.insert v = pure (new, t') ∧ (new = true ↔ v ∉ S)) ∧
    (∀ id, t.Live id → (∃! p, t.idAt? p = some id) ∧
      ∀ side, ∃ n t', t.clear id side = pure (n, t')) ∧
    (∃ b, t.isEmpty = pure b ∧ (b = true ↔ S = ∅)) ∧
    (∃ b, t.isFull = pure b ∧ (b = true ↔ S = {v | w.contains v = true})) := by
  obtain ⟨s, hrep, hS⟩ := h.represents
  have hmem {v : CodeValue} (hv : w.contains v = true) : s.accepts v = true ↔ v ∈ S := by
    rw [hS, Width.residue_of_contains hv]
  -- a single answer to every test is a set without values or with all those of the domain
  have hall (b : Bool) :
      (∀ c, s.accepts c = b) ↔ ∀ v, w.contains v = true → (v ∈ S ↔ b = true) := by
    constructor
    · intro hb v hv
      rw [← hmem hv, hb]
    · intro hb c
      rw [Bool.eq_iff_iff, hS]
      exact hb _ (w.contains_residue c)
  refine ⟨fun c => ⟨_, hrep.shows.contains c, hS c⟩, fun v hv => ?_, fun id hlive => ?_, ?_, ?_⟩
  · obtain ⟨t', s', hrun, -⟩ := hrep.insert hv
    exact ⟨_, t', hrun, by rw [Bool.not_eq_true', ← Bool.not_eq_true, hmem hv]⟩
  · refine ⟨hrep.existsUnique_path hlive, fun side => ?_⟩
    obtain ⟨m, t', s', hrun, -⟩ := hrep.clear_live hlive side
    exact ⟨m, t', hrun⟩
  · refine ⟨_, hrep.shows.isEmpty, ?_⟩
    rw [decide_eq_true_iff, ← leaf_false, ← hrep.sound.accepts_all_iff, hall]
    constructor
    · intro hnone
      exact Set.eq_empty_of_forall_notMem fun v hv =>
        Bool.false_ne_true ((hnone v (h.contains_of_mem hv)).mp hv)
    · rintro rfl v -
      simp
  · refine ⟨_, hrep.shows.isFull, ?_⟩
    rw [decide_eq_true_iff, ← leaf_true, ← hrep.sound.accepts_all_iff, hall]
    constructor
    · intro hevery
      exact Set.Subset.antisymm (fun v => h.contains_of_mem) fun v hv => (hevery v hv).mpr rfl
    · rintro rfl v hv
      simpa using hv

/-- A region that was completed, cleared and begun again: 0, 1, not the lower half, 1. -/
theorem History.answers_as_set_refilled :
    let w : Width := ⟨2, by decide, by decide⟩
    let t : Trie :=
      ⟨w, #[some ⟨2, .absent, .child 2, none⟩, none, some ⟨1, .full, .absent, some 0⟩], 1⟩
    ∃ S, History w t S ∧ w.residue 5 ∈ S ∧ t.contains 5 = pure true := by
  intro w t
  let t₁ : Trie := ⟨w, #[some ⟨2, .absent, .child 1, none⟩, some ⟨1, .absent, .full, some 0⟩], 1⟩
  let t₂ : Trie := ⟨w, #[some ⟨2, .absent, .full, none⟩, none], 0⟩
  let t₃ : Trie := ⟨w, #[some ⟨2, .absent, .absent, none⟩, none], 0⟩
  have hfirst : (Trie.empty w).insert 0 = pure (true, t₁) := by cbv
  have hsecond : t₁.insert 1 = pure (true, t₂) := by cbv
  have hclear : t₂.clear 0 false = pure (0, t₃) := by cbv
  have hthird : t₃.insert 1 = pure (true, t) := by cbv
  have hone := History.insert .empty (by decide) hfirst
  have htwo := History.insert hone (by decide) hsecond
  have hlive : t₂.Live 0 := rfl
  have hthree := History.clear htwo hlive hclear
  have hfour := History.insert hthree (by decide) hthird
  obtain ⟨b, hrun, hb⟩ := (History.answers_as_set hfour).1 5
  have hres : w.residue 5 = 1 := by decide
  refine ⟨_, hfour, .inl hres, ?_⟩
  rw [hrun, hb.mpr (.inl hres)]

end Trie

end BitClassifier
