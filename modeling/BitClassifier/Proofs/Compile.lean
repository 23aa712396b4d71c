import BitClassifier.Compile
import BitClassifier.Proofs.Prune.Run

/-!
# Compiling

Compiling always succeeds, and the predicate it makes tells whether a value, modulo the size of the
domain, is listed. A listed value above the domain is never met, since a residue lies inside.
-/

namespace BitClassifier

open Trie Subtree

variable {values : List CodeValue} {w : Width}

theorem mem_inside {v : CodeValue} :
    v ∈ (ascending values).takeWhile w.contains ↔ v ∈ values ∧ w.contains v = true := by
  rw [takeWhile_eq_filter ?_ (pairwise_ascending values), List.mem_filter, mem_ascending]
  intro a b hab hb
  rw [Width.contains_iff] at hb ⊢
  exact BitVec.le_trans hab hb

/-- What compiling comes to: the plan for the tree of the listed values of the domain. -/
theorem compileReporting_eq (values : List CodeValue) (w : Width) :
    ∃ (t : Trie) (s : Subtree) (events : List Event),
      t.Represents w s ∧ (∀ c, s.accepts c = true ↔ w.residue c ∈ values) ∧
      compileReporting values w =
        .ok (⟨(s.whole w).predicate, (s.whole w).comparisons, t.len⟩, events) := by
  have hinside : ∀ v ∈ (ascending values).takeWhile w.contains, w.contains v = true :=
    fun v hv => (mem_inside.mp hv).2
  obtain ⟨t, s, hsorted, hrep, haccepts⟩ := ofSorted_represents hinside
  obtain ⟨t', b, hrun, -⟩ := Pruner.run_eq (p := .start t) hrep
  have hcost : ((Pruner.start t).spend t' (s.whole w)).comparisons = (s.whole w).comparisons :=
    Nat.zero_add _
  rw [compileReporting, List.span_eq_takeWhile_dropWhile]
  simp only [hsorted, hrun, pure_bind, Run.outcome_pure, Pruner.report, hcost]
  refine ⟨t, s, _, hrep, fun c => ?_, rfl⟩
  rw [haccepts, mem_inside]
  exact and_iff_left (w.contains_residue c)

theorem compile_eq (values : List CodeValue) (w : Width) :
    ∃ (t : Trie) (s : Subtree),
      t.Represents w s ∧ (∀ c, s.accepts c = true ↔ w.residue c ∈ values) ∧
      compile values w = .ok ⟨(s.whole w).predicate, (s.whole w).comparisons, t.len⟩ := by
  obtain ⟨t, s, events, hrep, haccepts, hrun⟩ := compileReporting_eq values w
  exact ⟨t, s, hrep, haccepts, by rw [compile, hrun]; rfl⟩

/-- Compiling succeeds, and the predicate decides membership modulo the size of the domain. -/
theorem compile_decides_membership (values : List CodeValue) (w : Width) :
    ∃ out, compile values w = .ok out ∧
      ∀ c, out.predicate.eval c = true ↔ ∃ v ∈ values, v.toNat = c.toNat % 2 ^ w.bits := by
  obtain ⟨t, s, events, hrep, haccepts, hrun⟩ := compileReporting_eq values w
  refine ⟨_, by rw [compile, hrun]; rfl, fun c => ?_⟩
  rw [hrep.sound.eval_whole, haccepts]
  constructor
  · intro hmem
    exact ⟨w.residue c, hmem, w.toNat_residue c⟩
  · rintro ⟨v, hv, hnat⟩
    rwa [BitVec.eq_of_toNat_eq ((w.toNat_residue c).trans hnat.symm)]

end BitClassifier
