import BitClassifier.Proofs.Emit.TestRun
import BitClassifier.Proofs.Prune.NormalForm

/-!
# What emitted tests find

The tests of compiled predicates find no wrong answer where answers are Booleans. Where they are
integers, the listed values for which the classifier returns another number than 1 are found
(`Style.runTest_compiled`).
-/

namespace BitClassifier.Style

open Source

variable {s : Style} {values : List CodeValue} {p : Predicate}

section Right

variable (hright : ∀ c, s.width.contains c = true → (p.eval c = true ↔ c ∈ values))
include hright

theorem mem_listedValues_iff_eval {k : Nat} (hk : k ≤ s.lastTested) :
    BitVec.ofNat 32 k ∈ s.listedValues values ↔ p.eval (BitVec.ofNat 32 k) = true := by
  have hlast := s.lastTested_le
  rw [hright _ (s.contains_of_le_lastTested hk), mem_listedValues, toNat_ofNat_word (by omega),
    and_iff_left hk]

/-- Only the answer for a listed value can be wrong. -/
theorem wrong_iff {k : Nat} (hk : k ≤ s.lastTested) :
    s.answer p.word (BitVec.ofNat 32 k) ≠
        truth (decide (BitVec.ofNat 32 k ∈ s.listedValues values)) ↔
      BitVec.ofNat 32 k ∈ s.listedValues values ∧ s.answer p.word (BitVec.ofNat 32 k) ≠ 1#32 := by
  by_cases hmem : BitVec.ofNat 32 k ∈ s.listedValues values
  · simp [hmem, truth]
  · have hword : p.word (BitVec.ofNat 32 k) = truth false := by
      by_contra hne
      exact hmem ((mem_listedValues_iff_eval hright hk).mpr ((p.word_ne_zero _).mp hne))
    simp [hmem, answer, hword]

/-- The wrong answers are those for listed values that are not 1. -/
theorem failures_eq_countP (hsorted : values.Pairwise (· < ·)) :
    s.failures p.word (s.listedValues values) (s.lastTested + 1) =
      (s.listedValues values).countP fun v => s.answer p.word v != 1#32 := by
  let wrong := (s.listedValues values).filter fun v => s.answer p.word v != 1#32
  have hwrong : wrong.Pairwise (· < ·) := (hsorted.filter _).filter _
  have hlast := s.lastTested_le
  -- turn by turn, the wrong answers are the places passed in the list of the wrong values
  have hrank : ∀ k, k ≤ s.lastTested + 1 →
      s.failures p.word (s.listedValues values) k = rank wrong k := by
    intro k hk
    induction k with
    | zero => simp [failures, rank]
    | succ k ih =>
      have hsucc := rank_succ hwrong (BitVec.ofNat 32 k)
      rw [toNat_ofNat_word (by omega)] at hsucc
      rw [failures_succ, hsucc, ih (by omega)]
      simp only [bne_iff_ne, wrong_iff hright (Nat.le_of_lt_succ hk), wrong, List.mem_filter]
  rw [hrank _ (Nat.le_refl _), rank_eq_length, List.countP_eq_length_filter]
  exact fun v hv => s.listedValues_lt (List.mem_filter.mp hv).1

end Right

/-- The test of a compiled classifier finds nothing wrong in a language whose answers are Booleans.
In the other language it finds the listed values for which the emitted expression, true as it is,
is not 1. -/
theorem runTest_compiled (s : Style) (name : String) {values : List CodeValue}
    (h : values.Pairwise (· < ·)) :
    ∃ out text e σ failed, compile values s.width = .ok out ∧
      s.classifier name out.predicate =
        s.preamble ++ s.heading name ++ text ++ "\n\t;\n\x7d\n" ∧
      Parses (definitions s.preamble.toList) text.toList e ∧
      (IsFree name → Routine.ofText? [] (s.testFile name values).toList =
        some (s.testRoutine name values [])) ∧
      s.runTest name values e = some σ ∧
      σ.vars "failed" = some failed ∧
      failed.toNat = match s.language with
        | .cpp => 0
        | .c => (s.listedValues values).countP fun v => out.predicate.word v != 1#32 := by
  obtain ⟨out, hcompile, hwithin, hright⟩ := compile_within values s.width
  obtain ⟨e, hparses, hanswers⟩ := s.parses_expression hwithin
  obtain ⟨σ, hrun, hturn⟩ := runTest_turn name h hanswers
  refine ⟨out, _, e, σ, _, hcompile, s.classifier_eq name _, hparses,
    fun hname => s.ofText?_testFile values hname [], hrun, hturn.failed, ?_⟩
  have hlength : (s.listedValues values).length < 2 ^ 32 :=
    (s.serves_bench name h hanswers).length
  rw [failures_eq_countP hright h,
    toNat_ofNat_word (Nat.lt_of_le_of_lt List.countP_le_length hlength)]
  cases hlanguage : s.language with
  | cpp =>
    rw [List.countP_eq_zero]
    intro v hv
    have hvalue := (mem_listedValues_iff_eval hright (s.mem_listedValues.mp hv).2).mp
      (by rwa [BitVec.ofNat_toNat, BitVec.setWidth_eq])
    rw [BitVec.ofNat_toNat, BitVec.setWidth_eq] at hvalue
    have hword := bne_zero_eq (out.predicate.word_ne_zero v)
    rw [hvalue] at hword
    simp [answer, hlanguage, converted, Language.boolType, hword, truth]
  | c => simp [answer, hlanguage, converted, Language.boolType]

/-- A profiled test of a program that counts, whose answers are Booleans. -/
theorem runTest_compiled_cpp :
    let s : Style := ⟨.cpp, true, ⟨3, by decide, by decide⟩⟩
    let values : List CodeValue := [1#32, 2#32, 3#32, 6#32]
    values.Pairwise (· < ·) ∧
      ∃ out text e σ failed, compile values s.width = .ok out ∧
        s.classifier "f" out.predicate =
          s.preamble ++ s.heading "f" ++ text ++ "\n\t;\n\x7d\n" ∧
        Parses (definitions s.preamble.toList) text.toList e ∧
        (IsFree "f" → Routine.ofText? [] (s.testFile "f" values).toList =
          some (s.testRoutine "f" values [])) ∧
        s.runTest "f" values e = some σ ∧
        σ.vars "failed" = some failed ∧
        failed.toNat = match s.language with
          | .cpp => 0
          | .c => (s.listedValues values).countP fun v => out.predicate.word v != 1#32 := by
  intro s values
  have hsorted : values.Pairwise (· < ·) := by decide
  exact ⟨hsorted, runTest_compiled s "f" hsorted⟩

/-- The classifier of all values but zero returns its argument, which a test takes for a wrong
answer unless it is 1. -/
theorem runTest_finds_two :
    let s : Style := ⟨.c, false, ⟨2, by decide, by decide⟩⟩
    let values : List CodeValue := [1#32, 2#32, 3#32]
    values.Pairwise (· < ·) ∧
      ∃ out text e r σ, compile values s.width = .ok out ∧
        s.classifier "f" out.predicate =
          s.preamble ++ s.heading "f" ++ text ++ "\n\t;\n\x7d\n" ∧
        Parses (definitions s.preamble.toList) text.toList e ∧
        Routine.ofText? [] (s.testFile "f" values).toList = some r ∧
        r.run (s.bench "f" values e) (Memory.fresh 0#32) = some σ ∧
        σ.vars "failed" = some 2#32 := by
  intro s values
  have hsorted : values.Pairwise (· < ·) := by decide
  have hcompile : compile values s.width = .ok ⟨.bitTest 3 0 false, 1, 1⟩ := by cbv
  have hfree : IsFree "f" := ⟨by decide, ⟨'f', by decide, by decide⟩, by decide⟩
  obtain ⟨e, hparses, hanswers⟩ := s.parses_expression (p := .bitTest 3 0 false) (by decide)
  obtain ⟨σ, hrun, hturn⟩ := runTest_turn (s := s) "f" hsorted hanswers
  refine ⟨hsorted, _, _, e, _, σ, hcompile, s.classifier_eq "f" _, hparses,
    s.ofText?_testFile values hfree [], hrun, ?_⟩
  rw [hturn.failed]
  decide

end BitClassifier.Style
