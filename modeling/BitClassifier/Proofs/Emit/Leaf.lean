import BitClassifier.Proofs.Emit.Meaning

/-!
# Emitted tests under any mask

The mask of a test is cut down to the domain before it is emitted, and the value that it compares is
not. Where some bit of the mask is left, the test still means what it meant, as no input has the
bits that are gone. Where none is left, the test is emitted as if zero were compared. So an emitted
test fails to mean what it should if and only if it expects a bit above the domain and looks at none
within it (`Style.test_meaning`).
-/

namespace BitClassifier

open Source
open Piece (lexemes)

/-- Whether a test under a mask expects a bit of the value while no bit of the mask lies in the
domain. -/
def Width.Misses (w : Width) (mask value : CodeValue) : Prop :=
  mask &&& w.maxValue = 0#32 ∧ value &&& mask ≠ 0#32

instance (w : Width) (mask value : CodeValue) : Decidable (w.Misses mask value) :=
  inferInstanceAs (Decidable (_ ∧ _))

namespace Width

variable {w : Width} {c mask value : CodeValue}

/-- On the inputs of the domain, a mask is as good as the part of it that lies in the domain. -/
theorem and_and_maxValue (hc : w.contains c = true) (mask : CodeValue) :
    c &&& (mask &&& w.maxValue) = c &&& mask := by
  calc c &&& (mask &&& w.maxValue) = (c &&& w.maxValue) &&& mask := by
        rw [BitVec.and_comm mask, BitVec.and_assoc]
    _ = c &&& mask := by rw [and_maxValue hc]

theorem Misses.and_eq_zero (h : w.Misses mask value) (hc : w.contains c = true) :
    c &&& mask = 0#32 := by
  rw [← and_and_maxValue hc, h.1, BitVec.and_zero]

/-- No input of the domain agrees with a value that has a bit above it under the mask. -/
theorem Misses.eval_eq (h : w.Misses mask value) (hc : w.contains c = true) (equals : Bool) :
    (Predicate.bitTest mask value equals).eval c = !equals := by
  rw [Predicate.eval, h.and_eq_zero hc, beq_eq_false_iff_ne.mpr (Ne.symm h.2)]
  cases equals <;> rfl

end Width

namespace Style

variable (s : Style) {mask value : CodeValue}

/-- A test that misses a bit is emitted as the answer for agreement. -/
theorem yields_missed (h : s.width.Misses mask value) (equals : Bool) :
    s.Yields 5 (s.expanded (.bitTest mask value equals)) fun _ => truth equals := by
  rw [expanded, h.1, test, if_pos rfl]
  simpa [Token.lexemes] using s.yields_constant equals

/-- Every other test is emitted with the value that it has. -/
theorem yields_unmissed (h : ¬s.width.Misses mask value) (equals : Bool) :
    s.Yields 5 (s.expanded (.bitTest mask value equals))
      fun c => (Predicate.bitTest mask value equals).word c := by
  have hvalue : mask &&& s.width.maxValue = 0#32 → value &&& mask = 0#32 := fun hmask => by
    by_contra hne
    exact h ⟨hmask, hne⟩
  refine (s.yields_test hvalue equals).congr fun c hc => ?_
  rw [Predicate.word_bitTest, Width.and_and_maxValue hc]

/-- The text of an emitted test is well formed and has one reading. Its truth value for the inputs
of the domain is the answer of the test, unless the test misses a bit that it expects: then the
truth value is never the answer. -/
theorem test_meaning (indent : Nat) (mask value : CodeValue) (equals : Bool) :
    ∃ e, Parses (definitions s.preamble.toList)
        (Piece.join (s.expression indent (.bitTest mask value equals))).toList e ∧
      (∀ e', Parses (definitions s.preamble.toList)
        (Piece.join (s.expression indent (.bitTest mask value equals))).toList e' → e' = e) ∧
      ∀ c, s.width.contains c = true → ∃ v calls, e.run (s.language.scope c) = some (v, calls) ∧
        ((v ≠ 0#32 ↔ (Predicate.bitTest mask value equals).eval c = true) ↔
          ¬s.width.Misses mask value) := by
  by_cases h : s.width.Misses mask value
  · obtain ⟨e, he, hrun⟩ :=
      s.parses_of_yields ((s.yields_missed h equals).mono (by decide)) indent
    refine ⟨e, he, fun e' he' => he'.unique he, fun c hc => ?_⟩
    obtain ⟨calls, hcalls⟩ := hrun c hc
    refine ⟨_, calls, hcalls, ?_⟩
    rw [truth_ne_zero, h.eval_eq hc]
    cases equals <;> simp [h]
  · obtain ⟨e, he, hrun⟩ :=
      s.parses_of_yields ((s.yields_unmissed h equals).mono (by decide)) indent
    refine ⟨e, he, fun e' he' => he'.unique he, fun c hc => ?_⟩
    obtain ⟨calls, hcalls⟩ := hrun c hc
    exact ⟨_, calls, hcalls, iff_of_true (Predicate.word_ne_zero c _) h⟩

/-- A test of the bit right above the domain is emitted as true, and no input has that bit. -/
theorem test_misses_bit :
    let s : Style := ⟨.c, false, ⟨8, by decide, by decide⟩⟩
    let p : Predicate := .bitTest 0x100 0x100 true
    s.width.contains 0 = true ∧ p.eval 0 = false ∧ Piece.join (s.expression 2 p) = "1" ∧
      ∃ e calls, Parses (definitions s.preamble.toList) (Piece.join (s.expression 2 p)).toList e ∧
        e.run (s.language.scope 0) = some (1#32, calls) := by
  intro s p
  obtain ⟨e, he, hrun⟩ :=
    s.parses_of_yields ((s.yields_missed (by decide : s.width.Misses 0x100 0x100) true).mono
      (by decide)) 2
  obtain ⟨calls, hcalls⟩ := hrun 0 (by decide)
  exact ⟨by decide, by decide, by decide, e, calls, he, hcalls⟩

end Style

end BitClassifier
