import BitClassifier.Width
import Mathlib.Algebra.Group.Nat.Defs

/-!
# Single bits and domains

A node at level `k + 1` of a trie tests the bit `2 ^ k`. Halving that bit leads one level down, and
the bits below a level are all that the nodes down there can see (`AgreeBelow`). The residue of a
value modulo the size of the domain keeps exactly the bits of the domain.
-/

namespace BitClassifier

open BitVec

theorem twoPow_ne_zero {k : Nat} (hk : k < 32) : twoPow 32 k ≠ 0#32 := by
  intro h
  have hbit := congrArg (·.getLsbD k) h
  simp [hk] at hbit

theorem hits_twoPow {k : Nat} (hk : k < 32) (c : CodeValue) :
    hits c (twoPow 32 k) = c.getLsbD k := by
  rw [hits, and_twoPow]
  cases hc : c.getLsbD k
  · simp
  · simpa using twoPow_ne_zero hk

theorem twoPow_succ_half {k : Nat} (hk : k + 1 < 32) :
    twoPow 32 (k + 1) >>> 1 = twoPow 32 k := by
  apply eq_of_getLsbD_eq
  intro i hi
  simp only [getLsbD_ushiftRight, getLsbD_twoPow]
  grind

theorem twoPow_eq_one_iff {k : Nat} (hk : k < 32) : twoPow 32 k = 1#32 ↔ k = 0 := by
  constructor
  · intro h
    have hbit := congrArg (·.getLsbD k) h
    simpa [hk] using hbit
  · rintro rfl
    exact twoPow_zero

theorem twoPow_inj {m b : Nat} (hm : m < 32) (h : twoPow 32 m = twoPow 32 b) : m = b := by
  have hset : (twoPow 32 b).getLsbD m = true := by
    rw [← h, getLsbD_twoPow]
    simp [hm]
  rw [getLsbD_twoPow, Bool.and_eq_true, decide_eq_true_iff, decide_eq_true_iff] at hset
  exact hset.2.symm

/-- The two values have the same lowest `n` bits. -/
def AgreeBelow (n : Nat) (c d : CodeValue) : Prop :=
  ∀ i, i < n → c.getLsbD i = d.getLsbD i

theorem AgreeBelow.mono {m n : Nat} {c d : CodeValue} (h : AgreeBelow n c d) (hm : m ≤ n) :
    AgreeBelow m c d :=
  fun i hi => h i (Nat.lt_of_lt_of_le hi hm)

theorem agreeBelow_succ {n : Nat} {c d : CodeValue} :
    AgreeBelow (n + 1) c d ↔ c.getLsbD n = d.getLsbD n ∧ AgreeBelow n c d := by
  constructor
  · intro h
    exact ⟨h n (Nat.lt_succ_self n), h.mono (Nat.le_succ n)⟩
  · rintro ⟨hn, h⟩ i hi
    rcases Nat.lt_succ_iff_lt_or_eq.mp hi with hlt | rfl
    · exact h i hlt
    · exact hn

/-- The two values have the same bits from `2 ^ n` on. -/
def AgreeFrom (n : Nat) (c d : CodeValue) : Prop :=
  ∀ i, n ≤ i → c.getLsbD i = d.getLsbD i

theorem AgreeFrom.refl (n : Nat) (c : CodeValue) : AgreeFrom n c c :=
  fun _ _ => rfl

/-- One bit of a value can be chosen and the others kept. -/
theorem exists_set_bit {k : Nat} (hk : k < 32) (c : CodeValue) (b : Bool) :
    ∃ d, AgreeBelow k d c ∧ d.getLsbD k = b ∧ AgreeFrom (k + 1) d c := by
  refine ⟨if b then c ||| twoPow 32 k else c &&& ~~~(twoPow 32 k), ?_, ?_, ?_⟩
  · intro i hi
    have hne : k ≠ i := by omega
    cases b <;> simp [hne]
    omega
  · cases b <;> simp [hk]
  · intro i hi
    have hne : k ≠ i := by omega
    cases b <;> simp [hne]
    exact fun hc => lt_of_getLsbD hc

/-- The lowest bits of a value are a value of their own. -/
theorem exists_lt_agreeBelow {n : Nat} (hn : n < 32) (c : CodeValue) :
    ∃ d, d < twoPow 32 n ∧ AgreeBelow n d c := by
  have hlt : c.toNat % 2 ^ n < 2 ^ n := Nat.mod_lt _ (Nat.pow_pos (by decide))
  have hpow : 2 ^ n < 2 ^ 32 := Nat.pow_lt_pow_right (by decide) hn
  have hnat : (BitVec.ofNat 32 (c.toNat % 2 ^ n)).toNat = c.toNat % 2 ^ n := by
    rw [toNat_ofNat, Nat.mod_eq_of_lt (Nat.lt_trans hlt hpow)]
  refine ⟨BitVec.ofNat 32 (c.toNat % 2 ^ n), ?_, fun i hi => ?_⟩
  · rwa [lt_def, hnat, toNat_twoPow, Nat.mod_eq_of_lt hpow]
  · rw [← testBit_toNat, hnat, Nat.testBit_mod_two_pow, testBit_toNat]
    simp [hi]

/-- The lowest `n` bits of a value, the most significant one first. -/
def digits : (n : Nat) → CodeValue → List Bool
  | 0, _ => []
  | n + 1, c => c.getLsbD n :: digits n c

theorem getElem?_digits {n i : Nat} (hi : i < n) (c : CodeValue) :
    (digits n c)[i]? = some (c.getLsbD (n - 1 - i)) := by
  induction n generalizing i with
  | zero => exact absurd hi (Nat.not_lt_zero i)
  | succ n ih =>
    cases i with
    | zero => rfl
    | succ i =>
      rw [digits, List.getElem?_cons_succ, ih (Nat.lt_of_succ_lt_succ hi)]
      congr 2
      omega

theorem digits_congr {n : Nat} {c d : CodeValue} (h : AgreeBelow n c d) :
    digits n c = digits n d := by
  induction n with
  | zero => rfl
  | succ n ih =>
    rw [agreeBelow_succ] at h
    rw [digits, digits, h.1, ih h.2]

namespace Width

theorem toNat_maxValue (w : Width) : w.maxValue.toNat = 2 ^ w.bits - 1 := by
  have hpow : 2 ^ 32 = 2 ^ w.bits * 2 ^ (32 - w.bits) := by
    rw [← Nat.pow_add, Nat.add_sub_cancel' w.le_widest]
  have hbits : 0 < 2 ^ w.bits := Nat.pow_pos (by decide)
  have hrest : 0 < 2 ^ (32 - w.bits) := Nat.pow_pos (by decide)
  rw [maxValue, toNat_ushiftRight, toNat_allOnes, Nat.shiftRight_eq_div_pow, hpow]
  -- a product of two positive numbers, less one, divided by the second one
  generalize 2 ^ w.bits = a at *
  generalize 2 ^ (32 - w.bits) = b at *
  apply Nat.div_eq_of_lt_le
  · rw [Nat.sub_mul, Nat.one_mul]
    omega
  · rw [Nat.sub_add_cancel hbits]
    exact Nat.sub_one_lt (Nat.ne_of_gt (Nat.mul_pos hbits hrest))

/-- The domain consists of the values below `2 ^ w`. -/
theorem contains_iff_lt (w : Width) (v : CodeValue) :
    w.contains v = true ↔ v.toNat < 2 ^ w.bits := by
  rw [contains_iff, le_def, toNat_maxValue]
  have : 1 ≤ 2 ^ w.bits := Nat.one_le_two_pow
  omega

/-- A value modulo the size of the domain. -/
def residue (w : Width) (c : CodeValue) : CodeValue :=
  BitVec.ofNat 32 (c.toNat % 2 ^ w.bits)

theorem toNat_residue (w : Width) (c : CodeValue) :
    (w.residue c).toNat = c.toNat % 2 ^ w.bits := by
  rw [residue, toNat_ofNat]
  exact Nat.mod_eq_of_lt (Nat.lt_of_le_of_lt (Nat.mod_le _ _) c.isLt)

theorem contains_residue (w : Width) (c : CodeValue) : w.contains (w.residue c) = true := by
  rw [contains_iff_lt, toNat_residue]
  exact Nat.mod_lt _ (Nat.pow_pos (by decide))

theorem residue_of_contains {w : Width} {v : CodeValue} (hv : w.contains v = true) :
    w.residue v = v := by
  rw [contains_iff_lt] at hv
  apply eq_of_toNat_eq
  rw [toNat_residue, Nat.mod_eq_of_lt hv]

theorem getLsbD_residue (w : Width) (c : CodeValue) (i : Nat) :
    (w.residue c).getLsbD i = (decide (i < w.bits) && c.getLsbD i) := by
  rw [← testBit_toNat, toNat_residue, Nat.testBit_mod_two_pow, testBit_toNat]

/-- The residue sees the bits of the domain and no others. -/
theorem residue_eq_iff {w : Width} {v : CodeValue} (hv : w.contains v = true) (c : CodeValue) :
    w.residue c = v ↔ AgreeBelow w.bits c v := by
  constructor
  · rintro rfl i hi
    simp [getLsbD_residue, hi]
  · intro h
    rw [← residue_of_contains hv]
    apply eq_of_getLsbD_eq
    intro i _
    rw [getLsbD_residue, getLsbD_residue]
    by_cases hi : i < w.bits
    · rw [h i hi]
    · simp [hi]

theorem agreeBelow_residue (w : Width) (c : CodeValue) : AgreeBelow w.bits (w.residue c) c := by
  intro i hi
  simp [getLsbD_residue, hi]

end Width

end BitClassifier
