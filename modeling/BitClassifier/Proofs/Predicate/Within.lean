import BitClassifier.Predicate.Basic
import BitClassifier.Proofs.Bits

/-!
# Predicates over a domain

The masks and bits of a predicate over a domain have no bits above it (`Predicate.Within`).
-/

namespace BitClassifier

namespace Width

variable {w : Width} {u v : CodeValue}

theorem and_maxValue (h : w.contains v = true) : v &&& w.maxValue = v := by
  rw [contains_iff_lt] at h
  apply BitVec.eq_of_toNat_eq
  rw [BitVec.toNat_and, toNat_maxValue, Nat.and_two_pow_sub_one_eq_mod, Nat.mod_eq_of_lt h]

theorem contains_zero (w : Width) : w.contains 0#32 = true := by
  rw [contains_iff_lt]
  exact Nat.pow_pos (by decide)

theorem contains_or (hu : w.contains u = true) (hv : w.contains v = true) :
    w.contains (u ||| v) = true := by
  rw [contains_iff_lt] at hu hv ⊢
  rw [BitVec.toNat_or]
  exact Nat.or_lt_two_pow hu hv

theorem contains_twoPow {k : Nat} (h : k < w.bits) : w.contains (BitVec.twoPow 32 k) = true := by
  have hk : k < 32 := Nat.lt_of_lt_of_le h w.le_widest
  rw [contains_iff_lt, BitVec.toNat_twoPow, Nat.mod_eq_of_lt (Nat.pow_lt_pow_right (by decide) hk)]
  exact Nat.pow_lt_pow_right (by decide) h

end Width

namespace Predicate

/-- Whether all masks and bits of a predicate lie in a domain. -/
def Within (w : Width) : Predicate → Prop
  | constant _ => True
  | bitTest mask _ _ => w.contains mask = true
  | and left right => left.Within w ∧ right.Within w
  | or left right => left.Within w ∧ right.Within w
  | cond bit on off => w.contains bit = true ∧ on.Within w ∧ off.Within w

instance decidableWithin (w : Width) : (p : Predicate) → Decidable (p.Within w)
  | constant _ => isTrue trivial
  | bitTest mask _ _ => inferInstanceAs (Decidable (w.contains mask = true))
  | and left right =>
    @instDecidableAnd _ _ (decidableWithin w left) (decidableWithin w right)
  | or left right =>
    @instDecidableAnd _ _ (decidableWithin w left) (decidableWithin w right)
  | cond bit on off =>
    @instDecidableAnd (w.contains bit = true) _ inferInstance
      (@instDecidableAnd _ _ (decidableWithin w on) (decidableWithin w off))

end Predicate

end BitClassifier
