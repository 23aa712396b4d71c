import BitClassifier.Proofs.Bits
import Mathlib.Data.Set.Card

/-!
# Aligned blocks

A number of `k` bits names a block of the domain: the values whose topmost `k` bits are its digits.
A block is told as a pair of `k` and the number, or as the list of the digits, which is a path in
a trie. `digits_prefix_iff` and `mem_block_iff` translate from one to the other, and
`encard_eq_of_paths` counts blocks by their paths.
-/

namespace BitClassifier

open BitVec

/-! ## Digits -/

section Digits

variable {n k : Nat} {c d : CodeValue}

@[simp] theorem length_digits (n : Nat) (c : CodeValue) : (digits n c).length = n := by
  induction n with
  | zero => rfl
  | succ n ih => rw [digits, List.length_cons, ih]

theorem digits_eq_iff : digits n c = digits n d ↔ AgreeBelow n c d := by
  induction n with
  | zero => exact ⟨fun _ _ hi => absurd hi (Nat.not_lt_zero _), fun _ => rfl⟩
  | succ n ih => rw [digits, digits, List.cons.injEq, ih, agreeBelow_succ]

/-- The first digits are those of the value without its lowest bits. -/
theorem take_digits (hk : k ≤ n) (c : CodeValue) :
    (digits n c).take k = digits k (c >>> (n - k)) := by
  induction k generalizing n with
  | zero => rfl
  | succ k ih =>
    obtain ⟨m, rfl⟩ : ∃ m, n = m + 1 := Nat.exists_eq_add_of_le' (by omega)
    have hkm : k ≤ m := Nat.le_of_succ_le_succ hk
    rw [digits, digits, List.take_succ_cons, ih hkm, Nat.add_sub_add_right, getLsbD_ushiftRight,
      Nat.sub_add_cancel hkm]

theorem digits_prefix_iff (hk : k ≤ n) (c d : CodeValue) :
    digits k d <+: digits n c ↔ AgreeBelow k d (c >>> (n - k)) := by
  rw [List.prefix_iff_eq_take, length_digits, take_digits hk, digits_eq_iff]

/-- A row of at most 32 digits is the row of a number. -/
theorem exists_digits_eq {p : List Bool} (hp : p.length ≤ 32) :
    ∃ v : Nat, v < 2 ^ p.length ∧ digits p.length (BitVec.ofNat 32 v) = p := by
  induction p with
  | nil => exact ⟨0, Nat.one_pos, rfl⟩
  | cons b p ih =>
    rw [List.length_cons] at hp
    obtain ⟨v, hv, hdigits⟩ := ih (by omega)
    refine ⟨2 ^ p.length * b.toNat + v, ?_, ?_⟩
    · rw [List.length_cons, Nat.pow_succ]
      cases b <;> simp <;> omega
    · have hbit (i : Nat) : (2 ^ p.length * b.toNat + v).testBit i =
          if i < p.length then v.testBit i else b.toNat.testBit (i - p.length) :=
        Nat.testBit_two_pow_mul_add b.toNat hv i
      rw [List.length_cons, digits, List.cons.injEq]
      constructor
      · rw [getLsbD_ofNat, hbit, if_neg (Nat.lt_irrefl _)]
        cases b <;> simp
        omega
      · refine Eq.trans (digits_eq_iff.mpr fun i hi => ?_) hdigits
        rw [getLsbD_ofNat, getLsbD_ofNat, hbit, if_pos hi]

theorem dropLast_digits (n : Nat) (c : CodeValue) :
    (digits (n + 1) c).dropLast = digits n (c >>> 1) := by
  rw [List.dropLast_eq_take, length_digits, Nat.add_sub_cancel, take_digits (Nat.le_add_right n 1),
    Nat.add_sub_cancel_left]

/-- Values of `k` bits are equal if they have the same bits. -/
theorem eq_iff_agreeBelow (hc : c.toNat < 2 ^ k) (hd : d.toNat < 2 ^ k) :
    c = d ↔ AgreeBelow k c d := by
  constructor
  · rintro rfl i -
    rfl
  · intro h
    apply eq_of_getLsbD_eq
    intro i _
    rcases Nat.lt_or_ge i k with hi | hi
    · exact h i hi
    · have hpow : 2 ^ k ≤ 2 ^ i := Nat.pow_le_pow_right (by decide) hi
      rw [← testBit_toNat, ← testBit_toNat, Nat.testBit_lt_two_pow (Nat.lt_of_lt_of_le hc hpow),
        Nat.testBit_lt_two_pow (Nat.lt_of_lt_of_le hd hpow)]

theorem toNat_ofNat_of_lt {p : Nat} (hk : k ≤ 32) (hp : p < 2 ^ k) :
    (BitVec.ofNat 32 p).toNat = p := by
  rw [toNat_ofNat, Nat.mod_eq_of_lt]
  exact Nat.lt_of_lt_of_le hp (Nat.pow_le_pow_right (by decide) hk)

end Digits

/-! ## Blocks -/

namespace Width

variable {w : Width} {k p : Nat} {c : CodeValue} {S : Set CodeValue}

/-- The values of the domain whose topmost `k` bits are the digits of `p`. -/
def block (w : Width) (k p : Nat) : Set CodeValue :=
  {c | w.contains c = true ∧ c.toNat / 2 ^ (w.bits - k) = p}

theorem mem_block_iff (hk : k ≤ w.bits) (hp : p < 2 ^ k) :
    c ∈ w.block k p ↔
      w.contains c = true ∧ digits k (BitVec.ofNat 32 p) <+: digits w.bits c := by
  have hnat := toNat_ofNat_of_lt (Nat.le_trans hk w.le_widest) hp
  refine and_congr_right fun hc => ?_
  have hpow : 2 ^ w.bits = 2 ^ k * 2 ^ (w.bits - k) := by
    rw [← Nat.pow_add, Nat.add_sub_cancel' hk]
  have hshift : (c >>> (w.bits - k)).toNat = c.toNat / 2 ^ (w.bits - k) := by
    rw [toNat_ushiftRight, Nat.shiftRight_eq_div_pow]
  have hlt : (c >>> (w.bits - k)).toNat < 2 ^ k := by
    rw [contains_iff_lt, hpow] at hc
    rw [hshift]
    exact Nat.div_lt_of_lt_mul (Nat.mul_comm _ _ ▸ hc)
  rw [digits_prefix_iff hk, ← eq_iff_agreeBelow (hnat.symm ▸ hp) hlt, ← hshift, ← toNat_inj, hnat,
    eq_comm]

/-- A value, seen modulo the size of the domain, lies in a block if its topmost bits do. -/
theorem residue_mem_block_iff (hk : k ≤ w.bits) (hp : p < 2 ^ k) :
    w.residue c ∈ w.block k p ↔ digits k (BitVec.ofNat 32 p) <+: digits w.bits c := by
  rw [mem_block_iff hk hp, digits_congr (w.agreeBelow_residue c)]
  exact and_iff_right (w.contains_residue c)

/-- The mask of the topmost `k` bits of the domain. -/
def topMask (w : Width) (k : Nat) : CodeValue :=
  BitVec.ofNat 32 ((2 ^ k - 1) * 2 ^ (w.bits - k))

/-- The number `p` in the topmost `k` bits of the domain. -/
def topValue (w : Width) (k p : Nat) : CodeValue :=
  BitVec.ofNat 32 (p * 2 ^ (w.bits - k))

theorem getLsbD_topMask (hk : k ≤ w.bits) (i : Nat) :
    (w.topMask k).getLsbD i = (decide (w.bits - k ≤ i) && decide (i < w.bits)) := by
  have hwidest := w.le_widest
  rw [topMask, getLsbD_ofNat, Nat.testBit_mul_two_pow, Nat.testBit_two_pow_sub_one]
  grind

theorem getLsbD_topValue (hk : k ≤ w.bits) (hp : p < 2 ^ k) (i : Nat) :
    (w.topValue k p).getLsbD i =
      ((decide (w.bits - k ≤ i) && decide (i < w.bits)) && p.testBit (i - (w.bits - k))) := by
  have hwidest := w.le_widest
  rw [topValue, getLsbD_ofNat, Nat.testBit_mul_two_pow]
  rcases Nat.lt_or_ge i w.bits with hi | hi
  · simp [hi, Nat.lt_of_lt_of_le hi hwidest]
  · have hpow : 2 ^ k ≤ 2 ^ (i - (w.bits - k)) := Nat.pow_le_pow_right (by decide) (by omega)
    simp [Nat.testBit_lt_two_pow (Nat.lt_of_lt_of_le hp hpow)]

/-- The values with the digits of `p` in front have the topmost bits of `topValue`. -/
theorem digits_prefix_iff_top (hk : k ≤ w.bits) (hp : p < 2 ^ k) (c : CodeValue) :
    digits k (BitVec.ofNat 32 p) <+: digits w.bits c ↔
      ∀ i, w.bits - k ≤ i → i < w.bits → c.getLsbD i = (w.topValue k p).getLsbD i := by
  have hwidest := w.le_widest
  have hdigit (i : Nat) (hi : i < k) : (BitVec.ofNat 32 p).getLsbD i = p.testBit i := by
    rw [getLsbD_ofNat, decide_eq_true (by omega), Bool.true_and]
  have htop (i : Nat) (hi : i < k) :
      (w.topValue k p).getLsbD (w.bits - k + i) = p.testBit i := by
    rw [getLsbD_topValue hk hp, decide_eq_true (by omega), decide_eq_true (by omega),
      Nat.add_sub_cancel_left, Bool.and_self, Bool.true_and]
  rw [digits_prefix_iff hk]
  constructor
  · intro h i hle hlt
    obtain ⟨j, rfl⟩ := Nat.exists_eq_add_of_le hle
    have hj : j < k := by omega
    rw [htop j hj, ← hdigit j hj, h j hj, getLsbD_ushiftRight]
  · intro h i hi
    rw [hdigit i hi, getLsbD_ushiftRight, ← htop i hi, h _ (by omega) (by omega)]

theorem digits_prefix_topValue (hk : k ≤ w.bits) (hp : p < 2 ^ k) :
    digits k (BitVec.ofNat 32 p) <+: digits w.bits (w.topValue k p) :=
  (digits_prefix_iff_top hk hp _).mpr fun _ _ _ => rfl

end Width

/-- Blocks are counted by their paths. -/
theorem encard_eq_of_paths {n : Nat} (hn : n ≤ 32) {blocks : Set (Nat × Nat)}
    {paths : Set (List Bool)}
    (hblocks : ∀ k p, (k, p) ∈ blocks ↔
      k ≤ n ∧ p < 2 ^ k ∧ digits k (BitVec.ofNat 32 p) ∈ paths)
    (hpaths : ∀ l ∈ paths, l.length ≤ n) : blocks.encard = paths.encard := by
  let path (q : Nat × Nat) : List Bool := digits q.1 (BitVec.ofNat 32 q.2)
  have hinj : Set.InjOn path blocks := by
    rintro ⟨k, p⟩ hq ⟨k', p'⟩ hq' heq
    obtain rfl : k = k' := by simpa [path] using congrArg List.length heq
    obtain ⟨hk, hp, -⟩ := (hblocks k p).mp hq
    obtain ⟨-, hp', -⟩ := (hblocks k p').mp hq'
    have hnat := toNat_ofNat_of_lt (Nat.le_trans hk hn) hp
    have hnat' := toNat_ofNat_of_lt (Nat.le_trans hk hn) hp'
    have hvalue := (eq_iff_agreeBelow (hnat.symm ▸ hp) (hnat'.symm ▸ hp')).mpr
      (digits_eq_iff.mp heq)
    rw [Prod.mk.injEq, ← hnat, hvalue, hnat']
    exact ⟨rfl, rfl⟩
  have himage : path '' blocks = paths := by
    ext l
    constructor
    · rintro ⟨⟨k, p⟩, hq, rfl⟩
      exact ((hblocks k p).mp hq).2.2
    · intro hl
      have hlen := hpaths l hl
      obtain ⟨p, hp, hdigits⟩ := exists_digits_eq (Nat.le_trans hlen hn)
      exact ⟨(l.length, p), (hblocks _ _).mpr ⟨hlen, hp, hdigits.symm ▸ hl⟩, hdigits⟩
  rw [← himage, hinj.encard_image]

end BitClassifier
