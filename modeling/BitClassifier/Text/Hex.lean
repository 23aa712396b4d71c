/-!
# Hexadecimal text

Numbers in lower-case hexadecimal, with the fewest digits, and the value of a row of hexadecimal
digits of either case. `digitsValue_digits` says that reading undoes writing.
-/

namespace BitClassifier.Hex

/-- The lower-case digit of a number below sixteen. -/
def digit (n : Nat) : Char :=
  if n < 10 then Char.ofNat (48 + n) else Char.ofNat (87 + n)

/-- The value of a hexadecimal digit of either case, and zero for any other character. -/
def digitValue (c : Char) : Nat :=
  if c.toNat < 58 then c.toNat - 48
  else if c.toNat < 71 then c.toNat - 55
  else c.toNat - 87

/-- The characters that are hexadecimal digits. -/
def isDigit (c : Char) : Bool :=
  ('0' ≤ c && c ≤ '9') || ('a' ≤ c && c ≤ 'f') || ('A' ≤ c && c ≤ 'F')

/-- The digits of a number, most significant first, without leading zeros. -/
def digits (n : Nat) : List Char :=
  if n < 16 then [digit n] else digits (n / 16) ++ [digit (n % 16)]

/-- The number that a row of digits stands for. -/
def digitsValue (ds : List Char) : Nat :=
  ds.foldl (fun n d => 16 * n + digitValue d) 0

/-- A number as it is written in messages and in emitted code: `0x` and its digits. -/
def text (n : Nat) : String :=
  "0x" ++ String.ofList (digits n)

theorem digitValue_digit {n : Nat} (h : n < 16) : digitValue (digit n) = n := by
  have small : ∀ i : Fin 16, digitValue (digit i.val) = i.val := by decide
  exact small ⟨n, h⟩

theorem isDigit_digit {n : Nat} (h : n < 16) : isDigit (digit n) = true := by
  have small : ∀ i : Fin 16, isDigit (digit i.val) = true := by decide
  exact small ⟨n, h⟩

theorem digits_ne_nil (n : Nat) : digits n ≠ [] := by
  rw [digits]
  split <;> simp

theorem all_digits (n : Nat) : (digits n).all isDigit = true := by
  fun_induction digits n with
  | case1 n h => simp [isDigit_digit h]
  | case2 n h ih => simp [ih, isDigit_digit (Nat.mod_lt n (by decide : 0 < 16)), -List.all_eq_true]

theorem digitsValue_append_singleton (ds : List Char) (d : Char) :
    digitsValue (ds ++ [d]) = 16 * digitsValue ds + digitValue d := by
  simp [digitsValue]

/-- Reading the digits of a number gives the number back. -/
theorem digitsValue_digits (n : Nat) : digitsValue (digits n) = n := by
  fun_induction digits n with
  | case1 n h => simp [digitsValue, digitValue_digit h]
  | case2 n h ih =>
    rw [digitsValue_append_singleton, ih, digitValue_digit (Nat.mod_lt _ (by decide))]
    omega

end BitClassifier.Hex
