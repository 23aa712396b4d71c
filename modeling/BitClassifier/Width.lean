/-!
# Code values and widths

A classifier decides membership for code values, words of 32 bits. Its domain is the set of values
below `2 ^ w` for a width `w` of 1 to 32 bits; a width is made by `Width.ofNat?`, which refuses
every other number of bits.
-/

namespace BitClassifier

/-- A code value, for instance a Unicode scalar value: a word of 32 bits. -/
abbrev CodeValue := BitVec 32

/-- Whether a value has one of the bits of a mask. -/
def hits (value mask : CodeValue) : Bool :=
  value &&& mask != 0#32

/-- The number of bits of the classified domain. -/
structure Width where
  bits : Nat
  one_le : 1 ≤ bits
  le_widest : bits ≤ 32
deriving DecidableEq, Repr

/-- A number of bits that is no width. -/
structure WidthError where
  bits : Nat
deriving DecidableEq, Repr

/-- The text of a refused width. -/
def WidthError.message (e : WidthError) : String :=
  "code width must be between 1 and 32 bits, got " ++ toString e.bits

namespace Width

/-- Accepts a number of bits from 1 to 32. -/
def ofNat? (bits : Nat) : Except WidthError Width :=
  if h : 1 ≤ bits ∧ bits ≤ 32 then .ok ⟨bits, h.1, h.2⟩ else .error ⟨bits⟩

/-- The width of a whole code value, which is also the default. -/
def widest : Width := ⟨32, by decide, by decide⟩

/-- The largest value of the domain: all of its bits set. -/
def maxValue (w : Width) : CodeValue :=
  BitVec.allOnes 32 >>> (32 - w.bits)

/-- The mask of the most significant bit of the domain. -/
def highBit (w : Width) : CodeValue :=
  BitVec.twoPow 32 (w.bits - 1)

/-- Whether a value lies in the domain. -/
def contains (w : Width) (value : CodeValue) : Bool :=
  decide (value ≤ w.maxValue)

/-- A width as it is shown to a reader. -/
def text (w : Width) : String :=
  toString w.bits ++ " bits"

theorem contains_iff (w : Width) (value : CodeValue) :
    w.contains value = true ↔ value ≤ w.maxValue := by
  simp [contains]

end Width

end BitClassifier
