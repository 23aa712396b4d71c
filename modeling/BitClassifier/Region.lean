import BitClassifier.Width
import BitClassifier.Text.Hex

/-!
# Regions

A region fixes some bits of a code value and leaves the others free. The path from the root of a
trie to one of its nodes fixes one bit after another, so it describes a region.
-/

namespace BitClassifier

/-- The values whose bits under `mask` are those of `value`. -/
structure Region where
  mask : CodeValue
  value : CodeValue
deriving DecidableEq, Repr

namespace Region

/-- The region that fixes no bit. -/
def whole : Region := ⟨0#32, 0#32⟩

/-- Fixes one more bit. -/
def fix (r : Region) (bit : CodeValue) (on : Bool) : Region :=
  ⟨r.mask ||| bit, if on then r.value ||| bit else r.value⟩

/-- Whether a value lies in the region. -/
def covers (r : Region) (c : CodeValue) : Bool :=
  c &&& r.mask == r.value

/-- The value and the mask, as they are reported while a trie is pruned. -/
def text (r : Region) : String :=
  Hex.text r.value.toNat ++ "/" ++ Hex.text r.mask.toNat

@[simp] theorem covers_whole (c : CodeValue) : whole.covers c = true := by
  simp [covers, whole]

end Region

end BitClassifier
