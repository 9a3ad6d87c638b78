import Bytewright.Text.Ranges

/-!
# Blank characters

The characters with the Unicode property `White_Space`, and trimming them off a text.
-/

namespace Bytewright.Text

/-- Boundaries of the property `White_Space`. -/
def blankBounds : List Nat :=
  [9, 14, 32, 33, 133, 134, 160, 161, 5760, 5761, 8192, 8203, 8232, 8234, 8239, 8240, 8287, 8288,
   12288, 12289]

def isBlank (c : Char) : Bool := inRanges blankBounds c.toNat

/-- The characters without the blank ones at both ends. -/
def trim (cs : List Char) : List Char :=
  ((cs.dropWhile isBlank).reverse.dropWhile isBlank).reverse

end Bytewright.Text
