import ApiSurface.Text.Ranges

/-!
# Blanks

The characters with the Unicode property White_Space, and texts without blanks at their ends.
-/

namespace ApiSurface.Text

/-- The ranges of the property White_Space. -/
def blankRanges : List (Nat × Nat) :=
  [ (0x9, 0xD), (0x20, 0x20), (0x85, 0x85), (0xA0, 0xA0), (0x1680, 0x1680), (0x2000, 0x200A),
    (0x2028, 0x2029), (0x202F, 0x202F), (0x205F, 0x205F), (0x3000, 0x3000) ]

/-- Whether the character has the property White_Space. -/
def isBlank (c : Char) : Bool :=
  inRanges c.toNat blankRanges

/-- The characters without the blanks at either end. -/
def trimmed (cs : List Char) : List Char :=
  ((cs.dropWhile isBlank).reverse.dropWhile isBlank).reverse

end ApiSurface.Text
