/-!
# Blank characters

The characters that separate tokens: those with the Unicode property `White_Space`. The blanks
outside ASCII are told apart, because the spelling of a boolean directly before one of them is
read as a symbol.
-/

namespace MiniScheme

/-- The ranges of code points with the property `White_Space`. -/
def blankRanges : List (Nat × Nat) :=
  [(0x9, 0xD), (0x20, 0x20), (0x85, 0x85), (0xA0, 0xA0), (0x1680, 0x1680), (0x2000, 0x200A),
    (0x2028, 0x2029), (0x202F, 0x202F), (0x205F, 0x205F), (0x3000, 0x3000)]

/-- A character that separates tokens and belongs to none. -/
def isBlank (c : Char) : Bool :=
  blankRanges.any fun r => decide (r.1 ≤ c.toNat) && decide (c.toNat ≤ r.2)

/-- A blank outside ASCII. -/
def isWideBlank (c : Char) : Bool :=
  isBlank c && decide (0x80 ≤ c.toNat)

end MiniScheme
