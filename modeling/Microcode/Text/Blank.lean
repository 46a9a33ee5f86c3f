/-!
# Blank characters

The characters with the Unicode property `White_Space`, and trimming by
them. Format characters such as the byte order mark or the zero width
space are not among them.
-/

namespace Microcode.Text

/-- The ranges, both ends included, of the characters with the property
`White_Space`. -/
def blankRanges : List (Nat × Nat) :=
  [(0x0009, 0x000D), (0x0020, 0x0020), (0x0085, 0x0085), (0x00A0, 0x00A0),
   (0x1680, 0x1680), (0x2000, 0x200A), (0x2028, 0x2029), (0x202F, 0x202F),
   (0x205F, 0x205F), (0x3000, 0x3000)]

def isBlank (c : Char) : Bool :=
  blankRanges.any fun (first, last) => first ≤ c.toNat && c.toNat ≤ last

/-- The characters without the blanks at either end. -/
def trim (cs : List Char) : List Char :=
  ((cs.dropWhile isBlank).reverse.dropWhile isBlank).reverse

/-- The table holds the twenty-five characters of the property. -/
example : (blankRanges.map fun (first, last) => last + 1 - first).sum = 25 := by
  decide

end Microcode.Text
