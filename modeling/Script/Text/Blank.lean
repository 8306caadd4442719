import Script.Text.CodePoint

/-!
# Blanks

The characters that separate words: the Unicode white space characters together with the four
separators `1C` to `1F` of ASCII. There are 29 of them.
-/

namespace Script.CodePoint

/-- Inclusive ranges of the characters that separate words, in order. -/
def blankRanges : List (Nat × Nat) :=
  [(0x09, 0x0D), (0x1C, 0x20), (0x85, 0x85), (0xA0, 0xA0), (0x1680, 0x1680), (0x2000, 0x200A),
   (0x2028, 0x2029), (0x202F, 0x202F), (0x205F, 0x205F), (0x3000, 0x3000)]

def isBlank (c : CodePoint) : Bool :=
  blankRanges.any fun (low, high) => low ≤ c.val && c.val ≤ high

example : (blankRanges.map fun (low, high) => high + 1 - low).sum = 29 := rfl

end Script.CodePoint

namespace Script.Text

def trimBlanks (t : Text) : Text :=
  ((t.dropWhile CodePoint.isBlank).reverse.dropWhile CodePoint.isBlank).reverse

end Script.Text
