import KotlinNullability.Text

/-!
# White space

The code points of the Unicode property White_Space.
-/

namespace KotlinNullability.CodePoint

/-- The ranges of White_Space, in order. -/
def whiteSpaceRanges : List (Nat × Nat) :=
  [(0x09, 0x0d), (0x20, 0x20), (0x85, 0x85), (0xa0, 0xa0), (0x1680, 0x1680), (0x2000, 0x200a),
   (0x2028, 0x2029), (0x202f, 0x202f), (0x205f, 0x205f), (0x3000, 0x3000)]

/-- Whether a code point has the property White_Space. -/
def isWhiteSpace (c : CodePoint) : Bool :=
  whiteSpaceRanges.any fun range => decide (range.1 ≤ c.val ∧ c.val ≤ range.2)

example : isWhiteSpace ' ' = true ∧ isWhiteSpace 'x' = false ∧ isWhiteSpace '\u3000' = true := by
  decide

end KotlinNullability.CodePoint

namespace KotlinNullability.Text

/-- A text without the white space at its two ends. -/
def trim (t : Text) : Text :=
  ((t.dropWhile CodePoint.isWhiteSpace).reverse.dropWhile CodePoint.isWhiteSpace).reverse

end KotlinNullability.Text
