/-!
# Blank characters

The Unicode property `White_Space` as a table of code point ranges, and the
removal of blanks at both ends of a text. Texts are lists of characters here.
-/

namespace OpGraph.Text

/-- First and last code point of each run of blank characters. -/
def blankRanges : List (Nat × Nat) :=
  [(0x09, 0x0D), (0x20, 0x20), (0x85, 0x85), (0xA0, 0xA0), (0x1680, 0x1680),
    (0x2000, 0x200A), (0x2028, 0x2029), (0x202F, 0x202F), (0x205F, 0x205F), (0x3000, 0x3000)]

/-- A character with the property `White_Space`. -/
def isBlank (c : Char) : Bool :=
  blankRanges.any fun range => range.1 ≤ c.toNat && c.toNat ≤ range.2

/-- Remove the longest run of characters at the end that a test accepts. -/
def dropEndWhile (accepts : Char → Bool) (text : List Char) : List Char :=
  (text.reverse.dropWhile accepts).reverse

/-- Remove blanks at the start and at the end. -/
def trim (text : List Char) : List Char := dropEndWhile isBlank (text.dropWhile isBlank)

/-- The table is sorted and its runs do not touch. -/
example : blankRanges.Pairwise fun earlier later => earlier.2 + 1 < later.1 := by decide

/-- Twenty-five characters are blank. -/
example : (blankRanges.map fun range => range.2 + 1 - range.1).sum = 25 := by decide

end OpGraph.Text
