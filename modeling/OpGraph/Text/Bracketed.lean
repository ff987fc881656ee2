import OpGraph.Text.Blank

/-!
# Bracketed lists

A list written as text: optional round or square brackets around elements that
are separated by commas. Blanks may stand around the brackets and around each
element, and an empty element, such as the one after a final comma, is skipped.
-/

namespace OpGraph.Text

/-- An opening bracket of either style. -/
def isOpening (c : Char) : Bool := c = '(' || c = '['

/-- A closing bracket of either style. -/
def isClosing (c : Char) : Bool := c = ')' || c = ']'

/-- The text between the brackets, however many of them stand at either end. -/
def unbracket (text : List Char) : List Char :=
  dropEndWhile isClosing ((trim text).dropWhile isOpening)

/-- The elements of the list as trimmed, non-empty texts. -/
def elements (text : List Char) : List (List Char) :=
  (((unbracket text).splitOn ',').map trim).filter (· ≠ [])

/-- Read every element with the same reader; one unreadable element refuses the list. -/
def readList? {α : Type} (read? : List Char → Option α) (text : List Char) : Option (List α) :=
  (elements text).mapM read?

/-- Brackets, blanks and a final comma do not change the elements. -/
example : elements " ( 2,-3 , ) ".toList = ["2".toList, "-3".toList] := by decide +kernel

end OpGraph.Text
