import ShiftReduce.Text.CharRange

/-!
# Blanks, words and lines

A blank is a character with the property White_Space. Words are the maximal
stretches of text without a blank, and a line ends at a line feed only: other
line separators are blanks inside a line.
-/

namespace ShiftReduce.Text

/-- The ranges of code points with the property White_Space, in ascending
order. -/
def blankRanges : List CharRange := [
  ⟨0x9, 0xd⟩, ⟨0x20, 0x20⟩, ⟨0x85, 0x85⟩, ⟨0xa0, 0xa0⟩, ⟨0x1680, 0x1680⟩, ⟨0x2000, 0x200a⟩,
  ⟨0x2028, 0x2029⟩, ⟨0x202f, 0x202f⟩, ⟨0x205f, 0x205f⟩, ⟨0x3000, 0x3000⟩]

def isBlank (c : Char) : Bool := blankRanges.any (·.holds c)

/-- The text without the blanks at its two ends. -/
def trim (text : List Char) : List Char :=
  ((text.dropWhile isBlank).reverse.dropWhile isBlank).reverse

/-- The words of a text, in order. -/
def words (text : List Char) : List (List Char) :=
  (text.splitOnP isBlank).filter fun word => !word.isEmpty

/-- The lines of a text, in order; a final line feed is followed by an empty
line. -/
def lines (text : List Char) : List (List Char) := text.splitOn '\n'

end ShiftReduce.Text
