import PizzaLang.Text.CodeRange

/-!
# Blank characters

White space in the sense of the Unicode property of that name: the ASCII controls
from tab to carriage return, the space, the next-line control, the no-break space
and the typographic spaces and separators. Zero-width characters, the byte order
mark among them, are not blank.
-/

namespace PizzaLang.Text

/-- The ranges of the property `White_Space`. -/
def blankRanges : List CodeRange := [
  (0x9, 0xD), (0x20, 0x20), (0x85, 0x85), (0xA0, 0xA0), (0x1680, 0x1680), (0x2000, 0x200A),
  (0x2028, 0x2029), (0x202F, 0x202F), (0x205F, 0x205F), (0x3000, 0x3000)]

/-- Is the character white space? -/
def isBlank (c : Char) : Bool := inRanges blankRanges c

/-- A text without the blanks at its two ends. -/
def trim (cs : List Char) : List Char :=
  ((cs.dropWhile isBlank).reverse.dropWhile isBlank).reverse

end PizzaLang.Text
