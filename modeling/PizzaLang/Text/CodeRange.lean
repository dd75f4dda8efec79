/-!
# Ranges of code points

A property of characters is given by the ranges of code points that have it.
-/

namespace PizzaLang.Text

/-- The first and the last code point of a range, both in it. -/
abbrev CodeRange := Nat × Nat

/-- Does the character lie in one of the ranges? -/
def inRanges (ranges : List CodeRange) (c : Char) : Bool :=
  ranges.any fun (first, last) => first ≤ c.toNat && c.toNat ≤ last

end PizzaLang.Text
