/-!
# Sizes of images

The sides of an image are natural numbers of at most 32 bits.
-/

namespace PizzaLang

/-- **The size of an image**, in dots. -/
structure ImageSize where
  width : Nat
  height : Nat
deriving DecidableEq, Inhabited

namespace ImageSize

/-- Two to the power of 32: every side is below it. -/
def sideBound : Nat := 4294967296

/-- The size with two equal sides. -/
def square (side : Nat) : ImageSize := ⟨side, side⟩

/-- Are the sides equal? -/
def isSquare (s : ImageSize) : Bool := s.width = s.height

/-- Does the image have no area? -/
def isEmpty (s : ImageSize) : Bool := s.width = 0 || s.height = 0

/-- The size as width and height. -/
def render (s : ImageSize) : String := s!"{s.width}x{s.height}"

end ImageSize

end PizzaLang
