import PizzaLang.Path

/-!
# Positions

Where something stands: a line and a column of a unit, both counted from one. Columns
count characters.
-/

namespace PizzaLang

/-- **A position** in a unit. -/
structure Position where
  line : Nat
  column : Nat
  unit : Path
deriving DecidableEq, Inhabited

namespace Position

/-- The first character of a unit. -/
def start (unit : Path) : Position := ⟨1, 1, unit⟩

/-- The position as messages give it. -/
def render (p : Position) : String :=
  s!"[row={p.line}; column={p.column}] in {p.unit.text}"

/-- Equality of positions, with units compared as paths. -/
def Same (p q : Position) : Prop :=
  p.line = q.line ∧ p.column = q.column ∧ p.unit.Same q.unit

instance (p q : Position) : Decidable (p.Same q) :=
  inferInstanceAs (Decidable (_ ∧ _ ∧ _))

end Position

end PizzaLang
