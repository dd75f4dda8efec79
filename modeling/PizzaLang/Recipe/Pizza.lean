import PizzaLang.Recipe.Ingredient

/-!
# Pizzas

A pizza has a size, the portions added to it one by one, the specialties it is made of,
and perhaps a name to save its picture under. Pizzas and instructions have an equality
`same`, as what they are made of has.
-/

namespace PizzaLang

/-- **The sizes** of pizzas. -/
inductive PizzaSize
  | big | medium | personal
deriving DecidableEq, Inhabited

namespace PizzaSize

/-- The word for a size. -/
def render : PizzaSize → String
  | big => "big"
  | medium => "medium"
  | personal => "personal"

/-- The size that a word stands for. -/
def ofWord? (word : String) : Option PizzaSize :=
  [big, medium, personal].find? (·.render == word)

end PizzaSize

/-- **A pizza.** -/
structure Pizza where
  size : PizzaSize
  /-- What is added by itself. -/
  portions : Listing Portion
  /-- What it is made of. -/
  specialties : Listing Specialty
  /-- The name to save it under. -/
  outputName : Option String
deriving DecidableEq, Inhabited

namespace Pizza

/-- A pizza with nothing on it. -/
def plain (size : PizzaSize) : Pizza := ⟨size, .empty, .empty, none⟩

/-- Equality of pizzas. -/
def same (a b : Pizza) : Bool :=
  a.size = b.size ∧ a.portions.same Portion.same b.portions ∧
    a.specialties.same Specialty.same b.specialties ∧ a.outputName = b.outputName

/-- The name to save it under, or one made from its place among all pizzas. -/
def outputNameOr (p : Pizza) (index : Nat) : String := p.outputName.getD s!"pizza{index}"

/-- A description of the pizza. -/
def render (p : Pizza) : String :=
  s!"{p.size.render} pizza" ++
    (if p.specialties.isEmpty then "" else " of " ++ ", ".intercalate p.specialties.names) ++
    (if p.portions.isEmpty then "" else " with " ++ Portion.renderAll p.portions) ++
    (match p.outputName with
      | some name => s!" saved as '{name}'"
      | none => "")

end Pizza

/-- **An instruction**: a pizza to make. -/
structure Instruction where
  declaredAt : Position
  pizza : Pizza
deriving DecidableEq, Inhabited

/-- Equality of instructions. -/
def Instruction.same (a b : Instruction) : Bool :=
  a.declaredAt.Same b.declaredAt ∧ a.pizza.same b.pizza

/-- A description of the instruction. -/
def Instruction.render (i : Instruction) : String :=
  s!"Instruction declared at {i.declaredAt.render} make {i.pizza.render}"

end PizzaLang
