import PizzaLang.Position
import PizzaLang.Recipe.Image
import PizzaLang.Recipe.Listing

/-!
# Ingredients and specialties

What a program declares. An ingredient is a named image; a specialty is a named bundle of
portions, each of them an ingredient and how many of it go on a pizza.

Each type has an equality `same`, in which positions name their units as paths and the
order of listings does not matter.
-/

namespace PizzaLang

/-- **An ingredient**: a square image under a name. -/
structure Ingredient where
  name : String
  /-- Where the image is, as written. -/
  reference : String
  /-- The size the image has. -/
  intrinsic : ImageSize
  /-- The size the image is drawn at. -/
  size : ImageSize
  declaredAt : Position
deriving DecidableEq, Inhabited

/-- Equality of ingredients. -/
def Ingredient.same (a b : Ingredient) : Bool :=
  a.name = b.name ∧ a.reference = b.reference ∧ a.intrinsic = b.intrinsic ∧
    a.size = b.size ∧ a.declaredAt.Same b.declaredAt

/-- **A portion**: how many of an ingredient. -/
structure Portion where
  ingredient : Ingredient
  quantity : Int
deriving DecidableEq, Inhabited

namespace Portion

/-- Equality of portions. -/
def same (a b : Portion) : Bool :=
  a.ingredient.same b.ingredient && a.quantity == b.quantity

/-- Listed portions, with their quantities. -/
def renderAll (portions : Listing Portion) : String :=
  ", ".intercalate (portions.entries.map fun (name, portion) => s!"{name}({portion.quantity})")

end Portion

/-- **A specialty**: portions under a name. -/
structure Specialty where
  name : String
  portions : Listing Portion
  declaredAt : Position
deriving DecidableEq, Inhabited

/-- Equality of specialties. -/
def Specialty.same (a b : Specialty) : Bool :=
  a.name = b.name ∧ a.portions.same Portion.same b.portions ∧ a.declaredAt.Same b.declaredAt

end PizzaLang
