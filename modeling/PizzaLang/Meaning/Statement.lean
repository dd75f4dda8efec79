import PizzaLang.Meaning.Quantity
import PizzaLang.Recipe.Pizza

/-!
# The meaning of statements

What definitions and orders mean, given the names that are declared before them.

* `portionOf`: a use of an ingredient, with a positive quantity;
* `specialtyOf`: a definition of a specialty, in which the last use of an ingredient
  counts, in the place of the first;
* `ingredientOf`: a definition of an ingredient, whose image has been measured;
* `pizzaOf`: a pizza to make, on which the first use of an ingredient counts.
-/

namespace PizzaLang

namespace SymbolTable

/-- The declaration of the name that a node has, if it is of the kind that is expected. -/
def lookup (t : SymbolTable) (use : SyntaxTree) (expected : SymbolKind) :
    Except SemanticError Symbol :=
  match t.get? use.value with
  | none => .error (.undefined use.kind use.value use.position)
  | some found =>
    if found.kind = expected then .ok found
    else .error (.kindMismatch use.value expected found.kind use.position)

/-- What a node names, once it has been looked up as what is expected. -/
def useAs {α : Type} (t : SymbolTable) (use : SyntaxTree) (expected : SymbolKind)
    (pick : Symbol → Option α) : Except SemanticError α := do
  match pick (← t.lookup use expected) with
  | some declared => return declared
  | none => .error (use.misfit (.changedKind use.value))

/-- The ingredient that a node names. -/
def useIngredient (t : SymbolTable) (use : SyntaxTree) : Except SemanticError Ingredient :=
  t.useAs use .ingredient Symbol.ingredient?

/-- The specialty that a node names. -/
def useSpecialty (t : SymbolTable) (use : SyntaxTree) : Except SemanticError Specialty :=
  t.useAs use .specialty Symbol.specialty?

/-! ### Definitions -/

/-- **A use of an ingredient**: its quantity has to be positive. -/
def portionOf (t : SymbolTable) (use : SyntaxTree) : Except SemanticError Portion := do
  let ingredient ← t.useIngredient use
  let quantity ← (← use.child 0).evaluate
  if quantity ≤ 0 then .error (.invalidQuantity use.value quantity use.position)
  else return ⟨ingredient, quantity⟩

/-- Portions with one more, which replaces an earlier one of its ingredient. -/
def setPortion (t : SymbolTable) (portions : Listing Portion) (use : SyntaxTree) :
    Except SemanticError (Listing Portion) := do
  let portion ← t.portionOf use
  return portions.set portion.ingredient.name portion

/-- **A definition of a specialty.** -/
def specialtyOf (t : SymbolTable) (definition : SyntaxTree) : Except SemanticError Specialty := do
  let name ← definition.child 0
  let portions ← name.children.foldlM t.setPortion .empty
  return ⟨name.value, portions, name.position⟩

/-! ### Pizzas -/

/-- Portions with one more, unless they have one of its ingredient. -/
def keepPortion (t : SymbolTable) (portions : Listing Portion) (use : SyntaxTree) :
    Except SemanticError (Listing Portion) := do
  let portion ← t.portionOf use
  return portions.keep portion.ingredient.name portion

/-- Specialties with one more, unless they have it. -/
def keepSpecialty (t : SymbolTable) (specialties : Listing Specialty) (use : SyntaxTree) :
    Except SemanticError (Listing Specialty) := do
  let specialty ← t.useSpecialty use
  return specialties.keep specialty.name specialty

/-- A pizza with one more clause. -/
def addClause (t : SymbolTable) (pizza : Pizza) (clause : SyntaxTree) :
    Except SemanticError Pizza :=
  match clause.kind with
  | .add => do
    let portions ← clause.children.foldlM t.keepPortion pizza.portions
    return { pizza with portions }
  | .ofClause => do
    let specialties ← clause.children.foldlM t.keepSpecialty pizza.specialties
    return { pizza with specialties }
  | .saveAs => do
    let name ← clause.child 0
    return { pizza with outputName := some name.value }
  | _ => .error (clause.misfit .notClause)

/-- **A pizza to make.** -/
def pizzaOf (t : SymbolTable) (make : SyntaxTree) : Except SemanticError Pizza := do
  let size ← make.child 0
  match PizzaSize.ofWord? size.value with
  | none => .error (size.misfit (.unknownSize size.value))
  | some word => do
    let body ← size.child 0
    body.children.foldlM t.addClause (.plain word)

end SymbolTable

/-! ### Ingredients -/

/-- The size that an image is drawn at: the side after `resize`, or the image's own
size. -/
def drawnSize (definition : SyntaxTree) (intrinsic : ImageSize) :
    Except SemanticError ImageSize :=
  match definition.child? 1 with
  | none => .ok intrinsic
  | some resize => do
    let number ← resize.child 0
    match (Text.natural? number.value).filter (· < ImageSize.sideBound) with
    | some side => return .square side
    | none => .error (.overflow number.position)

/-- **A definition of an ingredient**: the image is drawn as a square with an area. -/
def ingredientOf (definition name path : SyntaxTree) (intrinsic : ImageSize) :
    Except SemanticError Ingredient := do
  let size ← drawnSize definition intrinsic
  if size.isEmpty then .error (.emptyImage name.value name.position)
  else if !size.isSquare then .error (.unevenImage name.value size name.position)
  else return ⟨name.value, path.value, intrinsic, size, name.position⟩

end PizzaLang
