import PizzaLang.Recipe.Symbols
import PizzaLang.Tree.Syntactic

/-!
# What makes a program meaningless

A `SemanticError` is the fault of a program, except for the last kind, which is the fault
of a tree that no program has: one that lacks a part, or has one where it cannot stand.
-/

namespace PizzaLang

/-- In what way a tree is not that of a program. -/
inductive Misfit
  | noRoot
  | notStatement
  | notDefinition
  | notClause
  | notExpression
  | missingChild (index : Nat)
  | unknownSize (value : String)
  | changedKind (name : String)
deriving DecidableEq, Inhabited

/-- The text for a misfit. -/
def Misfit.render : Misfit → String
  | noRoot => "the tree has no root"
  | notStatement => "not a statement"
  | notDefinition => "not a definition"
  | notClause => "not a pizza clause"
  | notExpression => "not an expression"
  | missingChild index => s!"missing child {index}"
  | unknownSize value => s!"unknown pizza size '{value}'"
  | changedKind name => s!"'{name}' changed kind during lookup"

/-- **What makes a program meaningless.** -/
inductive SemanticError
  /-- A name is declared twice. -/
  | duplicate (clash : Clash)
  /-- A name is used that has not been declared. -/
  | undefined (kind : NodeKind) (name : String) (position : Position)
  /-- A name is used as something it has not been declared as. -/
  | kindMismatch (name : String) (expected found : SymbolKind) (position : Position)
  /-- A quantity is not positive. -/
  | invalidQuantity (name : String) (quantity : Int) (position : Position)
  /-- An image has no area. -/
  | emptyImage (name : String) (position : Position)
  /-- An image is not square. -/
  | unevenImage (name : String) (size : ImageSize) (position : Position)
  | divisionByZero (position : Position)
  /-- A number is outside the range of quantities or of sizes. -/
  | overflow (position : Position)
  /-- The tree is not that of a program. -/
  | misfit (kind : NodeKind) (position : Position) (detail : Misfit)
deriving DecidableEq

namespace SemanticError

/-- Where the error arose. -/
def position : SemanticError → Position
  | duplicate clash => clash.again
  | undefined _ _ position => position
  | kindMismatch _ _ _ position => position
  | invalidQuantity _ _ position => position
  | emptyImage _ position => position
  | unevenImage _ _ position => position
  | divisionByZero position => position
  | overflow position => position
  | misfit _ position _ => position

/-- The text of the error. -/
def message : SemanticError → String
  | duplicate clash =>
    s!"Semantic Error: Declaration duplicated of {clash.name} located at " ++
      s!"{clash.again.render}, the first declaration is at {clash.first.render}"
  | undefined kind name position =>
    s!"Semantic Error: {kind.label} '{name}' used at {position.render} was never declared"
  | kindMismatch name expected found position =>
    s!"Semantic Error: '{name}' used at {position.render} is a {found.label}, expected a " ++
      expected.label
  | invalidQuantity name quantity position =>
    s!"Semantic Error: quantity {quantity} of '{name}' at {position.render} must be greater " ++
      "than zero"
  | emptyImage name position =>
    s!"Semantic Error: the image of ingredient '{name}' declared at {position.render} has no " ++
      "area"
  | unevenImage name size position =>
    s!"Semantic Error: the image of ingredient '{name}' declared at {position.render} is " ++
      s!"{size.render}, it must be square"
  | divisionByZero position => s!"Semantic Error: division by zero at {position.render}"
  | overflow position =>
    s!"Semantic Error: the value at {position.render} does not fit in a 64-bit integer"
  | misfit kind position detail =>
    s!"Internal Error: unexpected {kind.label} node at {position.render}: {detail.render}"

end SemanticError

/-- The error that a tree is for what `detail` says. -/
def SyntaxTree.misfit (t : SyntaxTree) (detail : Misfit) : SemanticError :=
  .misfit t.kind t.position detail

/-- The child at a place; a tree of a program has those that are asked for. -/
def SyntaxTree.child (t : SyntaxTree) (index : Nat) : Except SemanticError SyntaxTree :=
  match t.child? index with
  | some child => .ok child
  | none => .error (t.misfit (.missingChild index))

end PizzaLang
