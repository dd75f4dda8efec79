import PizzaLang.Position
import PizzaLang.Tree.Basic

/-!
# Trees of programs

The tree of a program has a kind, a value and a position at every node. The value of a
node is the name, the number or the quoted text that was read, and for the nodes that
only hold others together it is the name of their kind.

`SyntaxTree.render` writes a tree with one line for each node, indented by its depth.
-/

namespace PizzaLang

/-- **The kinds of nodes.** -/
inductive NodeKind
  | program | inclusion | definition | ingredient | specialty
  | make | size | pizza | add | ofClause | saveAs
  | path | number | literal | resize
  | plus | minus | times | divide
deriving DecidableEq, Inhabited

namespace NodeKind

/-- The name of a kind. -/
def label : NodeKind → String
  | program => "PROGRAM"
  | inclusion => "INCLUDE"
  | definition => "DEFINE"
  | ingredient => "INGREDIENT_VAR"
  | specialty => "SPECIALTY_VAR"
  | make => "MAKE"
  | size => "SIZE"
  | pizza => "PIZZA"
  | add => "ADD"
  | ofClause => "OF"
  | saveAs => "SAVE_AS"
  | path => "PATH"
  | number => "NUMBER"
  | literal => "LITERAL"
  | resize => "RESIZE"
  | plus => "PLUS"
  | minus => "MINUS"
  | times => "MULTIPLY"
  | divide => "DIVIDE"

/-- All kinds. -/
def all : List NodeKind :=
  [program, inclusion, definition, ingredient, specialty, make, size, pizza, add, ofClause,
    saveAs, path, number, literal, resize, plus, minus, times, divide]

/-- The kind with this name. -/
def ofLabel? (label : String) : Option NodeKind := all.find? (·.label == label)

/-- Is it one of the four operations of arithmetic? -/
def isOperator : NodeKind → Bool
  | plus | minus | times | divide => true
  | _ => false

end NodeKind

/-- What a node of a program's tree carries. -/
structure NodeLabel where
  kind : NodeKind
  value : String
  position : Position
deriving DecidableEq, Inhabited

/-- **The tree of a program**, or a part of it. -/
abbrev SyntaxTree := Tree NodeLabel

namespace SyntaxTree

/-- The kind of the topmost node. -/
def kind (t : SyntaxTree) : NodeKind := t.label.kind

/-- The value of the topmost node. -/
def value (t : SyntaxTree) : String := t.label.value

/-- The position of the topmost node. -/
def position (t : SyntaxTree) : Position := t.label.position

/-- The child at a place, counted from zero. -/
def child? (t : SyntaxTree) (index : Nat) : Option SyntaxTree := t.children[index]?

/-! ### Printing -/

/-- The line of a node at a depth. -/
def renderLabel (depth : Nat) (label : NodeLabel) : String :=
  String.ofList (List.replicate depth '\t') ++
    s!"- [c:{label.position.line}; f:{label.position.column}] {label.kind.label}:{label.value}"

mutual

/-- The lines of a tree whose topmost node has the given depth. -/
def renderLines (depth : Nat) : SyntaxTree → List String
  | .node label children => renderLabel depth label :: renderLinesAll (depth + 1) children

/-- The lines of trees that stand at one depth. -/
def renderLinesAll (depth : Nat) : List SyntaxTree → List String
  | [] => []
  | t :: ts => renderLines depth t ++ renderLinesAll depth ts

end

/-- **The text of a tree**: a line for each node, parents before their children. -/
def render (t : SyntaxTree) : String :=
  String.join ((renderLines 0 t).map (· ++ "\n"))

end SyntaxTree

end PizzaLang
