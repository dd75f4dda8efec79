import PizzaLang.Proofs.Grammar
import PizzaLang.Proofs.Outcome
import PizzaLang.Proofs.Walk

/-!
# The shape of a program's tree

What the tree of a program looks like, with no regard to the values and the positions in it:
which kinds of nodes stand below which, and how many of them. An expression is a number or an
operation on two expressions, a use has one expression for its quantity, and so on up to the
statements (`PizzaLang.SyntaxTree.IsStatement`).

The shape is that of every tree that is read
(`PizzaLang.IsProgram.wellShaped`), but trees that no text has can have it as well:
a size may be any word, a name may be declared twice, and a number may be any text.
-/

namespace PizzaLang

namespace SyntaxTree

/-- **An expression**: a number, or an operation on two expressions. -/
inductive IsExpression : SyntaxTree → Prop
  | number {value : String} {position : Position} :
      IsExpression (.node ⟨.number, value, position⟩ [])
  | operation {kind : NodeKind} {value : String} {position : Position} {left right : SyntaxTree} :
      kind.isOperator = true → IsExpression left → IsExpression right →
      IsExpression (.node ⟨kind, value, position⟩ [left, right])

/-- **A use of an ingredient**, with the expression for its quantity. -/
inductive IsUse : SyntaxTree → Prop
  | intro {name : String} {position : Position} {quantity : SyntaxTree} :
      quantity.IsExpression → IsUse (.node ⟨.ingredient, name, position⟩ [quantity])

/-- **A clause of a pizza**: ingredients to add, specialties to start from, or a name to save it
under. -/
inductive IsClause : SyntaxTree → Prop
  | add {value : String} {position : Position} {uses : List SyntaxTree} :
      (∀ u ∈ uses, u.IsUse) → IsClause (.node ⟨.add, value, position⟩ uses)
  | names {value : String} {position : Position} {names : List SyntaxTree} :
      (∀ n ∈ names, n.kind = .specialty) → IsClause (.node ⟨.ofClause, value, position⟩ names)
  | save {value : String} {position : Position} {name : SyntaxTree} :
      IsClause (.node ⟨.saveAs, value, position⟩ [name])

/-- **A definition**: an ingredient with the text for its image, and perhaps the number to resize
it to, or a specialty with its uses of ingredients. -/
inductive IsDefinition : SyntaxTree → Prop
  | ingredient {value : String} {position : Position} {name : NodeLabel} {path : SyntaxTree} :
      IsDefinition (.node ⟨.ingredient, value, position⟩ [.node name [path]])
  | resized {value : String} {position : Position} {name resize : NodeLabel}
      {path number : SyntaxTree} :
      IsDefinition
        (.node ⟨.ingredient, value, position⟩ [.node name [path], .node resize [number]])
  | specialty {value : String} {position : Position} {name : NodeLabel}
      {uses : List SyntaxTree} :
      (∀ u ∈ uses, u.IsUse) →
      IsDefinition (.node ⟨.specialty, value, position⟩ [.node name uses])

/-- **A statement**: an inclusion with a text, a definition, or an order with the size of the
pizza and its clauses. -/
inductive IsStatement : SyntaxTree → Prop
  | inclusion {value : String} {position : Position} {path : SyntaxTree} :
      IsStatement (.node ⟨.inclusion, value, position⟩ [path])
  | definition {value : String} {position : Position} {defined : SyntaxTree} :
      defined.IsDefinition → IsStatement (.node ⟨.definition, value, position⟩ [defined])
  | make {value : String} {position : Position} {size pizza : NodeLabel}
      {clauses : List SyntaxTree} :
      (∀ c ∈ clauses, c.IsClause) →
      IsStatement (.node ⟨.make, value, position⟩ [.node size [.node pizza clauses]])

/-- **A tree has the shape of a program**: what stands below its topmost node is statements. -/
def WellShaped (tree : SyntaxTree) : Prop := ∀ t ∈ tree.children, IsStatement t

end SyntaxTree

/-! ### Trees of derivations -/

namespace Derivation

open SyntaxTree

/-- A chain of expressions is an expression. -/
theorem Chain.isExpression {operators : List Lexeme} {α : Type} {operand : α → SyntaxTree}
    (h : ∀ a, (operand a).IsExpression) (c : Chain operators α) :
    (c.tree operand).IsExpression := by
  induction c with
  | last a => exact h a
  | link left operator right ih =>
    refine .operation ?_ (h left) ih
    cases operator.1.lexeme <;> rfl

theorem Expression.isExpression (e : Expression) : (Expression.tree e).IsExpression :=
  Chain.isExpression (Chain.isExpression fun _ => .number) e

theorem Use.isUse (u : Use) : u.tree.IsUse := .intro (Expression.isExpression u.quantity)

theorem Definition.isDefinition (d : Definition) : d.tree.IsDefinition := by
  cases d with
  | ingredient keyword name opening path closing resize semicolon =>
    cases resize with
    | none => exact .ingredient
    | some resize => exact .resized
  | specialty keyword name opening first others closing =>
    refine .specialty fun u hu => ?_
    obtain ⟨p, -, rfl⟩ := List.mem_map.mp hu
    exact p.1.isUse

theorem AddClause.isClause (a : AddClause) : a.tree.IsClause := by
  refine .add ?_
  rw [List.forall_mem_cons, List.forall_mem_map]
  exact ⟨a.first.isUse, fun p _ => p.2.isUse⟩

theorem OfClause.isClause (o : OfClause) : o.tree.IsClause := by
  refine .names ?_
  rw [List.forall_mem_cons, List.forall_mem_map]
  exact ⟨rfl, fun p _ => rfl⟩

theorem Make.isClause (m : Make) :
    ∀ c ∈ m.toppings.trees ++ m.save.toList.map SaveClause.tree, c.IsClause := by
  rw [List.forall_mem_append, List.forall_mem_map]
  refine ⟨?_, fun s _ => .save⟩
  cases m.toppings with
  | add clause => exact List.forall_mem_singleton.mpr clause.isClause
  | names clause added =>
    rw [Toppings.trees, List.forall_mem_cons, List.forall_mem_map]
    exact ⟨clause.isClause, fun a _ => a.isClause⟩

theorem Statement.isStatement (s : Statement) : s.tree.IsStatement := by
  cases s with
  | inclusion keyword path semicolon => exact .inclusion
  | definition keyword defined => exact .definition defined.isDefinition
  | make order => exact .make order.isClause

theorem Program.wellShaped (p : Program) (unit : Path) : (p.tree unit).WellShaped :=
  List.forall_mem_map.mpr fun s _ => s.isStatement

end Derivation

/-- **What is read has the shape of a program.** -/
theorem IsProgram.wellShaped {unit : Path} {text : String} {tree : SyntaxTree}
    (h : IsProgram unit text tree) : tree.WellShaped := by
  obtain ⟨f, hf, htree⟩ := h
  obtain ⟨tokens, -, hparse⟩ := Fallible.bind_eq_ok_iff.mp hf
  obtain ⟨d, -, htree'⟩ := tree?_of_parse (Fallible.mapError_eq_ok_iff.mp hparse)
  obtain rfl := Option.some.inj (htree.symm.trans htree')
  exact d.wellShaped unit

end PizzaLang
