import PizzaLang.Meaning.Error
import PizzaLang.Text.Decimal

/-!
# Quantities

The value of a constant expression. Every number and every result along the way has to lie
in the range of 64-bit integers; division drops the fraction. The left operand comes first,
then the right one, then the operation, and the first fault is the one that is reported.
-/

namespace PizzaLang

/-- Two to the power of 63: quantities are below it, and not below its negative. -/
def quantityBound : Int := 9223372036854775808

/-- Does the number fit in a 64-bit integer? -/
def isQuantity (n : Int) : Bool := -quantityBound ≤ n && n < quantityBound

namespace SyntaxTree

/-- A result, if it is in range. -/
def inRange (position : Position) (n : Int) : Except SemanticError Int :=
  if isQuantity n then .ok n else .error (.overflow position)

/-- The value of a number as it is written. -/
def readQuantity (label : NodeLabel) : Except SemanticError Int :=
  match Text.integer? label.value with
  | some n => inRange label.position n
  | none => .error (.overflow label.position)

/-- The result of an operation. -/
def operate (label : NodeLabel) (x y : Int) : Except SemanticError Int :=
  match label.kind with
  | .plus => inRange label.position (x + y)
  | .minus => inRange label.position (x - y)
  | .times => inRange label.position (x * y)
  | _ => if y = 0 then .error (.divisionByZero label.position)
    else inRange label.position (x.tdiv y)

/-- **The value of an expression.** -/
def evaluate : SyntaxTree → Except SemanticError Int
  | .node label children =>
    if label.kind = .number then readQuantity label
    else if label.kind.isOperator then
      match children with
      | left :: right :: _ => do
        let x ← evaluate left
        let y ← evaluate right
        operate label x y
      | [left] => do
        let _ ← evaluate left
        .error (.misfit label.kind label.position (.missingChild 1))
      | [] => .error (.misfit label.kind label.position (.missingChild 0))
    else .error (.misfit label.kind label.position .notExpression)

end SyntaxTree

end PizzaLang
