import PizzaLang.Recipe.Pizza
import PizzaLang.Recipe.Symbols

/-!
# Menus

The meaning of a unit: the pizzas that it and the units it includes ask for, in the order
of the statements, and all names they declare.
-/

namespace PizzaLang

/-- **What a unit compiles to.** -/
structure Menu where
  unit : Path
  instructions : List Instruction
  symbols : SymbolTable
deriving DecidableEq, Inhabited

/-- The menu of a unit before its first statement. -/
def Menu.blank (unit : Path) : Menu := ⟨unit, [], .empty⟩

/-- Equality of menus: the instructions are equal one by one, and the units as paths. -/
def Menu.same (a b : Menu) : Bool :=
  a.unit.Same b.unit ∧ a.instructions.isEqv b.instructions Instruction.same ∧
    a.symbols.same b.symbols

end PizzaLang
