/-!
# Decimal numbers

Whole numbers written with ASCII digits, at least one of them. Leading zeros are
allowed and there is no limit on the size: whoever reads a number checks its range.
A natural number may carry a plus sign, an integer either sign.
-/

namespace PizzaLang.Text

/-- The number that a list of digits denotes, the most significant first. -/
def digitsValue (ds : List Char) : Nat :=
  ds.foldl (fun n d => 10 * n + (d.toNat - '0'.toNat)) 0

/-- Reads a non-empty list of ASCII digits. -/
def digits? (cs : List Char) : Option Nat :=
  if cs ≠ [] ∧ cs.all Char.isDigit then some (digitsValue cs) else none

/-- **Reads a natural number**: digits, perhaps after a plus sign. -/
def natural? (s : String) : Option Nat :=
  match s.toList with
  | '+' :: cs => digits? cs
  | cs => digits? cs

/-- **Reads an integer**: digits, perhaps after a sign. -/
def integer? (s : String) : Option Int :=
  match s.toList with
  | '-' :: cs => (digits? cs).map fun n => -(n : Int)
  | '+' :: cs => (digits? cs).map Int.ofNat
  | cs => (digits? cs).map Int.ofNat

end PizzaLang.Text
