import PizzaLang.Recipe.Ingredient

/-!
# Symbol tables

The names that a program declares, each bound once. A second declaration of a name is
refused and changes nothing; a merge goes entry by entry and stops at the first name that
is bound in both tables, keeping what it has merged by then.
-/

namespace PizzaLang

/-- What a name can be declared as. -/
inductive SymbolKind
  | ingredient | specialty
deriving DecidableEq, Inhabited

/-- The name of a kind of symbol. -/
def SymbolKind.label : SymbolKind → String
  | ingredient => "Ingredient"
  | specialty => "Specialty"

/-- **A declaration.** -/
inductive Symbol
  | ingredient (declared : Ingredient)
  | specialty (declared : Specialty)
deriving DecidableEq, Inhabited

namespace Symbol

/-- The name declared. -/
def name : Symbol → String
  | ingredient i => i.name
  | specialty s => s.name

/-- Where it is declared. -/
def declaredAt : Symbol → Position
  | ingredient i => i.declaredAt
  | specialty s => s.declaredAt

/-- What it is declared as. -/
def kind : Symbol → SymbolKind
  | ingredient _ => .ingredient
  | specialty _ => .specialty

/-- The ingredient declared, if it is one. -/
def ingredient? : Symbol → Option Ingredient
  | ingredient i => some i
  | specialty _ => none

/-- The specialty declared, if it is one. -/
def specialty? : Symbol → Option Specialty
  | ingredient _ => none
  | specialty s => some s

/-- Equality of declarations. -/
def same : Symbol → Symbol → Bool
  | ingredient i, ingredient j => i.same j
  | specialty s, specialty t => s.same t
  | _, _ => false

end Symbol

/-- **A name declared twice.** -/
structure Clash where
  name : String
  /-- The declaration that is refused. -/
  again : Position
  /-- The declaration that stands. -/
  first : Position
deriving DecidableEq, Inhabited

/-- **A symbol table**: declarations under their names. -/
structure SymbolTable where
  symbols : Listing Symbol
deriving DecidableEq, Inhabited

namespace SymbolTable

/-- The table without symbols. -/
def empty : SymbolTable := ⟨.empty⟩

/-- The declaration of a name. -/
def get? (t : SymbolTable) (name : String) : Option Symbol := t.symbols.find? name

/-- Is the name declared? -/
def contains (t : SymbolTable) (name : String) : Bool := (t.get? name).isSome

/-- The declarations, in order. -/
def toList (t : SymbolTable) : List Symbol := t.symbols.values

/-- The names, in order. -/
def names (t : SymbolTable) : List String := t.symbols.names

/-- How many names are declared. -/
def size (t : SymbolTable) : Nat := t.symbols.size

/-- Is no name declared? -/
def isEmpty (t : SymbolTable) : Bool := t.symbols.isEmpty

/-- The ingredient of a name. -/
def ingredient? (t : SymbolTable) (name : String) : Option Ingredient :=
  (t.get? name).bind Symbol.ingredient?

/-- The specialty of a name. -/
def specialty? (t : SymbolTable) (name : String) : Option Specialty :=
  (t.get? name).bind Symbol.specialty?

/-- **Declares a symbol** under its name, if the name is free. -/
def insert (t : SymbolTable) (s : Symbol) : Except Clash SymbolTable :=
  match t.get? s.name with
  | some bound => .error ⟨s.name, s.declaredAt, bound.declaredAt⟩
  | none => .ok ⟨t.symbols.push s.name s⟩

/-- Declares symbols one after the other, up to the first clash. -/
def insertAll (t : SymbolTable) : List Symbol → SymbolTable × Option Clash
  | [] => (t, none)
  | s :: rest =>
    match t.insert s with
    | .ok t => t.insertAll rest
    | .error clash => (t, some clash)

/-- **Merges a table into another**: the table that results, and the first clash if there
is one. -/
def merge (t other : SymbolTable) : SymbolTable × Option Clash := t.insertAll other.toList

/-- Equality of tables, in which order does not matter. -/
def same (t other : SymbolTable) : Bool := t.symbols.same Symbol.same other.symbols

end SymbolTable

end PizzaLang
