/-!
# Listings

Values listed under names, in the order in which the names were first listed. Listing a
name again either replaces its value, which keeps its place, or changes nothing.

* `Listing.set`: the last value of a name counts;
* `Listing.keep`: the first value of a name counts.
-/

namespace PizzaLang

/-- **Values under names**, in order. -/
structure Listing (α : Type) where
  entries : List (String × α)
deriving DecidableEq, Inhabited

namespace Listing

variable {α : Type}

/-- Nothing listed. -/
def empty : Listing α := ⟨[]⟩

/-- The names, in order. -/
def names (l : Listing α) : List String := l.entries.map (·.1)

/-- The values, in order. -/
def values (l : Listing α) : List α := l.entries.map (·.2)

/-- How many names are listed. -/
def size (l : Listing α) : Nat := l.entries.length

/-- Is nothing listed? -/
def isEmpty (l : Listing α) : Bool := l.entries.isEmpty

/-- The value under a name. -/
def find? (l : Listing α) (name : String) : Option α := l.entries.lookup name

/-- Is the name listed? -/
def contains (l : Listing α) (name : String) : Bool := l.names.contains name

/-- Lists a name at the end. -/
def push (l : Listing α) (name : String) (value : α) : Listing α :=
  ⟨l.entries ++ [(name, value)]⟩

/-- **Lists a value**; a name that is listed already gets it in its old place. -/
def set (l : Listing α) (name : String) (value : α) : Listing α :=
  if l.contains name then
    ⟨l.entries.map fun e => if e.1 = name then (name, value) else e⟩
  else l.push name value

/-- **Lists a value** unless its name is listed already. -/
def keep (l : Listing α) (name : String) (value : α) : Listing α :=
  if l.contains name then l else l.push name value

/-- Do two listings give the same names the same values, in whatever order? -/
def same (eq : α → α → Bool) (l m : Listing α) : Bool :=
  l.size == m.size &&
    l.entries.all fun (name, value) => (m.find? name).any (eq value)

end Listing

end PizzaLang
