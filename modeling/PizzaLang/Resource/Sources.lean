import PizzaLang.Resource.Basic

/-!
# Where units come from

A `Sources` finds the unit that a reference means and gives its text. What a reference
means may depend on the unit that makes it.

* `Library`: units held in memory under their paths. A relative reference is looked for
  in the directory of the unit that makes it, and then as it stands.
* `Catalogue`: fixed answers to references and to paths, by their exact text.
-/

namespace PizzaLang

/-- **A supply of units.** -/
structure Sources where
  /-- The unit that a reference means, seen from the unit that makes it. -/
  locate : (reference : Path) → (origin : Option Path) → Except LookupError Path
  /-- The text of a unit. -/
  load : Path → Except LookupError String

/-! ### Units in memory -/

/-- **Units in memory.** -/
structure Library where
  /-- The units with their texts, the latest first. -/
  units : List (Path × String)
deriving Inhabited

namespace Library

/-- The library without units. -/
def empty : Library := ⟨[]⟩

/-- Puts in a unit, in place of one with the same path. -/
def insert (l : Library) (path : Path) (text : String) : Library := ⟨(path, text) :: l.units⟩

/-- The library of a list of units; of those with the same path the last one counts. -/
def ofList (units : List (Path × String)) : Library :=
  units.foldl (fun l (path, text) => l.insert path text) empty

/-- The text of the unit with this path. -/
def text? (l : Library) (path : Path) : Option String :=
  (l.units.find? fun (p, _) => decide (p.Same path)).map (·.2)

/-- The paths that a reference may mean, in the order in which they are tried. -/
def candidates (reference : Path) (origin : Option Path) : List Path :=
  match (if reference.isAbsolute then none else origin).bind Path.parent with
  | some dir => [dir.join reference, reference]
  | none => [reference]

/-- The first candidate that is in the library. -/
def locate (l : Library) (reference : Path) (origin : Option Path) : Except LookupError Path :=
  match (candidates reference origin).find? fun path => (l.text? path).isSome with
  | some path => .ok path
  | none => .error .notFound

/-- The text of a unit in the library. -/
def load (l : Library) (path : Path) : Except LookupError String :=
  match l.text? path with
  | some text => .ok text
  | none => .error .notFound

/-- The library as a supply of units. -/
def sources (l : Library) : Sources := ⟨l.locate, l.load⟩

end Library

/-! ### Fixed answers -/

/-- **Fixed answers**, the first of which counts for each text. -/
structure Catalogue where
  /-- The units that references mean. -/
  locations : List (String × Except LookupError Path)
  /-- The texts of units. -/
  texts : List (String × Except LookupError String)

namespace Catalogue

/-- The answer to a text. -/
def answer {α : Type} (entries : List (String × Except LookupError α)) (asked : String) :
    Except LookupError α :=
  (entries.lookup asked).getD (.error .notFound)

/-- The catalogue as a supply of units. -/
def sources (c : Catalogue) : Sources :=
  ⟨fun reference _ => answer c.locations reference.text, fun path => answer c.texts path.text⟩

end Catalogue

end PizzaLang
