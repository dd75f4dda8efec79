import PizzaLang.Compile.Session
import PizzaLang.Grammar.Program
import PizzaLang.Meaning.Statement
import PizzaLang.Recipe.Menu
import PizzaLang.Resource.Images
import PizzaLang.Resource.Sources

/-!
# Compiling units

A unit is divided into tokens, read, and then worked on statement by statement. A
definition adds a symbol, an order adds an instruction, and an inclusion compiles another
unit and adds all of its symbols and instructions. An included unit sees nothing of the
unit that includes it.

Compilation of an included unit would go round in a circle if the unit included, directly
or not, one that is being compiled; the chain of open units is there to refuse that. A
compiler limits the length of this chain. The units that can be located are finite in
number and no unit is on the chain twice, so a limit above their number is never reached.

* `Compiler.compileUnit`: the menu of a unit, given its text;
* `Compiler.analyze`: the menu of a tree, taken for that of a unit;
* `Compiler.read`, `Compiler.compileFile`: a unit that is located first.
-/

namespace PizzaLang

/-- The tokens of a unit, given its text. -/
def tokensOf (unit : Path) (text : String) : Except CompileError (List Token) := do
  let source ← (SourceUnit.ofText unit text).mapError .resource
  (tokenize source.id source.lines).mapError .lexical

/-- The forest of a unit, given its text. -/
def forestOf (unit : Path) (text : String) : Except CompileError Forest := do
  let tokens ← tokensOf unit text
  (parse unit tokens).mapError .syntactic

/-- **A compiler**: where units and images come from, and how many units may be open. -/
structure Compiler where
  sources : Sources
  images : Images
  limit : Nat

namespace Compiler

open CompileM

/-! ### Resources -/

/-- The unit that a reference means. -/
def locate (c : Compiler) (reference : Path) (origin : Option Path) :
    CompileM (Except LookupError Path) := do
  record (.located reference origin)
  return c.sources.locate reference origin

/-- The text of a unit. -/
def load (c : Compiler) (unit : Path) : CompileM (Except LookupError String) := do
  record (.loaded unit (← chain))
  return c.sources.load unit

/-- The size of an image. -/
def measure (c : Compiler) (reference : String) (origin : Path) :
    CompileM (Except LookupError ImageSize) := do
  record (.measured reference origin)
  match c.images.measure reference origin with
  | .ok ⟨size, some file⟩ => do
    record (.sized file size)
    return .ok size
  | .ok ⟨size, none⟩ => return .ok size
  | .error e => return .error e

/-! ### Statements -/

/-- What a statement that refers to nothing loses. -/
def unresolved (reference : String) (referrer : Referrer) (position : Position) :
    LookupError → ResourceError
  | .notFound => .invalid reference referrer position
  | .unreadable reason => .unreachable reference referrer reason position

/-- The symbol that a definition declares. -/
def symbolOf (c : Compiler) (menu : Menu) (definition : SyntaxTree) : CompileM Symbol :=
  match definition.kind with
  | .ingredient => do
    let name ← lift .semantic (definition.child 0)
    let path ← lift .semantic (name.child 0)
    let measured ← c.measure path.value menu.unit
    let intrinsic ← lift .resource
      (measured.mapError (unresolved path.value (.ingredient name.value) path.position))
    return .ingredient (← lift .semantic (ingredientOf definition name path intrinsic))
  | .specialty => return .specialty (← lift .semantic (menu.symbols.specialtyOf definition))
  | _ => throw (.semantic (definition.misfit .notDefinition))

/-- **A definition** adds its symbol. -/
def define (c : Compiler) (menu : Menu) (statement : SyntaxTree) : CompileM Menu := do
  let definition ← lift .semantic (statement.child 0)
  let symbol ← c.symbolOf menu definition
  record (.declared symbol)
  let symbols ← lift (.semantic ∘ .duplicate) (menu.symbols.insert symbol)
  return { menu with symbols }

/-- **An order** adds its instruction. -/
def order (menu : Menu) (statement : SyntaxTree) : CompileM Menu := do
  let pizza ← lift .semantic (menu.symbols.pizzaOf statement)
  let instruction : Instruction := ⟨statement.position, pizza⟩
  record (.ordered instruction)
  return { menu with instructions := menu.instructions ++ [instruction] }

/-- The unit that an inclusion means, and its text. A unit that names itself is refused
before anyone is asked, and so is a unit on the chain before its text is asked for. -/
def resolve (c : Compiler) (unit : Path) (reference : String) (position : Position) :
    CompileM (Path × String) :=
  if (unit.sibling ⟨reference⟩).Same unit then
    throw (.resource (.recursiveInclude reference unit position))
  else do
    let located ← c.locate ⟨reference⟩ (some unit)
    let id ← lift .resource (located.mapError (unresolved reference .inclusion position))
    let busy ← chain
    if id.Same unit ∨ ∃ other ∈ busy, id.Same other then
      throw (.resource (.recursiveInclude reference id position))
    else
      let loaded ← c.load id
      let text ← lift .resource
        (loaded.mapError fun e => .unreachable reference .inclusion e.message position)
      return (id, text)

/-- Adds what an included unit has. -/
def absorb (menu included : Menu) : Except Clash Menu :=
  match menu.symbols.merge included.symbols with
  | (symbols, none) =>
    .ok { menu with instructions := menu.instructions ++ included.instructions, symbols }
  | (_, some clash) => .error clash

/-- **An inclusion** adds what the included unit has, which `compile` finds out. -/
def includeUnit (c : Compiler) (compile : Path → String → CompileM Menu) (menu : Menu)
    (statement : SyntaxTree) : CompileM Menu := do
  let path ← lift .semantic (statement.child 0)
  let reference := s!"{path.value}.{sourceExtension}"
  let (id, text) ← c.resolve menu.unit reference statement.position
  record (.including id statement.position)
  let included ← compile id text
  lift (.semantic ∘ .duplicate) (absorb menu included)

/-- **A statement** adds to the menu. -/
def statement (c : Compiler) (compile : Path → String → CompileM Menu) (menu : Menu)
    (t : SyntaxTree) : CompileM Menu :=
  match t.kind with
  | .inclusion => c.includeUnit compile menu t
  | .definition => c.define menu t
  | .make => order menu t
  | _ => throw (.semantic (t.misfit .notStatement))

/-! ### Units -/

/-- The menu of a tree, where `compile` compiles included units. -/
def analyzeWith (c : Compiler) (compile : Path → String → CompileM Menu) (unit : Path) :
    Option SyntaxTree → CompileM Menu
  | none => throw (.semantic (.misfit .program (.start unit) .noRoot))
  | some tree => do
    let menu ← tree.children.foldlM (c.statement compile) (.blank unit)
    record (.analyzed unit menu.instructions.length menu.symbols.size)
    return menu

/-- **The menu of a unit**, with room for so many units on the chain. -/
def compileNested (c : Compiler) : Nat → Path → String → CompileM Menu
  | 0, unit, _ => throw (.nesting unit)
  | room + 1, unit, text => do
    let tokens ← lift id (tokensOf unit text)
    record (.lexed unit tokens.length)
    let forest ← lift .syntactic (parse unit tokens)
    record (.parsed unit forest.size)
    within unit do
      record (.entered (← chain))
      c.analyzeWith (c.compileNested room) unit forest.tree?

/-- **The menu of a unit**, given its text. -/
def compileUnit (c : Compiler) (unit : Path) (text : String) : CompileM Menu :=
  c.compileNested c.limit unit text

/-- **The menu of a tree**, taken for that of a unit. -/
def analyze (c : Compiler) (unit : Path) (tree : Option SyntaxTree) : CompileM Menu :=
  c.analyzeWith (c.compileNested c.limit) unit tree

/-- **The unit at a path**, and its text. -/
def read (c : Compiler) (path : Path) : CompileM (Path × String) := do
  lift .resource (checkExtension path)
  let located ← c.locate path none
  let id ← lift .resource (located.mapError fun _ => .sourceNotFound path)
  let loaded ← c.load id
  let text ← lift .resource (loaded.mapError fun
    | .notFound => .sourceNotFound path
    | .unreadable reason => .sourceUnreadable path reason)
  return (id, text)

/-- **The menu of the unit at a path.** -/
def compileFile (c : Compiler) (path : Path) : CompileM Menu := do
  let (id, text) ← c.read path
  c.compileUnit id text

/-! ### Compilers with everything in memory -/

/-- The compiler that takes units from a library. -/
def ofLibrary (library : Library) (images : Images) : Compiler :=
  ⟨library.sources, images, library.units.length + 1⟩

/-- The compiler that takes units from a catalogue. -/
def ofCatalogue (catalogue : Catalogue) (images : Images) : Compiler :=
  ⟨catalogue.sources, images, catalogue.locations.length + 1⟩

end Compiler

end PizzaLang
