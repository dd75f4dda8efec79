import PizzaLang.Command.Arguments
import PizzaLang.Disk.Resources

/-!
# Running commands

What a command prints, and how it fails. The output before a failure stands; the failure
says what was being done and what came in between.
-/

namespace PizzaLang

/-- **How a command fails.** -/
structure Failure where
  /-- What was being done. -/
  context : String
  /-- What came in between. -/
  cause : String
deriving DecidableEq

/-- The failure as it is printed, with the lines of its cause set in. -/
def Failure.render (f : Failure) : String :=
  let cause := f.cause.toList.flatMap fun c => if c = '\n' then '\n' :: "    ".toList else [c]
  s!"Error: {f.context}\n\nCaused by:\n    " ++ String.ofList cause ++ "\n"

/-- What a command has done so far. -/
structure Console where
  output : String
  events : List Event
deriving Inhabited

/-- A step of a command. -/
abbrev CommandM := EStateM Failure Console

namespace CommandM

variable {α : Type}

/-- Prints a line. -/
def line (s : String) : CommandM Unit := fun c => .ok () { c with output := c.output ++ s ++ "\n" }

/-- Prints a text as it is. -/
def print (s : String) : CommandM Unit := fun c => .ok () { c with output := c.output ++ s }

/-- Goes on with a result; its error is the cause of a failure. -/
def orFail {ε : Type} (context : String) (message : ε → String) : Except ε α → CommandM α
  | .ok a => pure a
  | .error e => throw ⟨context, message e⟩

/-- Takes a step of a compilation. -/
def compiling (context : String) (act : CompileM α) : CommandM α := do
  let (result, session) := act.runFrom (.ofChain [])
  modify fun c => { c with events := c.events ++ session.events.toList }
  orFail context CompileError.message result

end CommandM

namespace Command

open CommandM

/-! ### Tokens and trees -/

/-- Reads the text of a file. -/
def readFile (d : Disk) (file : Path) : CommandM String :=
  orFail s!"failed to read file '{file.text}'" Disk.ReadError.message (d.text file)

/-- The tokens of a unit. -/
def tokens (file unit : Path) (text : String) : CommandM (List Token) :=
  orFail s!"failed to tokenize '{file.text}'" CompileError.message (tokensOf unit text)

/-- The forest of a unit. -/
def forest (file unit : Path) (text : String) : CommandM Forest :=
  orFail s!"failed to parse '{file.text}'" CompileError.message (forestOf unit text)

/-- Shows the tokens of a file. -/
def lexFile (d : Disk) (file : Path) : CommandM Unit := do
  let text ← readFile d file
  let tokens ← tokens file file text
  line "Tokens:"
  line "-------"
  for t in tokens do
    line (s!"{file.text}:{t.position.line}:{t.position.column} {t.lexeme.label} " ++ t.text)
  line s!"\nTotal tokens: {tokens.length}"

/-- Shows the tree of a file. -/
def parseFile (d : Disk) (file : Path) : CommandM Unit := do
  let text ← readFile d file
  let forest ← forest file file text
  line "Program AST:"
  line "============\n"
  print forest.render
  line "\nParsing completed successfully!"

/-! ### Menus -/

/-- Shows the tokens and the tree of a unit. -/
def showListing (file unit : Path) (text : String) : CommandM Unit := do
  let tokens ← tokens file unit text
  line "Tokens:"
  for t in tokens do
    line s!"  {t.render}"
  let forest ← forest file unit text
  line "\nProgram AST:"
  print forest.render
  line ""

/-- The line of an instruction. -/
def instructionLine (index : Nat) (i : Instruction) : String :=
  s!"  [{i.pizza.outputNameOr index}] {i.pizza.render} from {i.declaredAt.render}"

/-- The line of a symbol. -/
def symbolLine : Symbol → String
  | .ingredient i =>
    s!"  ingredient {i.name} '{i.reference}' drawn at {i.size.render} " ++
      s!"(image {i.intrinsic.render})"
  | .specialty s => s!"  specialty {s.name} \x7b {Portion.renderAll s.portions} \x7d"

/-- Compiles a file and shows its menu. -/
def compileFile (d : Disk) (file : Path) (includeDirs assets : List Path) (listing : Bool) :
    CommandM Unit := do
  let compiler := Compiler.ofDisk d includeDirs assets
  let (unit, text) ← compiling s!"failed to open '{file.text}'" (compiler.read file)
  if listing then
    showListing file unit text
  let menu ← compiling s!"failed to compile '{file.text}'" (compiler.compileUnit unit text)
  line "Pizzas:"
  for l in menu.instructions.mapIdx instructionLine do
    line l
  line "\nSymbols:"
  for s in menu.symbols.toList do
    line (symbolLine s)
  line s!"\nCompiled {menu.instructions.length} pizzas from '{file.text}'"

/-- **Runs a command.** -/
def run (d : Disk) : Command → CommandM Unit
  | .lex file => lexFile d file
  | .parse file => parseFile d file
  | .compile file includeDirs assets listing => compileFile d file includeDirs assets listing

/-- The paths that a command has looked at, given its events. -/
def consulted (events : List Event) : Command → List Path
  | .lex file => [file]
  | .parse file => [file]
  | .compile _ includeDirs assets _ => events.flatMap (·.consulted includeDirs assets)

end Command

/-- **What a command comes to**: its output, how it failed if it did, and what it did. -/
structure Report where
  output : String
  failure : Option Failure
  events : List Event

/-- Runs a command from the start. -/
def Command.report (d : Disk) (command : Command) : Report :=
  match command.run d ⟨"", []⟩ with
  | .ok _ c => ⟨c.output, none, c.events⟩
  | .error f c => ⟨c.output, some f, c.events⟩

end PizzaLang
