import PizzaLang.Recipe.Pizza
import PizzaLang.Recipe.Symbols

/-!
# Events of a compilation

A compilation keeps a record of what it does: everything that it asks of its surroundings,
every unit that it enters, and every stage that it completes. Some events are written to
the log, on one of two levels.
-/

namespace PizzaLang

/-- **An event of a compilation.** -/
inductive Event
  /-- A reference is looked up. -/
  | located (reference : Path) (origin : Option Path)
  /-- The text of a unit is asked for, while the units of the chain are being compiled. -/
  | loaded (unit : Path) (chain : List Path)
  /-- The size of an image is asked for. -/
  | measured (reference : String) (origin : Path)
  /-- The statements of the first unit of the chain are about to be worked on. -/
  | entered (chain : List Path)
  /-- A unit has been divided into tokens. -/
  | lexed (unit : Path) (tokens : Nat)
  /-- A unit has been read. -/
  | parsed (unit : Path) (nodes : Nat)
  /-- A unit is about to be included. -/
  | including (unit : Path) (position : Position)
  /-- The size of an image has been read from a file. -/
  | sized (file : Path) (size : ImageSize)
  /-- A definition has been understood. -/
  | declared (symbol : Symbol)
  /-- A pizza to make has been understood. -/
  | ordered (instruction : Instruction)
  /-- A unit has been compiled. -/
  | analyzed (unit : Path) (instructions symbols : Nat)
deriving DecidableEq

/-- The levels of the log. -/
inductive LogLevel
  | debug | trace
deriving DecidableEq, Inhabited

/-- The name of a level. -/
def LogLevel.label : LogLevel → String
  | debug => "DEBUG"
  | trace => "TRACE"

/-- The line of the log that an event makes, if it makes one. -/
def Event.logLine : Event → Option (LogLevel × String)
  | located _ _ | loaded _ _ | measured _ _ | entered _ => none
  | lexed unit tokens => some (.debug, s!"lexed {unit.text}: {tokens} tokens")
  | parsed unit nodes => some (.debug, s!"parsed {unit.text}: {nodes} nodes")
  | including unit position =>
    some (.trace, s!"including {unit.text} from {position.render}")
  | sized file size => some (.trace, s!"image '{file.text}' is {size.render}")
  | declared symbol =>
    some (.trace,
      s!"{symbol.kind.label} '{symbol.name}' declared at {symbol.declaredAt.render}")
  | ordered instruction =>
    some (.trace,
      s!"make {instruction.pizza.render} at {instruction.declaredAt.render}")
  | analyzed unit instructions symbols =>
    some (.debug,
      s!"analyzed {unit.text}: {instructions} instructions, {symbols} symbols")

end PizzaLang
