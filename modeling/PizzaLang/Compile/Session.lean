import PizzaLang.Compile.Event
import PizzaLang.Grammar.Cursor
import PizzaLang.Meaning.Error
import PizzaLang.Resource.Basic
import PizzaLang.Token.Lexing

/-!
# Compilations in progress

A computation of type `CompileM` may fail with a `CompileError` and works on a `Session`:
the chain of the units that are being compiled, each included by the next, and the events
so far. Both outlive a failure.
-/

namespace PizzaLang

/-- **What makes a compilation fail.** -/
inductive CompileError
  | lexical (error : LexError)
  | syntactic (error : SyntaxError)
  | semantic (error : SemanticError)
  | resource (error : ResourceError)
  /-- More units are open than the compiler allows. -/
  | nesting (unit : Path)
deriving DecidableEq

/-- The text of the error. -/
def CompileError.message : CompileError → String
  | lexical error => error.message
  | syntactic error => error.message
  | semantic error => error.message
  | resource error => error.message
  | nesting unit => s!"The unit '{unit.text}' is included at too great a depth"

/-- **The state of a compilation.** -/
structure Session where
  /-- The units that are being compiled, the innermost first. -/
  chain : List Path
  /-- What has happened so far, in order. -/
  events : Array Event
deriving Inhabited

/-- The session in which the units of the chain are being compiled. -/
def Session.ofChain (chain : List Path) : Session := ⟨chain, #[]⟩

/-- The log of a session. -/
def Session.log (s : Session) : List (LogLevel × String) := s.events.toList.filterMap (·.logLine)

/-- **A step of a compilation.** -/
abbrev CompileM := EStateM CompileError Session

namespace CompileM

variable {α ε : Type}

/-- Runs a compilation and gives its result together with the session that it leaves. -/
def runFrom (act : CompileM α) (s : Session) : Except CompileError α × Session :=
  match act s with
  | .ok a s => (.ok a, s)
  | .error e s => (.error e, s)

/-- Notes an event. -/
def record (e : Event) : CompileM Unit := fun s =>
  .ok () { s with events := s.events.push e }

/-- Goes on with a result, or fails with its error. -/
def lift (wrap : ε → CompileError) (result : Except ε α) : CompileM α := fun s =>
  match result with
  | .ok a => .ok a s
  | .error e => .error (wrap e) s

/-- The units that are being compiled, the innermost first. -/
def chain : CompileM (List Path) := fun s => .ok s.chain s

/-- Puts a unit on the chain. -/
def push (unit : Path) : CompileM Unit := fun s => .ok () { s with chain := unit :: s.chain }

/-- Takes the innermost unit off the chain. -/
def pop (s : Session) : Session := { s with chain := s.chain.tail }

/-- **Works on a unit** while it is on the chain; it leaves the chain in any case. -/
def within (unit : Path) (act : CompileM α) : CompileM α := fun s =>
  match (do push unit; act : CompileM α) s with
  | .ok a s => .ok a (pop s)
  | .error e s => .error e (pop s)

end CompileM

end PizzaLang
