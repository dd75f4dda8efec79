import PizzaLang.Command.Report

/-!
# The command line

A command runs on a picture of the disk that starts out blank. Its report says which paths
it looked at; those that are not in the picture yet are looked up, and the command is run
again, until nothing is missing. The picture then shows all that the command depends on.
-/

namespace PizzaLang

/-- The number of a system error, whichever sign it is reported with. -/
def errorNumber (code : UInt32) : UInt32 := if code < 0x80000000 then code else 0 - code

/-- What stands at a path, given how reading it failed. -/
def lookOf : IO.Error → Look
  | .noFileOrDirectory .. => .missing
  | .inappropriateType _ code reason =>
    match errorNumber code with
    | 20 => .notDirectory
    | 21 => .directory
    | number => .failed s!"{reason} (os error {number})"
  | .invalidArgument _ code reason =>
    match errorNumber code with
    | 36 => .nameTooLong
    | number => .failed s!"{reason} (os error {number})"
  | e => .failed e.toString

/-- Looks up a path. -/
def lookUp (path : Path) : IO Look := do
  if path.hasNull then return .badName
  try
    let content ← IO.FS.readBinFile path.text
    let canonical ← IO.FS.realPath path.text
    return .file ⟨toString canonical⟩ content
  catch e => return lookOf e

/-- The disk as far as it is known. -/
def diskOf (known : List (Path × Look)) : Disk :=
  ⟨fun path => (known.lookup path).getD .missing, known.length⟩

/-- Runs a command until it sees all that it looks at. -/
partial def settle (command : Command) (known : List (Path × Look)) : IO Report := do
  let report := command.report (diskOf known)
  let unknown := (command.consulted report.events).filter fun p => (known.lookup p).isNone
  if unknown.isEmpty then return report
  let found ← unknown.eraseDups.mapM fun p => return (p, ← lookUp p)
  settle command (known ++ found)

/-- What to say about arguments that make no sense. -/
def usage : String :=
  "Usage: [-v] lex FILE | parse FILE | compile [-I DIR] [-a DIR] [-s] FILE"

end PizzaLang

open PizzaLang

def main (arguments : List String) : IO UInt32 := do
  match Invocation.ofArguments .none arguments with
  | .error .help =>
    IO.println usage
    return 0
  | .error .usage =>
    IO.eprintln usage
    return 2
  | .ok invocation =>
    let report ← settle invocation.command []
    if invocation.verbose then
      for (level, message) in report.events.filterMap (·.logLine) do
        if level = .debug then
          IO.eprintln s!"[{level.label}] {message}"
    IO.print report.output
    match report.failure with
    | some failure =>
      IO.eprint failure.render
      return 1
    | none => return 0
