import PizzaLang.Path

/-!
# Command lines

There are three commands, each of which takes one file: `lex`, `parse` and `compile`. The
switch `-v` may stand anywhere; the others belong to `compile`. A switch is written long or
short, short ones may be grouped, and a value stands in the next argument or, with or
without an equals sign for a short switch, in the same one. After `--` there are no
switches.
-/

namespace PizzaLang

namespace Command

/-- The switches. -/
inductive Switch
  | verbose | help | listing | includeDir | assets
deriving DecidableEq, Inhabited

/-- Does the switch need a value? -/
def Switch.takesValue : Switch → Bool
  | includeDir | assets => true
  | verbose | help | listing => false

/-- Where a switch may stand: anywhere, or after `compile` only. -/
def Switch.isGeneral : Switch → Bool
  | verbose | help => true
  | listing | includeDir | assets => false

/-- The long spelling, without its dashes. -/
def Switch.long : Switch → String
  | verbose => "verbose"
  | help => "help"
  | listing => "show"
  | includeDir => "include-dir"
  | assets => "assets"

/-- The short spelling, without its dash. -/
def Switch.short : Switch → Char
  | verbose => 'v'
  | help => 'h'
  | listing => 's'
  | includeDir => 'I'
  | assets => 'a'

/-- The switches that may stand before a command and after it. -/
def switches (compiling : Bool) : List Switch :=
  [Switch.verbose, .help, .listing, .includeDir, .assets].filter fun s =>
    compiling || s.isGeneral

/-- Why nothing is run. -/
inductive Refusal
  /-- The arguments make no sense. -/
  | usage
  /-- Help is asked for. -/
  | help
deriving DecidableEq

/-- What the arguments of a command say. -/
structure Options where
  file : Option Path
  verbose : Bool
  listing : Bool
  includeDirs : List Path
  assets : List Path
deriving DecidableEq

/-- No arguments. -/
def Options.none : Options := ⟨Option.none, false, false, [], []⟩

/-! ### Switches -/

/-- Sets a switch without a value; none may be set twice. -/
def Options.set (o : Options) : Switch → Except Refusal Options
  | .verbose => if o.verbose then .error .usage else .ok { o with verbose := true }
  | .listing => if o.listing then .error .usage else .ok { o with listing := true }
  | .help => .error .help
  | .includeDir | .assets => .error .usage

/-- Adds the value of a switch; it may not be empty. -/
def Options.add (o : Options) (switch : Switch) (value : String) : Except Refusal Options :=
  if value.isEmpty then .error .usage
  else match switch with
    | .includeDir => .ok { o with includeDirs := o.includeDirs ++ [⟨value⟩] }
    | .assets => .ok { o with assets := o.assets ++ [⟨value⟩] }
    | _ => .error .usage

/-- Takes the file; there is one only, and it has a name. -/
def Options.setFile (o : Options) (value : String) : Except Refusal Options :=
  if value.isEmpty || o.file.isSome then .error .usage
  else .ok { o with file := some ⟨value⟩ }

/-! ### Arguments -/

/-- How far the arguments of a command have been read. -/
structure Progress where
  options : Options
  /-- A switch whose value comes next. -/
  pending : Option Switch
  /-- Have the switches ended? -/
  ended : Bool

/-- Reads the short switches of one argument. -/
def readShort (compiling : Bool) (o : Options) : List Char → Except Refusal Progress
  | [] => .ok ⟨o, none, false⟩
  | c :: rest =>
    match (switches compiling).find? (·.short == c) with
    | none => .error .usage
    | some switch =>
      if switch.takesValue then
        match rest with
        | [] => .ok ⟨o, some switch, false⟩
        | '=' :: value => do return ⟨← o.add switch (String.ofList value), none, false⟩
        | value => do return ⟨← o.add switch (String.ofList value), none, false⟩
      else do
        let o ← o.set switch
        readShort compiling o rest

/-- Reads a long switch, given without its dashes. -/
def readLong (compiling : Bool) (o : Options) (text : List Char) : Except Refusal Progress :=
  let name := text.takeWhile (· ≠ '=')
  match (switches compiling).find? (·.long == String.ofList name), text.dropWhile (· ≠ '=') with
  | none, _ => .error .usage
  | some switch, [] =>
    if switch.takesValue then .ok ⟨o, some switch, false⟩
    else do return ⟨← o.set switch, none, false⟩
  | some switch, _ :: value =>
    if switch.takesValue then do return ⟨← o.add switch (String.ofList value), none, false⟩
    else .error .usage

/-- Reads one more argument. A pending switch takes anything but another switch. -/
def readArgument (compiling : Bool) (p : Progress) (argument : String) :
    Except Refusal Progress :=
  if p.ended then do return { p with options := ← p.options.setFile argument }
  else match p.pending, argument.toList with
    | some _, '-' :: _ :: _ => .error .usage
    | some switch, _ => do return ⟨← p.options.add switch argument, none, false⟩
    | none, ['-', '-'] => .ok { p with ended := true }
    | none, '-' :: '-' :: text => readLong compiling p.options text
    | none, '-' :: c :: text => readShort compiling p.options (c :: text)
    | none, _ => do return { p with options := ← p.options.setFile argument }

/-- Reads the arguments of a command. -/
def readOptions (compiling : Bool) (arguments : List String) : Except Refusal Options := do
  let p ← arguments.foldlM (readArgument compiling) ⟨.none, none, false⟩
  if p.pending.isSome then .error .usage else return p.options

end Command

/-- **What is to be done.** -/
inductive Command
  /-- Show the tokens of a file. -/
  | lex (file : Path)
  /-- Show the tree of a file. -/
  | parse (file : Path)
  /-- Compile a file, with directories for units and for images, and perhaps show its tokens
  and its tree. -/
  | compile (file : Path) (includeDirs assets : List Path) (listing : Bool)
deriving DecidableEq

/-- **A command line**: a command, and whether its log is wanted. -/
structure Invocation where
  command : Command
  verbose : Bool
deriving DecidableEq

namespace Invocation

open Command

/-- The command that a word names, given its options. -/
def commandOf (word : String) (o : Options) (file : Path) : Option Command :=
  match word with
  | "lex" => some (.lex file)
  | "parse" => some (.parse file)
  | "compile" => some (.compile file o.includeDirs o.assets o.listing)
  | _ => none

/-- What a request for help comes to: `help` may be followed by one word that it explains. -/
def helpOn : List String → Refusal
  | [] => .help
  | [word] => if ["lex", "parse", "compile", "help"].contains word then .help else .usage
  | _ => .usage

/-- **Reads a command line.** What stands before the command are general switches. -/
def ofArguments (before : Options) : List String → Except Refusal Invocation
  | [] => .error .usage
  | word :: rest =>
    if word = "help" then .error (helpOn rest)
    else if ["lex", "parse", "compile"].contains word then do
      let o ← readOptions (word = "compile") rest
      match o.file.bind (commandOf word o) with
      | some command => return ⟨command, before.verbose || o.verbose⟩
      | none => .error .usage
    else do
      let p ← readArgument false ⟨before, none, false⟩ word
      -- Only switches may come before the command.
      if p.ended || p.options.file.isSome then .error .usage
      else ofArguments p.options rest

end Invocation

end PizzaLang
