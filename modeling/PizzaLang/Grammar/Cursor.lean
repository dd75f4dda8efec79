import PizzaLang.Forest
import PizzaLang.Token.Basic

/-!
# Reading a list of tokens

A reader of tokens takes them from the front of a `Cursor` and builds nodes in the
forest that the cursor carries. When it fails the cursor stays where it is: the tokens
taken are gone and the nodes built remain, so that a later reader goes on from there.

* `Reader`: computations on a cursor that may fail with a `SyntaxError`;
* `expect`, `accept`, `optional`, `next`: taking the next token;
* `collect`: one item or more;
* `chain`: operands joined by operators, grouped to the right.

The last two count their rounds on the tokens that are left when they start. Every round
takes a token, so the count is never what stops them.
-/

namespace PizzaLang

/-- Why a list of tokens is not a program. -/
inductive SyntaxError
  /-- A token other than those that may stand here. -/
  | expected (expected : List Lexeme) (found : Token)
  /-- No token is left where one is needed; the position is that of the last one. -/
  | ended (expected : List Lexeme) (position : Position)
  /-- A statement starts with the wrong token. -/
  | noStatement (found : Token)
deriving DecidableEq

namespace SyntaxError

/-- Where the error arose. -/
def position : SyntaxError → Position
  | expected _ found => found.position
  | ended _ position => position
  | noStatement found => found.position

/-- The lexemes that could have come, as messages give them. -/
def oneOf (lexemes : List Lexeme) : String :=
  " or ".intercalate (lexemes.map fun lexeme => s!"'{lexeme.render}'")

/-- The text of the error. -/
def message : SyntaxError → String
  | expected lexemes found =>
    s!"Syntax Error: expected {oneOf lexemes} but found {found.lexeme.render} " ++
      s!"'{found.text}' at {found.position.render}"
  | ended lexemes position =>
    s!"Syntax Error: expected {oneOf lexemes} after {position.render} but the tokens ran out"
  | noStatement found =>
    s!"Syntax Error: statement starting with {found.lexeme.render} '{found.text}' at " ++
      s!"{found.position.render} is not recognized, expected include, define or make"

end SyntaxError

/-- **What is left to read** of a unit, and what has been built from the rest. -/
structure Cursor where
  unit : Path
  /-- The tokens that are left. -/
  rest : List Token
  /-- Where the last token taken stands, or the start of the unit. -/
  last : Position
  /-- The nodes built so far. -/
  forest : Forest

namespace Cursor

/-- The start of a list of tokens. -/
def ofTokens (unit : Path) (tokens : List Token) : Cursor :=
  ⟨unit, tokens, .start unit, .empty⟩

/-- The cursor after the token in front, with `rest` behind it. -/
def advance (s : Cursor) (t : Token) (rest : List Token) : Cursor :=
  { s with rest, last := t.position }

end Cursor

/-- **A reader of tokens.** -/
abbrev Reader := EStateM SyntaxError Cursor

namespace Reader

variable {α : Type}

/-! ### Tokens -/

/-- Is the next token one of these? -/
def sees (lexemes : List Lexeme) : Reader Bool := fun s =>
  .ok (s.rest.head?.any (·.isAny lexemes)) s

/-- Is there a next token? -/
def seesAny : Reader Bool := fun s => .ok (!s.rest.isEmpty) s

/-- Takes the next token, which must be one of these. -/
def expect (lexemes : List Lexeme) : Reader Token := fun s =>
  match s.rest with
  | t :: rest =>
    if t.isAny lexemes then .ok t (s.advance t rest) else .error (.expected lexemes t) s
  | [] => .error (.ended lexemes s.last) s

/-- Takes the next token if it is one of these. -/
def accept (lexemes : List Lexeme) : Reader (Option Token) := fun s =>
  match s.rest with
  | t :: rest => if t.isAny lexemes then .ok (some t) (s.advance t rest) else .ok none s
  | [] => .ok none s

/-- Takes the next token if it is one of these, and goes on with it. -/
def optional (lexemes : List Lexeme) (act : Token → Reader Unit) : Reader Unit := do
  match ← accept lexemes with
  | some t => act t
  | none => pure ()

/-- Takes the next token, whatever it is; `wanted` is named if there is none. -/
def next (wanted : List Lexeme) : Reader Token := fun s =>
  match s.rest with
  | t :: rest => .ok t (s.advance t rest)
  | [] => .error (.ended wanted s.last) s

/-! ### Nodes -/

/-- Makes a node with a value. -/
def leaf (kind : NodeKind) (value : String) (position : Position) : Reader NodeId := fun s =>
  let (id, forest) := s.forest.alloc ⟨kind, value, position⟩
  .ok id { s with forest }

/-- Makes a node whose value is the name of its kind. -/
def frame (kind : NodeKind) (position : Position) : Reader NodeId :=
  leaf kind kind.label position

/-- Makes a node the last child of another. -/
def attach (parent child : NodeId) : Reader Unit := fun s =>
  .ok () { s with forest := s.forest.attach parent child }

/-! ### Repetition -/

/-- An item, and further ones while `more` says so, one for each of the given tokens at
most. -/
def collectTo (item : Reader α) (more : Reader Bool) : List Token → Reader (α × List α)
  | [] => return (← item, [])
  | _ :: rounds => do
    let first ← item
    if ← more then
      let (second, others) ← collectTo item more rounds
      return (first, second :: others)
    else
      return (first, [])

/-- **One item or more**: after each, `more` tells whether another follows. -/
def collect (item : Reader α) (more : Reader Bool) : Reader (α × List α) := fun s =>
  collectTo item more s.rest s

/-- The kind of node that an operator makes. -/
def operatorKind : Lexeme → NodeKind
  | .plus => .plus
  | .minus => .minus
  | .times => .times
  | _ => .divide

/-- Makes the node of an operator with its two operands. -/
def binary (operator : Token) (left right : NodeId) : Reader NodeId := do
  let node ← frame (operatorKind operator.lexeme) operator.position
  attach node left
  attach node right
  return node

/-- Operands joined by operators, one operator for each of the given tokens at most. -/
def chainTo (operand : Reader NodeId) (operators : List Lexeme) : List Token → Reader NodeId
  | [] => operand
  | _ :: rounds => do
    let left ← operand
    match ← accept operators with
    | some operator => do
      let right ← chainTo operand operators rounds
      binary operator left right
    | none => return left

/-- **Operands joined by operators**, grouped to the right: the left operand of the first
operator is a single operand, and its right operand is all that follows. -/
def chain (operand : Reader NodeId) (operators : List Lexeme) : Reader NodeId := fun s =>
  chainTo operand operators s.rest s

end Reader

end PizzaLang
