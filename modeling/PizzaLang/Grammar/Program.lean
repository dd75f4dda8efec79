import PizzaLang.Grammar.Cursor
import PizzaLang.Text.Lowercase

/-!
# The grammar of programs

A program is one statement or more:

```text
program    := statement+
statement  := "include" text ";"
            | "define" "ingredient" NAME "(" text ")" ["resize" NUMBER] ";"
            | "define" "specialty" NAME "{" (use ";")+ "}"
            | "make" size "pizza" body ";"
size       := "big" | "medium" | "personal"
body       := (add | names [add]) ["save" "as" text]
add        := "add" use ("and" use)*
names      := "of" NAME ("and" NAME)*
use        := NAME "(" expression ")"
expression := term (("+" | "-") expression)?
term       := NUMBER (("*" | "/") term)?
text       := ("'" TEXT "'")+
```

Names and sizes are kept in lower case, quoted texts as they were written; texts in a row
are one text. Each node stands at the token that introduces it.
-/

namespace PizzaLang

namespace Reader

/-! ### Names, texts and quantities -/

/-- A name, as a node of the given kind. -/
def name (kind : NodeKind) : Reader NodeId := do
  let t ← expect [.literal]
  leaf kind (Text.lower t.text) t.position

/-- A text between quotes. -/
def quoted : Reader Token := do
  let _ ← expect [.quote]
  let t ← expect [.text]
  let _ ← expect [.quote]
  return t

/-- Texts in a row, as one node that stands at the first of them. -/
def text : Reader NodeId := do
  let (first, others) ← collect quoted (sees [.quote])
  leaf .path (String.join ((first :: others).map (·.text))) first.position

/-- A number. -/
def number : Reader NodeId := do
  let t ← expect [.number]
  leaf .number t.text t.position

/-- Numbers joined by multiplication and division. -/
def term : Reader NodeId := chain number [.times, .divide]

/-- **A quantity**: terms joined by addition and subtraction. -/
def expression : Reader NodeId := chain term [.plus, .minus]

/-- An ingredient and how much of it. -/
def use : Reader NodeId := do
  let ingredient ← name .ingredient
  let _ ← expect [.openParen]
  let quantity ← expression
  attach ingredient quantity
  let _ ← expect [.closeParen]
  return ingredient

/-- Does `and` follow? It is taken if so. -/
def acceptAnd : Reader Bool := return (← accept [.kwAnd]).isSome

/-! ### Definitions -/

/-- The side of an image, after the word that introduces it. -/
def resizing (keyword : Token) : Reader NodeId := do
  let resize ← leaf .resize "resize" keyword.position
  let side ← number
  attach resize side
  return resize

/-- The definition of an ingredient, after the word that introduces it. -/
def ingredient (keyword : Token) : Reader NodeId := do
  let ingredient ← frame .ingredient keyword.position
  let name ← name .literal
  attach ingredient name
  let _ ← expect [.openParen]
  let path ← text
  attach name path
  let _ ← expect [.closeParen]
  optional [.kwResize] fun t => do attach ingredient (← resizing t)
  let _ ← expect [.semicolon]
  return ingredient

/-- A portion of a specialty, below its name. -/
def portion (name : NodeId) : Reader Unit := do
  let portion ← use
  attach name portion
  let _ ← expect [.semicolon]

/-- The definition of a specialty, after the word that introduces it. -/
def specialty (keyword : Token) : Reader NodeId := do
  let specialty ← frame .specialty keyword.position
  let name ← name .literal
  attach specialty name
  let _ ← expect [.openBrace]
  let _ ← collect (portion name) (return !(← sees [.closeBrace]))
  let _ ← expect [.closeBrace]
  return specialty

/-- A definition, after the word that introduces it. -/
def definition (keyword : Token) : Reader NodeId := do
  let define ← frame .definition keyword.position
  let kind ← expect [.kwIngredient, .kwSpecialty]
  let defined ← if kind.lexeme = .kwIngredient then ingredient kind else specialty kind
  attach define defined
  return define

/-! ### Pizzas -/

/-- The ingredients that a pizza gets, after the word that introduces them. -/
def add (keyword : Token) : Reader NodeId := do
  let clause ← frame .add keyword.position
  let _ ← collect (do attach clause (← use)) acceptAnd
  return clause

/-- The specialties of a pizza, after the word that introduces them. -/
def specialties (keyword : Token) : Reader NodeId := do
  let clause ← frame .ofClause keyword.position
  let _ ← collect (do attach clause (← name .specialty)) acceptAnd
  return clause

/-- The name that a pizza is saved under, after the word that introduces it. -/
def save (keyword : Token) : Reader NodeId := do
  let clause ← leaf .saveAs "save" keyword.position
  let _ ← expect [.kwAs]
  let name ← text
  attach clause name
  return clause

/-- What a pizza is made of: ingredients, or specialties and perhaps ingredients. -/
def toppings (pizza : NodeId) : Reader Unit := do
  let first ← expect [.kwAdd, .kwOf]
  if first.lexeme = .kwAdd then
    attach pizza (← add first)
  else
    attach pizza (← specialties first)
    optional [.kwAdd] fun t => do attach pizza (← add t)

/-- A pizza, after the word that introduces it. -/
def pizza (keyword : Token) : Reader NodeId := do
  let pizza ← frame .pizza keyword.position
  toppings pizza
  optional [.kwSave] fun t => do attach pizza (← save t)
  return pizza

/-- A pizza to make, after the word that introduces it. -/
def make (keyword : Token) : Reader NodeId := do
  let make ← frame .make keyword.position
  let t ← expect [.kwBig, .kwMedium, .kwPersonal]
  let size ← leaf .size (Text.lower t.text) t.position
  attach make size
  let body ← pizza (← expect [.kwPizza])
  attach size body
  let _ ← expect [.semicolon]
  return make

/-! ### Programs -/

/-- An inclusion, after the word that introduces it. -/
def inclusion (keyword : Token) : Reader NodeId := do
  let inclusion ← leaf .inclusion "include" keyword.position
  let path ← text
  attach inclusion path
  let _ ← expect [.semicolon]
  return inclusion

/-- A statement. Its first token is taken even if it starts none. -/
def statement : Reader NodeId := do
  let t ← next [.kwInclude, .kwDefine, .kwMake]
  match t.lexeme with
  | .kwInclude => inclusion t
  | .kwDefine => definition t
  | .kwMake => make t
  | _ => throw (.noStatement t)

/-- **A program**: statements up to the last token, below one root. -/
def program : Reader NodeId := do
  let unit := (← get).unit
  let root ← leaf .program unit.text (.start unit)
  let _ ← collect (do attach root (← statement)) seesAny
  return root

end Reader

/-- **Reads a program** from where the cursor stands. A success hands over the forest,
and the cursor starts a new one; after a failure the cursor keeps its nodes. -/
def Cursor.readProgram (s : Cursor) : Except SyntaxError Forest × Cursor :=
  match Reader.program s with
  | .ok root s => (.ok (s.forest.setRoot root), { s with forest := .empty })
  | .error e s => (.error e, s)

/-- The forest of the program that the tokens of a unit make up. -/
def parse (unit : Path) (tokens : List Token) : Except SyntaxError Forest :=
  (Cursor.ofTokens unit tokens).readProgram.1

end PizzaLang
