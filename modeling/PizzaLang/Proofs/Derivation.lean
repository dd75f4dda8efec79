import PizzaLang.Proofs.Reading

/-!
# Derivations of programs

The grammar of programs, as types: each rule is a type, each alternative of a rule is a
constructor, and a value of the type is a derivation from the rule. The leaves of a derivation
are tokens, of which only the lexeme is prescribed; read from left to right they are the
tokens that the derivation derives. For each derivation there is one tree, the tree of the
program: punctuation is gone, a text is one node whatever it was put together from, and each
node stands at the token that introduces it.

```text
program    := statement+
statement  := include text ";" | define definition | make size pizza body ";"
definition := ingredient NAME "(" text ")" [resize NUMBER] ";"
            | specialty NAME "{" (use ";")+ "}"
size       := big | medium | personal
body       := (add-clause | of-clause [add-clause]) [save-clause]
add-clause := add use (and use)*
of-clause  := of NAME (and NAME)*
save-clause := save as text
use        := NAME "(" expression ")"
expression := term (("+" | "-") expression)?
term       := NUMBER (("*" | "/") term)?
text       := "'" TEXT "'" [text]
```

The second half of the file shows that the grammar is unambiguous
(`PizzaLang.Derivation.Program.tokens_injective`). One token of lookahead decides everything:
a phrase that could go on is followed by a token with which it cannot.
-/

namespace PizzaLang

namespace Derivation

/-- **A leaf**: a token with one of the given lexemes. -/
abbrev Leaf (lexemes : List Lexeme) := { t : Token // t.lexeme ∈ lexemes }

/-- The tree of a single token: a node of some kind, with a value, where the token stands. -/
def nodeAt (kind : NodeKind) (value : String) (t : Token) (children : List SyntaxTree) :
    SyntaxTree :=
  .node ⟨kind, value, t.position⟩ children

/-- The tree of a name; names are read without regard to case. -/
def nameAt (kind : NodeKind) (t : Token) (children : List SyntaxTree) : SyntaxTree :=
  nodeAt kind (Text.lower t.text) t children

/-- The tree of a keyword, which has the name of its kind for a value. -/
def frameAt (kind : NodeKind) (t : Token) (children : List SyntaxTree) : SyntaxTree :=
  nodeAt kind kind.label t children

/-! ### Texts and quantities -/

/-- `text := "'" TEXT "'" [text]` -/
inductive Quotation
  | last (opening : Leaf [.quote]) (body : Leaf [.text]) (closing : Leaf [.quote])
  | more (opening : Leaf [.quote]) (body : Leaf [.text]) (closing : Leaf [.quote])
      (others : Quotation)

namespace Quotation

/-- The tokens of a text. -/
def tokens : Quotation → List Token
  | last opening body closing => [opening.1, body.1, closing.1]
  | more opening body closing others => opening.1 :: body.1 :: closing.1 :: others.tokens

/-- The texts between the quotes, in order. -/
def texts : Quotation → List String
  | last _ body _ => [body.1.text]
  | more _ body _ others => body.1.text :: others.texts

/-- The first text between quotes. -/
def head : Quotation → Token
  | last _ body _ => body.1
  | more _ body _ _ => body.1

/-- The tree of a text: all that stands between the quotes, as it is written. -/
def tree (q : Quotation) : SyntaxTree := nodeAt .path (String.join q.texts) q.head []

end Quotation

/-- The tree of a number. -/
def numberTree (n : Leaf [.number]) : SyntaxTree := nodeAt .number n.1.text n.1 []

/-- The operation that an operator stands for. -/
def operation : Lexeme → NodeKind
  | .plus => .plus
  | .minus => .minus
  | .times => .times
  | _ => .divide

/-- `chain := operand (operator chain)?`, for some operators and some sort of operands -/
inductive Chain (operators : List Lexeme) (α : Type)
  | last (operand : α)
  | link (left : α) (operator : Leaf operators) (right : Chain operators α)

namespace Chain

variable {operators : List Lexeme} {α : Type}

/-- The tokens of a chain, given those of an operand. -/
def tokens (operand : α → List Token) : Chain operators α → List Token
  | last a => operand a
  | link left operator right => operand left ++ operator.1 :: right.tokens operand

/-- The tree of a chain, given that of an operand. To the right of an operator is all that
follows it. -/
def tree (operand : α → SyntaxTree) : Chain operators α → SyntaxTree
  | last a => operand a
  | link left operator right =>
    frameAt (operation operator.1.lexeme) operator.1 [operand left, right.tree operand]

end Chain

/-- `term := NUMBER (("*" | "/") term)?` -/
abbrev Term := Chain [.times, .divide] (Leaf [.number])

/-- The tokens of a term. -/
def Term.tokens : Term → List Token := Chain.tokens fun n => [n.1]

/-- The tree of a term. -/
def Term.tree : Term → SyntaxTree := Chain.tree numberTree

/-- `expression := term (("+" | "-") expression)?` -/
abbrev Expression := Chain [.plus, .minus] Term

/-- The tokens of an expression. -/
def Expression.tokens : Expression → List Token := Chain.tokens Term.tokens

/-- The tree of an expression. -/
def Expression.tree : Expression → SyntaxTree := Chain.tree Term.tree

/-- `use := NAME "(" expression ")"` -/
structure Use where
  name : Leaf [.literal]
  opening : Leaf [.openParen]
  quantity : Expression
  closing : Leaf [.closeParen]

namespace Use

/-- The tokens of a use. -/
def tokens (u : Use) : List Token :=
  u.name.1 :: u.opening.1 :: (Expression.tokens u.quantity ++ [u.closing.1])

/-- The tree of a use. -/
def tree (u : Use) : SyntaxTree := nameAt .ingredient u.name.1 [Expression.tree u.quantity]

end Use

/-! ### Definitions -/

/-- `resize := resize NUMBER` -/
structure Resize where
  keyword : Leaf [.kwResize]
  side : Leaf [.number]

namespace Resize

/-- The tokens of a resizing. -/
def tokens (r : Resize) : List Token := [r.keyword.1, r.side.1]

/-- The tree of a resizing. -/
def tree (r : Resize) : SyntaxTree := nodeAt .resize "resize" r.keyword.1 [numberTree r.side]

end Resize

/-- `definition := ingredient NAME "(" text ")" [resize] ";" | specialty NAME "{" (use ";")+ "}"` -/
inductive Definition
  | ingredient (keyword : Leaf [.kwIngredient]) (name : Leaf [.literal])
      (opening : Leaf [.openParen]) (path : Quotation) (closing : Leaf [.closeParen])
      (resize : Option Resize) (semicolon : Leaf [.semicolon])
  | specialty (keyword : Leaf [.kwSpecialty]) (name : Leaf [.literal])
      (opening : Leaf [.openBrace]) (first : Use × Leaf [.semicolon])
      (others : List (Use × Leaf [.semicolon])) (closing : Leaf [.closeBrace])

/-- The tokens of a portion of a specialty. -/
def portionTokens (p : Use × Leaf [.semicolon]) : List Token := p.1.tokens ++ [p.2.1]

namespace Definition

/-- The token that introduces a definition. -/
def keyword : Definition → Token
  | ingredient keyword _ _ _ _ _ _ => keyword.1
  | specialty keyword _ _ _ _ _ => keyword.1

/-- The tokens that follow the first. -/
def body : Definition → List Token
  | ingredient _ name opening path closing resize semicolon =>
    name.1 :: opening.1 ::
      (path.tokens ++ closing.1 :: (resize.toList.flatMap Resize.tokens ++ [semicolon.1]))
  | specialty _ name opening first others closing =>
    name.1 :: opening.1 :: ((first :: others).flatMap portionTokens ++ [closing.1])

/-- The tokens of a definition. -/
def tokens (d : Definition) : List Token := d.keyword :: d.body

/-- The tree of a definition. -/
def tree : Definition → SyntaxTree
  | ingredient keyword name _ path _ resize _ =>
    frameAt .ingredient keyword.1
      (nameAt .literal name.1 [path.tree] :: resize.toList.map Resize.tree)
  | specialty keyword name _ first others _ =>
    frameAt .specialty keyword.1
      [nameAt .literal name.1 ((first :: others).map fun p => p.1.tree)]

end Definition

/-! ### Pizzas -/

/-- `add-clause := add use (and use)*` -/
structure AddClause where
  keyword : Leaf [.kwAdd]
  first : Use
  others : List (Leaf [.kwAnd] × Use)

/-- `of-clause := of NAME (and NAME)*` -/
structure OfClause where
  keyword : Leaf [.kwOf]
  first : Leaf [.literal]
  others : List (Leaf [.kwAnd] × Leaf [.literal])

/-- `save-clause := save as text` -/
structure SaveClause where
  keyword : Leaf [.kwSave]
  as : Leaf [.kwAs]
  name : Quotation

namespace AddClause

/-- The tokens that follow the first. -/
def body (a : AddClause) : List Token :=
  a.first.tokens ++ a.others.flatMap fun p => p.1.1 :: p.2.tokens

/-- The tokens of the clause. -/
def tokens (a : AddClause) : List Token := a.keyword.1 :: a.body

/-- The tree of the clause. -/
def tree (a : AddClause) : SyntaxTree :=
  frameAt .add a.keyword.1 (a.first.tree :: a.others.map fun p => p.2.tree)

end AddClause

namespace OfClause

/-- The tokens that follow the first. -/
def body (o : OfClause) : List Token :=
  o.first.1 :: o.others.flatMap fun p => [p.1.1, p.2.1]

/-- The tokens of the clause. -/
def tokens (o : OfClause) : List Token := o.keyword.1 :: o.body

/-- The tree of the clause. -/
def tree (o : OfClause) : SyntaxTree :=
  frameAt .ofClause o.keyword.1
    (nameAt .specialty o.first.1 [] :: o.others.map fun p => nameAt .specialty p.2.1 [])

end OfClause

namespace SaveClause

/-- The tokens that follow the first. -/
def body (c : SaveClause) : List Token := c.as.1 :: c.name.tokens

/-- The tokens of the clause. -/
def tokens (c : SaveClause) : List Token := c.keyword.1 :: c.body

/-- The tree of the clause. -/
def tree (c : SaveClause) : SyntaxTree := nodeAt .saveAs "save" c.keyword.1 [c.name.tree]

end SaveClause

/-- `add-clause | of-clause [add-clause]` -/
inductive Toppings
  | add (clause : AddClause)
  | names (clause : OfClause) (added : Option AddClause)

namespace Toppings

/-- The tokens of the toppings. -/
def tokens : Toppings → List Token
  | add clause => clause.tokens
  | names clause added => clause.tokens ++ added.toList.flatMap AddClause.tokens

/-- The trees of the toppings. -/
def trees : Toppings → List SyntaxTree
  | add clause => [clause.tree]
  | names clause added => clause.tree :: added.toList.map AddClause.tree

end Toppings

/-- `make := make size pizza toppings [save-clause] ";"`, where
`size := big | medium | personal` -/
structure Make where
  keyword : Leaf [.kwMake]
  size : Leaf [.kwBig, .kwMedium, .kwPersonal]
  pizza : Leaf [.kwPizza]
  toppings : Toppings
  save : Option SaveClause
  semicolon : Leaf [.semicolon]

namespace Make

/-- The tokens that follow the word for a pizza, up to the semicolon. -/
def pizzaBody (m : Make) : List Token :=
  m.toppings.tokens ++ m.save.toList.flatMap SaveClause.tokens

/-- The tree of the pizza itself. -/
def pizzaTree (m : Make) : SyntaxTree :=
  frameAt .pizza m.pizza.1 (m.toppings.trees ++ m.save.toList.map SaveClause.tree)

/-- The tokens that follow the first. -/
def body (m : Make) : List Token :=
  m.size.1 :: m.pizza.1 :: (m.pizzaBody ++ [m.semicolon.1])

/-- The tree of an order. -/
def tree (m : Make) : SyntaxTree :=
  frameAt .make m.keyword.1 [nameAt .size m.size.1 [m.pizzaTree]]

end Make

/-! ### Programs -/

/-- `statement := include text ";" | define definition | make` -/
inductive Statement
  | inclusion (keyword : Leaf [.kwInclude]) (path : Quotation) (semicolon : Leaf [.semicolon])
  | definition (keyword : Leaf [.kwDefine]) (defined : Definition)
  | make (order : Make)

namespace Statement

/-- The token that introduces a statement. -/
def keyword : Statement → Token
  | inclusion keyword _ _ => keyword.1
  | definition keyword _ => keyword.1
  | make order => order.keyword.1

/-- The tokens that follow the first. -/
def body : Statement → List Token
  | inclusion _ path semicolon => path.tokens ++ [semicolon.1]
  | definition _ defined => defined.tokens
  | make order => order.body

/-- The tokens of a statement. -/
def tokens (s : Statement) : List Token := s.keyword :: s.body

/-- The tree of a statement. -/
def tree : Statement → SyntaxTree
  | inclusion keyword path _ => nodeAt .inclusion "include" keyword.1 [path.tree]
  | definition keyword defined => frameAt .definition keyword.1 [defined.tree]
  | make order => order.tree

end Statement

/-- `program := statement+` -/
structure Program where
  first : Statement
  others : List Statement

namespace Program

/-- The statements of a program. -/
def statements (p : Program) : List Statement := p.first :: p.others

/-- **The tokens that a program is derived from.** -/
def tokens (p : Program) : List Token := p.statements.flatMap Statement.tokens

/-- **The tree of a program**, taken for that of a unit. -/
def tree (p : Program) (unit : Path) : SyntaxTree :=
  .node ⟨.program, unit.text, .start unit⟩ (p.statements.map Statement.tree)

end Program

/-! ### One token decides -/

variable {r r' : List Token}

theorem Leaf.ahead {lexemes : List Lexeme} (t : Leaf lexemes) : Ahead lexemes (t.1 :: r) :=
  ahead_cons.mpr t.2

/-- A leaf is never a token with another lexeme. -/
theorem Leaf.not_ahead {lexemes lexemes' : List Lexeme} (t : Leaf lexemes)
    (hdis : ∀ l ∈ lexemes, l ∉ lexemes') : ¬Ahead lexemes' (t.1 :: r) :=
  t.ahead.not_of_disjoint hdis

theorem Leaf.cons_inj {lexemes : List Lexeme} {t t' : Leaf lexemes} (h : t.1 :: r = t'.1 :: r') :
    t = t' ∧ r = r' :=
  ⟨Subtype.ext (List.cons.inj h).1, (List.cons.inj h).2⟩

theorem Leaf.cons_ne {lexemes lexemes' : List Lexeme} (t : Leaf lexemes) (t' : Leaf lexemes')
    (hdis : ∀ l ∈ lexemes, l ∉ lexemes') : t.1 :: r ≠ t'.1 :: r' := by
  intro h
  have hahead : Ahead lexemes (t'.1 :: r') := h ▸ t.ahead
  exact hahead.not_of_disjoint hdis t'.ahead

/-- **Phrases are told apart by what they are followed with**: where neither of two phrases can
go on, they agree as soon as their tokens do, and so does all that comes after them. -/
def Decided {α : Type} (tokens : α → List Token) (stop : List Lexeme) : Prop :=
  ∀ ⦃a a' : α⦄ ⦃r r' : List Token⦄, ¬Ahead stop r → ¬Ahead stop r' →
    tokens a ++ r = tokens a' ++ r' → a = a' ∧ r = r'

/-- Every phrase of some sort starts with one of these lexemes. -/
def Starts {α : Type} (tokens : α → List Token) (first : List Lexeme) : Prop :=
  ∀ (a : α) (r : List Token), Ahead first (tokens a ++ r)

/-- **A repetition is decided** if its items are, and an item starts with a lexeme that no item
can go on with. -/
theorem Decided.flatMap {α : Type} {tokens : α → List Token} {first stop : List Lexeme}
    (h : Decided tokens stop) (hfirst : Starts tokens first) (hdis : ∀ l ∈ first, l ∉ stop) :
    Decided (fun as : List α => as.flatMap tokens) (first ++ stop) := by
  have left : ∀ {r : List Token}, Ahead first r → Ahead (first ++ stop) r :=
    fun hr => hr.mono fun _ => List.mem_append_left _
  have right : ∀ {r : List Token}, Ahead stop r → Ahead (first ++ stop) r :=
    fun hr => hr.mono fun _ => List.mem_append_right _
  -- behind an item comes another one, or what follows the repetition
  have behind : ∀ (as : List α) {r : List Token}, ¬Ahead (first ++ stop) r →
      ¬Ahead stop (as.flatMap tokens ++ r) := by
    intro as r hr
    cases as with
    | nil => exact mt right hr
    | cons a as =>
      rw [List.flatMap_cons, List.append_assoc]
      exact (hfirst a _).not_of_disjoint hdis
  intro as as' r r' hr hr' heq
  dsimp only at heq
  induction as generalizing as' with
  | nil =>
    cases as' with
    | nil => exact ⟨rfl, heq⟩
    | cons a' as' =>
      rw [List.flatMap_nil, List.nil_append, List.flatMap_cons, List.append_assoc] at heq
      exact absurd (left (heq ▸ hfirst a' _)) hr
  | cons a as ih =>
    cases as' with
    | nil =>
      rw [List.flatMap_nil, List.nil_append, List.flatMap_cons, List.append_assoc] at heq
      exact absurd (left (heq ▸ hfirst a _)) hr'
    | cons a' as' =>
      rw [List.flatMap_cons, List.append_assoc, List.flatMap_cons, List.append_assoc] at heq
      obtain ⟨rfl, hrest⟩ := h (behind as hr) (behind as' hr') heq
      obtain ⟨rfl, rfl⟩ := ih hrest
      exact ⟨rfl, rfl⟩

/-- What may be left out is a repetition that is not repeated. -/
theorem Decided.toList {α : Type} {tokens : α → List Token} {first stop : List Lexeme}
    (h : Decided tokens stop) (hfirst : Starts tokens first) (hdis : ∀ l ∈ first, l ∉ stop) :
    Decided (fun o : Option α => o.toList.flatMap tokens) (first ++ stop) := by
  intro o o' r r' hr hr' heq
  obtain ⟨ho, rfl⟩ := h.flatMap hfirst hdis hr hr' heq
  cases o <;> cases o' <;> simp_all

/-! ### The grammar is unambiguous -/

theorem Quotation.starts : Starts Quotation.tokens [.quote] := by
  rintro (⟨opening, _, _⟩ | ⟨opening, _, _, _⟩) r
  · exact opening.ahead
  · exact opening.ahead

theorem Quotation.decided : Decided Quotation.tokens [.quote] := by
  intro q q' r r' hr hr' h
  induction q generalizing q' with
  | last opening body closing =>
    cases q' with
    | last opening' body' closing' =>
      obtain ⟨rfl, h₁⟩ := Leaf.cons_inj h
      obtain ⟨rfl, h₂⟩ := Leaf.cons_inj h₁
      obtain ⟨rfl, rfl⟩ := Leaf.cons_inj h₂
      exact ⟨rfl, rfl⟩
    | more opening' body' closing' others' =>
      -- the second text starts with the quote that cannot follow the first
      obtain ⟨-, h₁⟩ := Leaf.cons_inj h
      obtain ⟨-, h₂⟩ := Leaf.cons_inj h₁
      obtain ⟨-, rfl⟩ := Leaf.cons_inj h₂
      exact absurd (starts others' r') hr
  | more opening body closing others ih =>
    cases q' with
    | last opening' body' closing' =>
      obtain ⟨-, h₁⟩ := Leaf.cons_inj h
      obtain ⟨-, h₂⟩ := Leaf.cons_inj h₁
      obtain ⟨-, rfl⟩ := Leaf.cons_inj h₂
      exact absurd (starts others r) hr'
    | more opening' body' closing' others' =>
      obtain ⟨rfl, h₁⟩ := Leaf.cons_inj h
      obtain ⟨rfl, h₂⟩ := Leaf.cons_inj h₁
      obtain ⟨rfl, h₃⟩ := Leaf.cons_inj h₂
      obtain ⟨rfl, rfl⟩ := ih h₃
      exact ⟨rfl, rfl⟩

/-- **A chain is decided** by the operators, and by what could go on its last operand. -/
theorem Chain.decided {operators stop : List Lexeme} {α : Type} {operand : α → List Token}
    (h : Decided operand stop) (hdis : ∀ l ∈ operators, l ∉ stop) :
    Decided (fun c : Chain operators α => c.tokens operand) (operators ++ stop) := by
  have operator_ahead : ∀ {r : List Token}, Ahead operators r → Ahead (operators ++ stop) r :=
    fun hr => hr.mono fun _ => List.mem_append_left _
  have operand_ends : ∀ {r : List Token}, ¬Ahead (operators ++ stop) r → ¬Ahead stop r :=
    fun hr h => hr (h.mono fun _ => List.mem_append_right _)
  intro c c' r r' hr hr' heq
  dsimp only at heq
  induction c generalizing c' with
  | last a =>
    cases c' with
    | last a' =>
      obtain ⟨rfl, rfl⟩ := h (operand_ends hr) (operand_ends hr') heq
      exact ⟨rfl, rfl⟩
    | link left' operator' right' =>
      -- the operands agree, so one chain is followed by the operator of the other
      rw [tokens, tokens, List.append_assoc] at heq
      obtain ⟨-, rfl⟩ := h (operand_ends hr) (operator'.not_ahead hdis) heq
      exact absurd (operator_ahead operator'.ahead) hr
  | link left operator right ih =>
    cases c' with
    | last a' =>
      rw [tokens, tokens, List.append_assoc] at heq
      obtain ⟨-, rfl⟩ := h (operator.not_ahead hdis) (operand_ends hr') heq
      exact absurd (operator_ahead operator.ahead) hr'
    | link left' operator' right' =>
      rw [tokens, tokens, List.append_assoc, List.append_assoc] at heq
      obtain ⟨rfl, h₁⟩ := h (operator.not_ahead hdis) (operator'.not_ahead hdis) heq
      obtain ⟨rfl, h₂⟩ := Leaf.cons_inj h₁
      obtain ⟨rfl, rfl⟩ := ih h₂
      exact ⟨rfl, rfl⟩

theorem Term.decided : Decided Term.tokens [.times, .divide] := by
  have hnumber : Decided (fun n : Leaf [.number] => [n.1]) [] :=
    fun _ _ _ _ _ _ h => Leaf.cons_inj h
  exact Chain.decided hnumber (by decide)

/-- What follows an expression is no operator at all: a factor could be taken into its last
term. -/
theorem Expression.decided : Decided Expression.tokens [.plus, .minus, .times, .divide] :=
  Chain.decided Term.decided (by decide)

theorem Use.decided : Decided Use.tokens [] := by
  rintro ⟨name, opening, quantity, closing⟩ ⟨name', opening', quantity', closing'⟩ r r' - - h
  simp only [tokens, List.cons_append, List.append_assoc, List.nil_append] at h
  obtain ⟨rfl, h₁⟩ := Leaf.cons_inj h
  obtain ⟨rfl, h₂⟩ := Leaf.cons_inj h₁
  obtain ⟨rfl, h₃⟩ := Expression.decided (closing.not_ahead (by decide))
    (closing'.not_ahead (by decide)) h₂
  obtain ⟨rfl, rfl⟩ := Leaf.cons_inj h₃
  exact ⟨rfl, rfl⟩

theorem Use.starts : Starts Use.tokens [.literal] :=
  fun u _ => u.name.ahead

theorem Resize.decided : Decided Resize.tokens [] := by
  rintro ⟨keyword, side⟩ ⟨keyword', side'⟩ r r' - - h
  obtain ⟨rfl, h₁⟩ := Leaf.cons_inj h
  obtain ⟨rfl, rfl⟩ := Leaf.cons_inj h₁
  exact ⟨rfl, rfl⟩

theorem Resize.starts : Starts Resize.tokens [.kwResize] :=
  fun z _ => z.keyword.ahead

theorem decided_portionTokens : Decided portionTokens [] := by
  rintro ⟨u, semicolon⟩ ⟨u', semicolon'⟩ r r' - - h
  simp only [portionTokens, List.append_assoc, List.cons_append, List.nil_append] at h
  obtain ⟨rfl, h₁⟩ := Use.decided (semicolon.not_ahead (by decide))
    (semicolon'.not_ahead (by decide)) h
  obtain ⟨rfl, rfl⟩ := Leaf.cons_inj h₁
  exact ⟨rfl, rfl⟩

theorem starts_portionTokens : Starts portionTokens [.literal] := by
  rintro ⟨u, semicolon⟩ r
  rw [portionTokens, List.append_assoc]
  exact Use.starts u _

theorem Definition.decided : Decided Definition.tokens [] := by
  intro d d' r r' _ _ h
  rw [tokens, tokens, List.cons_append, List.cons_append] at h
  cases d with
  | ingredient keyword name opening path closing resize semicolon =>
    cases d' with
    | ingredient keyword' name' opening' path' closing' resize' semicolon' =>
      simp only [body, List.cons_append, List.append_assoc, List.nil_append] at h
      obtain ⟨rfl, h₁⟩ := Leaf.cons_inj h
      obtain ⟨rfl, h₂⟩ := Leaf.cons_inj h₁
      obtain ⟨rfl, h₃⟩ := Leaf.cons_inj h₂
      obtain ⟨rfl, h₄⟩ := Quotation.decided (closing.not_ahead (by decide))
        (closing'.not_ahead (by decide)) h₃
      obtain ⟨rfl, h₅⟩ := Leaf.cons_inj h₄
      obtain ⟨rfl, h₆⟩ := Resize.decided.toList Resize.starts (by decide)
        (semicolon.not_ahead (by decide)) (semicolon'.not_ahead (by decide)) h₅
      obtain ⟨rfl, rfl⟩ := Leaf.cons_inj h₆
      exact ⟨rfl, rfl⟩
    | specialty keyword' _ _ _ _ _ => exact absurd h (keyword.cons_ne keyword' (by decide))
  | specialty keyword name opening first others closing =>
    cases d' with
    | ingredient keyword' _ _ _ _ _ _ => exact absurd h (keyword.cons_ne keyword' (by decide))
    | specialty keyword' name' opening' first' others' closing' =>
      simp only [body, List.cons_append, List.append_assoc, List.nil_append] at h
      obtain ⟨rfl, h₁⟩ := Leaf.cons_inj h
      obtain ⟨rfl, h₂⟩ := Leaf.cons_inj h₁
      obtain ⟨rfl, h₃⟩ := Leaf.cons_inj h₂
      obtain ⟨hportions, h₄⟩ := decided_portionTokens.flatMap starts_portionTokens (by decide)
        (closing.not_ahead (by decide)) (closing'.not_ahead (by decide)) h₃
      obtain ⟨rfl, rfl⟩ := List.cons.inj hportions
      obtain ⟨rfl, rfl⟩ := Leaf.cons_inj h₄
      exact ⟨rfl, rfl⟩

theorem AddClause.decided : Decided AddClause.tokens [.kwAnd] := by
  rintro ⟨keyword, first, others⟩ ⟨keyword', first', others'⟩ r r' hr hr' h
  have hitem : Decided (fun p : Leaf [.kwAnd] × Use => p.1.1 :: p.2.tokens) [] := by
    rintro ⟨word, use⟩ ⟨word', use'⟩ r r' - - h
    obtain ⟨rfl, h₁⟩ := Leaf.cons_inj h
    obtain ⟨rfl, rfl⟩ := Use.decided not_ahead_none not_ahead_none h₁
    exact ⟨rfl, rfl⟩
  simp only [tokens, body, List.cons_append, List.append_assoc] at h
  obtain ⟨rfl, h₁⟩ := Leaf.cons_inj h
  obtain ⟨rfl, h₂⟩ := Use.decided not_ahead_none not_ahead_none h₁
  obtain ⟨rfl, rfl⟩ := hitem.flatMap (fun p _ => p.1.ahead) (by decide) hr hr' h₂
  exact ⟨rfl, rfl⟩

theorem AddClause.starts : Starts AddClause.tokens [.kwAdd] :=
  fun a _ => a.keyword.ahead

theorem OfClause.decided : Decided OfClause.tokens [.kwAnd] := by
  rintro ⟨keyword, first, others⟩ ⟨keyword', first', others'⟩ r r' hr hr' h
  have hitem : Decided (fun p : Leaf [.kwAnd] × Leaf [.literal] => [p.1.1, p.2.1]) [] := by
    rintro ⟨word, name⟩ ⟨word', name'⟩ r r' - - h
    obtain ⟨rfl, h₁⟩ := Leaf.cons_inj h
    obtain ⟨rfl, rfl⟩ := Leaf.cons_inj h₁
    exact ⟨rfl, rfl⟩
  simp only [tokens, body, List.cons_append] at h
  obtain ⟨rfl, h₁⟩ := Leaf.cons_inj h
  obtain ⟨rfl, h₂⟩ := Leaf.cons_inj h₁
  obtain ⟨rfl, rfl⟩ := hitem.flatMap (fun p _ => p.1.ahead) (by decide) hr hr' h₂
  exact ⟨rfl, rfl⟩

theorem SaveClause.decided : Decided SaveClause.tokens [.quote] := by
  rintro ⟨keyword, as, name⟩ ⟨keyword', as', name'⟩ r r' hr hr' h
  obtain ⟨rfl, h₁⟩ := Leaf.cons_inj h
  obtain ⟨rfl, h₂⟩ := Leaf.cons_inj h₁
  obtain ⟨rfl, rfl⟩ := Quotation.decided hr hr' h₂
  exact ⟨rfl, rfl⟩

theorem SaveClause.starts : Starts SaveClause.tokens [.kwSave] :=
  fun c _ => c.keyword.ahead

/-- Behind the specialties comes the word for further ingredients, or what follows it all. -/
theorem Toppings.not_ahead_added {o : Option AddClause} (hr : ¬Ahead [.kwAdd, .kwAnd] r) :
    ¬Ahead [.kwAnd] (o.toList.flatMap AddClause.tokens ++ r) := by
  cases o with
  | none => exact fun h => hr (h.mono (by decide))
  | some a => exact a.keyword.not_ahead (by decide)

/-- Behind the toppings comes the word for a name to save under, or what follows it all. -/
theorem SaveClause.not_ahead_saved {o : Option SaveClause} (hr : ¬Ahead [.kwAdd, .kwAnd] r) :
    ¬Ahead [.kwAdd, .kwAnd] (o.toList.flatMap SaveClause.tokens ++ r) := by
  cases o with
  | none => exact hr
  | some c => exact c.keyword.not_ahead (by decide)

theorem Toppings.decided : Decided Toppings.tokens [.kwAdd, .kwAnd] := by
  intro t t' r r' hr hr' h
  have hand : ∀ {r : List Token}, ¬Ahead [.kwAdd, .kwAnd] r → ¬Ahead [.kwAnd] r :=
    fun hr h => hr (h.mono (by decide))
  cases t with
  | add clause =>
    cases t' with
    | add clause' =>
      obtain ⟨rfl, rfl⟩ := AddClause.decided (hand hr) (hand hr') h
      exact ⟨rfl, rfl⟩
    | names clause' added' => exact absurd h (clause.keyword.cons_ne clause'.keyword (by decide))
  | names clause added =>
    cases t' with
    | add clause' => exact absurd h (clause.keyword.cons_ne clause'.keyword (by decide))
    | names clause' added' =>
      rw [tokens, tokens, List.append_assoc, List.append_assoc] at h
      obtain ⟨rfl, h₁⟩ := OfClause.decided (not_ahead_added hr) (not_ahead_added hr') h
      obtain ⟨rfl, rfl⟩ := AddClause.decided.toList AddClause.starts (by decide) hr hr' h₁
      exact ⟨rfl, rfl⟩

/-- What follows a make is another statement or nothing, but inside of it the semicolon tells
where the optional clauses end. -/
theorem Make.body_decided {m m' : Make} (h : m.body ++ r = m'.body ++ r') :
    (m.size = m'.size ∧ m.pizza = m'.pizza ∧ m.toppings = m'.toppings ∧ m.save = m'.save ∧
      m.semicolon = m'.semicolon) ∧ r = r' := by
  simp only [body, pizzaBody, List.cons_append, List.append_assoc, List.nil_append] at h
  obtain ⟨hsize, h₁⟩ := Leaf.cons_inj h
  obtain ⟨hpizza, h₂⟩ := Leaf.cons_inj h₁
  obtain ⟨htoppings, h₃⟩ := Toppings.decided
    (SaveClause.not_ahead_saved (m.semicolon.not_ahead (by decide)))
    (SaveClause.not_ahead_saved (m'.semicolon.not_ahead (by decide))) h₂
  obtain ⟨hsave, h₄⟩ := SaveClause.decided.toList SaveClause.starts (by decide)
    (m.semicolon.not_ahead (by decide)) (m'.semicolon.not_ahead (by decide)) h₃
  obtain ⟨hsemicolon, rfl⟩ := Leaf.cons_inj h₄
  exact ⟨⟨hsize, hpizza, htoppings, hsave, hsemicolon⟩, rfl⟩

theorem Statement.decided : Decided Statement.tokens [] := by
  intro s s' r r' _ _ h
  rw [tokens, tokens, List.cons_append, List.cons_append] at h
  cases s with
  | inclusion keyword path semicolon =>
    cases s' with
    | inclusion keyword' path' semicolon' =>
      simp only [body, List.append_assoc, List.cons_append, List.nil_append] at h
      obtain ⟨rfl, h₁⟩ := Leaf.cons_inj h
      obtain ⟨rfl, h₂⟩ := Quotation.decided (semicolon.not_ahead (by decide))
        (semicolon'.not_ahead (by decide)) h₁
      obtain ⟨rfl, rfl⟩ := Leaf.cons_inj h₂
      exact ⟨rfl, rfl⟩
    | definition keyword' _ => exact absurd h (keyword.cons_ne keyword' (by decide))
    | make order' => exact absurd h (keyword.cons_ne order'.keyword (by decide))
  | definition keyword defined =>
    cases s' with
    | inclusion keyword' _ _ => exact absurd h (keyword.cons_ne keyword' (by decide))
    | definition keyword' defined' =>
      obtain ⟨rfl, h₁⟩ := Leaf.cons_inj h
      obtain ⟨rfl, rfl⟩ := Definition.decided not_ahead_none not_ahead_none h₁
      exact ⟨rfl, rfl⟩
    | make order' => exact absurd h (keyword.cons_ne order'.keyword (by decide))
  | make order =>
    cases s' with
    | inclusion keyword' _ _ => exact absurd h (order.keyword.cons_ne keyword' (by decide))
    | definition keyword' _ => exact absurd h (order.keyword.cons_ne keyword' (by decide))
    | make order' =>
      obtain ⟨hkeyword, h₁⟩ := Leaf.cons_inj h
      obtain ⟨⟨hsize, hpizza, htoppings, hsave, hsemicolon⟩, rfl⟩ := Make.body_decided h₁
      refine ⟨congrArg make ?_, rfl⟩
      cases order
      cases order'
      exact (Make.mk.injEq ..).mpr ⟨hkeyword, hsize, hpizza, htoppings, hsave, hsemicolon⟩

theorem Statement.starts : Starts Statement.tokens [.kwInclude, .kwDefine, .kwMake] := by
  rintro (⟨keyword, path, semicolon⟩ | ⟨keyword, defined⟩ | order) r
  · exact keyword.ahead.mono (by decide)
  · exact keyword.ahead.mono (by decide)
  · exact order.keyword.ahead.mono (by decide)

/-- **The grammar is unambiguous**: a list of tokens has one derivation at most. -/
theorem Program.tokens_injective : Function.Injective Program.tokens := by
  rintro ⟨first, others⟩ ⟨first', others'⟩ h
  have h₁ : (first :: others).flatMap Statement.tokens ++ [] =
      (first' :: others').flatMap Statement.tokens ++ [] := congrArg (· ++ []) h
  obtain ⟨hstatements, -⟩ := Statement.decided.flatMap Statement.starts (by decide)
    not_ahead_nil not_ahead_nil h₁
  obtain ⟨rfl, rfl⟩ := List.cons.inj hstatements
  rfl

end Derivation

end PizzaLang
