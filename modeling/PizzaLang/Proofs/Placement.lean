import PizzaLang.Proofs.Labels
import PizzaLang.Proofs.Relocation
import PizzaLang.Proofs.Tiling
import PizzaLang.Proofs.Viability
import PizzaLang.Proofs.Words

/-!
# Where nodes and errors stand

Each node of a program stands at the token that introduces it, and whatever is wrong with a part of
a program is said of one of its nodes. So all positions that come out of a text are those of its
tokens:

* `PizzaLang.IsProgram.placedIn`: all nodes of a statement stand at tokens;
* `PizzaLang.IsProgram.holdsMake`, `PizzaLang.IsProgram.holdsName`: orders and the names of
  definitions stand at whole words;
* `PizzaLang.SymbolTable.failsIn_pizzaOf` and its like: errors in the meaning of a tree stand at
  nodes of the tree;
* `PizzaLang.tokenAt_of_parse`: so do the errors of the parser, at tokens, if there are any.
-/

namespace PizzaLang

/-! ### Trees -/

/-- **All nodes of a tree are in places** of some sort. -/
inductive SyntaxTree.PlacedIn (P : Position → Prop) : SyntaxTree → Prop
  | node {label : NodeLabel} {children : List SyntaxTree} : P label.position →
      (∀ t ∈ children, PlacedIn P t) → PlacedIn P (.node label children)

namespace SyntaxTree.PlacedIn

variable {P : Position → Prop} {t u : SyntaxTree} {index : Nat}

theorem position (h : t.PlacedIn P) : P t.position := by
  cases h with
  | node hlabel _ => exact hlabel

theorem children (h : t.PlacedIn P) : ∀ u ∈ t.children, SyntaxTree.PlacedIn P u := by
  cases h with
  | node _ hchildren => exact hchildren

theorem child? (h : t.PlacedIn P) (hu : t.child? index = some u) : u.PlacedIn P :=
  h.children u (List.mem_of_getElem? hu)

theorem child (h : t.PlacedIn P) (hu : t.child index = .ok u) : u.PlacedIn P := by
  rw [SyntaxTree.child] at hu
  split at hu
  · next v hv =>
    obtain rfl := Except.ok.inj hu
    exact h.child? hv
  · cases hu

end SyntaxTree.PlacedIn

/-- A tree that is made from tokens is where they are. -/
theorem SyntaxTree.MadeFrom.placedIn {T : Token → Prop} {P : Position → Prop} {t : SyntaxTree}
    (h : t.MadeFrom T) (hT : ∀ token, T token → P token.position) : t.PlacedIn P := by
  induction h with
  | node hlabel _ ih =>
    obtain ⟨token, htoken, hposition⟩ := hlabel.position
    exact .node (hposition ▸ hT token htoken) ih

/-! ### The meaning of trees -/

/-- **A result that fails does so in a place** of some sort, and not for a name declared twice. -/
def FailsIn {α : Type} (P : Position → Prop) (x : Except SemanticError α) : Prop :=
  ∀ e, x = .error e → P e.position ∧ ∀ clash, e ≠ .duplicate clash

section FailsIn

variable {α β : Type} {P : Position → Prop}

theorem failsIn_ok {a : α} : FailsIn P (.ok a) := by
  intro e he
  cases he

theorem failsIn_error {e : SemanticError} (h : P e.position) (hne : ∀ clash, e ≠ .duplicate clash) :
    FailsIn P (.error e : Except SemanticError α) := by
  intro e' he
  obtain rfl := Except.error.inj he
  exact ⟨h, hne⟩

theorem FailsIn.bind {x : Except SemanticError α} {f : α → Except SemanticError β}
    (hx : FailsIn P x) (hf : ∀ a, x = .ok a → FailsIn P (f a)) : FailsIn P (x >>= f) := by
  intro e he
  rcases Fallible.bind_eq_error_iff.mp he with he | ⟨a, ha, he⟩
  · exact hx e he
  · exact hf a ha e he

theorem failsIn_foldlM {step : β → α → Except SemanticError β} {as : List α} {b : β}
    (h : ∀ a ∈ as, ∀ b, FailsIn P (step b a)) : FailsIn P (as.foldlM step b) := by
  induction as generalizing b with
  | nil => exact failsIn_ok
  | cons a as ih =>
    rw [List.forall_mem_cons] at h
    rw [List.foldlM_cons]
    exact (h.1 b).bind fun b' _ => ih h.2

end FailsIn

namespace SyntaxTree

variable {P : Position → Prop} {t : SyntaxTree}

theorem failsIn_child (h : t.PlacedIn P) (index : Nat) : FailsIn P (t.child index) := by
  rw [child]
  split
  · exact failsIn_ok
  · exact failsIn_error h.position (by simp [misfit])

theorem failsIn_inRange {position : Position} (h : P position) {n : Int} :
    FailsIn P (inRange position n) := by
  rw [inRange]
  split
  · exact failsIn_ok
  · exact failsIn_error h (by simp)

theorem failsIn_operate {label : NodeLabel} (h : P label.position) {x y : Int} :
    FailsIn P (operate label x y) := by
  rw [operate]
  split
  · exact failsIn_inRange h
  · exact failsIn_inRange h
  · exact failsIn_inRange h
  · split
    · exact failsIn_error h (by simp)
    · exact failsIn_inRange h

/-- **An expression without a value** has a node that is at fault. -/
theorem PlacedIn.failsIn_evaluate (h : t.PlacedIn P) : FailsIn P t.evaluate := by
  induction h with
  | @node label children hlabel _ ih =>
    rw [evaluate.eq_def]
    dsimp only
    split
    · rw [readQuantity]
      split
      · exact failsIn_inRange hlabel
      · exact failsIn_error hlabel (by simp)
    · split
      · rcases children with _ | ⟨left, _ | ⟨right, rest⟩⟩
        · exact failsIn_error hlabel (by simp)
        · exact (ih left (by simp)).bind fun _ _ =>
            failsIn_error (e := .misfit label.kind label.position _) hlabel (by simp)
        · exact (ih left (by simp)).bind fun x _ => (ih right (by simp)).bind fun y _ =>
            failsIn_operate hlabel
      · exact failsIn_error hlabel (by simp)

end SyntaxTree

namespace SymbolTable

open SyntaxTree

variable {P : Position → Prop} {table : SymbolTable} {t : SyntaxTree} (h : t.PlacedIn P)

include h

theorem failsIn_lookup {kind : SymbolKind} : FailsIn P (table.lookup t kind) := by
  rw [lookup]
  split
  · exact failsIn_error h.position (by simp)
  · split
    · exact failsIn_ok
    · exact failsIn_error h.position (by simp)

theorem failsIn_useAs {α : Type} {kind : SymbolKind} {pick : Symbol → Option α} :
    FailsIn P (table.useAs t kind pick) := by
  refine (failsIn_lookup h).bind fun found _ => ?_
  split
  · exact failsIn_ok
  · exact failsIn_error h.position (by simp [misfit])

theorem failsIn_portionOf : FailsIn P (table.portionOf t) := by
  refine (failsIn_useAs h).bind fun i _ => (failsIn_child h 0).bind fun u hu => ?_
  refine (h.child hu).failsIn_evaluate.bind fun q _ => ?_
  split
  · exact failsIn_error h.position (by simp)
  · exact failsIn_ok

theorem failsIn_keepSpecialty {specialties : Listing Specialty} :
    FailsIn P (table.keepSpecialty specialties t) :=
  (failsIn_useAs h).bind fun _ _ => failsIn_ok

theorem failsIn_specialtyOf : FailsIn P (table.specialtyOf t) := by
  refine (failsIn_child h 0).bind fun name hname => ?_
  refine (failsIn_foldlM fun u hu _ => ?_).bind fun _ _ => failsIn_ok
  exact (failsIn_portionOf ((h.child hname).children u hu)).bind fun _ _ => failsIn_ok

theorem failsIn_addClause {pizza : Pizza} : FailsIn P (table.addClause pizza t) := by
  rw [addClause]
  split
  · refine (failsIn_foldlM fun u hu _ => ?_).bind fun _ _ => failsIn_ok
    exact (failsIn_portionOf (h.children u hu)).bind fun _ _ => failsIn_ok
  · refine (failsIn_foldlM fun u hu _ => ?_).bind fun _ _ => failsIn_ok
    exact failsIn_keepSpecialty (h.children u hu)
  · exact (failsIn_child h 0).bind fun _ _ => failsIn_ok
  · exact failsIn_error h.position (by simp [misfit])

/-- **An order without a meaning** has a node that is at fault. -/
theorem failsIn_pizzaOf : FailsIn P (table.pizzaOf t) := by
  refine (failsIn_child h 0).bind fun size hsize => ?_
  have hplaced := h.child hsize
  split
  · exact failsIn_error hplaced.position (by simp [misfit])
  · refine (failsIn_child hplaced 0).bind fun body hbody => failsIn_foldlM fun u hu _ => ?_
    exact failsIn_addClause ((hplaced.child hbody).children u hu)

end SymbolTable

theorem failsIn_ingredientOf {P : Position → Prop} {t name path : SyntaxTree}
    {intrinsic : ImageSize} (h : t.PlacedIn P) (hname : name.PlacedIn P) :
    FailsIn P (ingredientOf t name path intrinsic) := by
  have hdrawn : FailsIn P (drawnSize t intrinsic) := by
    rw [drawnSize]
    split
    · exact failsIn_ok
    · next resize hresize =>
      have hplaced := h.child? hresize
      refine (SyntaxTree.failsIn_child hplaced 0).bind fun number hnumber => ?_
      split
      · exact failsIn_ok
      · exact failsIn_error (hplaced.child hnumber).position (by simp)
  refine hdrawn.bind fun size _ => ?_
  split
  · exact failsIn_error hname.position (by simp)
  · split
    · exact failsIn_error hname.position (by simp)
    · exact failsIn_ok

/-! ### Tokens of a unit -/

/-- **A token stands at the position**: one of those that the text of the unit has. -/
def TokenAt (unit : Path) (text : String) (p : Position) : Prop :=
  ∃ tokens, tokenize unit (Text.lines text) = .ok tokens ∧ ∃ t ∈ tokens, t.position = p

theorem TokenAt.unit {unit : Path} {text : String} {p : Position} (h : TokenAt unit text p) :
    p.unit = unit := by
  obtain ⟨tokens, htokens, t, ht, rfl⟩ := h
  exact ((Lexing.tilesAll_of_scanLines htokens).stands ht).2.1

/-- **A syntax error stands at a token**, or at the start of the unit if it has none. -/
theorem tokenAt_of_parse {unit : Path} {tokens : List Token} {e : SyntaxError}
    (h : parse unit tokens = .error e) :
    (∃ t ∈ tokens, t.position = e.position) ∨ tokens = [] ∧ e.position = .start unit := by
  obtain ⟨good, s, htokens, -, harises, hlast, -⟩ := exists_good_of_parse h
  cases e with
  | expected lexemes found =>
    obtain ⟨us, hrest⟩ := harises
    exact Or.inl ⟨found, by simp [htokens, hrest], rfl⟩
  | noStatement found => exact Or.inl ⟨found, by simp [htokens, SyntaxError.mistaken], rfl⟩
  | ended lexemes position =>
    obtain ⟨hrest, rfl⟩ := harises
    obtain rfl : tokens = good := by simpa [SyntaxError.mistaken, hrest] using htokens
    have hpast : s.last = (Position.start unit).past (tokens ++ []) := hlast
    have hposition : s.last = (tokens.getLast?.map (·.position)).getD (.start unit) := by
      rw [hpast, List.append_nil, Position.past_eq]
    cases hlast? : tokens.getLast? with
    | none =>
      rw [hlast?] at hposition
      exact Or.inr ⟨List.getLast?_eq_none_iff.mp hlast?, hposition⟩
    | some t =>
      rw [hlast?] at hposition
      exact Or.inl ⟨t, List.mem_of_getLast? hlast?, hposition.symm⟩

namespace Derivation

/-- The name of a definition comes right after the word that introduces it. -/
theorem Definition.exists_name (d : Definition) :
    ∃ (name : Leaf [.literal]) (rest : List Token) (children : List SyntaxTree),
      d.body = name.1 :: rest ∧ d.keyword.lexeme ≠ .number ∧
      d.tree.child 0 = .ok (nameAt .literal name.1 children) := by
  cases d with
  | ingredient keyword name opening path closing resize semicolon =>
    refine ⟨name, _, _, rfl, ?_, rfl⟩
    rw [Definition.keyword, List.mem_singleton.mp keyword.2]
    decide
  | specialty keyword name opening first others closing =>
    refine ⟨name, _, _, rfl, ?_, rfl⟩
    rw [Definition.keyword, List.mem_singleton.mp keyword.2]
    decide

/-- A statement does not end with a number. -/
theorem Statement.exists_last (s : Statement) :
    ∃ front last, s.tokens = front ++ [last] ∧ last.lexeme ≠ .number := by
  have hlast {l : Lexeme} (t : Leaf [l]) (hl : l ≠ .number) : t.1.lexeme ≠ .number := by
    rw [List.mem_singleton.mp t.2]
    exact hl
  cases s with
  | inclusion keyword path semicolon =>
    exact ⟨keyword.1 :: path.tokens, semicolon.1, rfl, hlast semicolon (by decide)⟩
  | definition keyword defined =>
    cases defined with
    | ingredient introduction name opening path closing resize semicolon =>
      refine ⟨keyword.1 :: introduction.1 :: name.1 :: opening.1 ::
        (path.tokens ++ closing.1 :: resize.toList.flatMap Resize.tokens), semicolon.1, ?_,
        hlast semicolon (by decide)⟩
      simp [tokens, body, Statement.keyword, Definition.tokens, Definition.keyword, Definition.body]
    | specialty introduction name opening first others closing =>
      refine ⟨keyword.1 :: introduction.1 :: name.1 :: opening.1 ::
        (first :: others).flatMap portionTokens, closing.1, ?_, hlast closing (by decide)⟩
      simp [tokens, body, Statement.keyword, Definition.tokens, Definition.keyword, Definition.body]
  | make order =>
    exact ⟨order.keyword.1 :: order.size.1 :: order.pizza.1 :: order.pizzaBody, order.semicolon.1,
      rfl, hlast order.semicolon (by decide)⟩

/-- **A statement stands among the tokens of its program**, and not right after a number. -/
theorem Program.exists_split (p : Program) {s : Statement} (h : s ∈ p.statements) :
    ∃ before after, p.tokens = before ++ (s.tokens ++ after) ∧
      ∀ u, before.getLast? = some u → u.lexeme ≠ .number := by
  obtain ⟨front, back, hsplit⟩ := List.append_of_mem h
  refine ⟨front.flatMap Statement.tokens, back.flatMap Statement.tokens, ?_, fun u hu => ?_⟩
  · rw [tokens, hsplit, List.flatMap_append, List.flatMap_cons]
  · rcases List.eq_nil_or_concat front with rfl | ⟨init, last, rfl⟩
    · cases hu
    · obtain ⟨start, t, htokens, ht⟩ := last.exists_last
      rw [List.concat_eq_append, List.flatMap_append, List.flatMap_singleton, htokens,
        ← List.append_assoc, List.getLast?_concat] at hu
      exact Option.some.inj hu ▸ ht

end Derivation

namespace IsProgram

variable {unit : Path} {text : String} {tree t : SyntaxTree}

/-- The statements of a text are those of a derivation of its tokens. -/
theorem exists_statement (h : IsProgram unit text tree) (ht : t ∈ tree.children) :
    ∃ (d : Derivation.Program) (s : Derivation.Statement),
      tokenize unit (Text.lines text) = .ok d.tokens ∧ s ∈ d.statements ∧ s.tree = t := by
  obtain ⟨-, tokens, f, htokens, hparse, htree⟩ := isProgram_iff.mp h
  obtain ⟨d, rfl, htree'⟩ := tree?_of_parse hparse
  obtain rfl := Option.some.inj (htree.symm.trans htree')
  obtain ⟨s, hs, rfl⟩ := List.mem_map.mp ht
  exact ⟨d, s, htokens, hs, rfl⟩

/-- **The statements are made from the tokens** of the text. -/
theorem madeFrom (h : IsProgram unit text tree) (ht : t ∈ tree.children) :
    ∃ tokens, tokenize unit (Text.lines text) = .ok tokens ∧ t.MadeFrom (· ∈ tokens) := by
  obtain ⟨d, s, htokens, hs, rfl⟩ := h.exists_statement ht
  exact ⟨d.tokens, htokens, s.madeFrom fun token htoken => List.mem_flatMap.mpr ⟨s, hs, htoken⟩⟩

/-- **Each node of a statement stands at a token.** -/
theorem placedIn (h : IsProgram unit text tree) (ht : t ∈ tree.children) :
    t.PlacedIn (TokenAt unit text) := by
  obtain ⟨tokens, htokens, hmade⟩ := h.madeFrom ht
  exact hmade.placedIn fun token htoken => ⟨tokens, htokens, token, htoken, rfl⟩

/-- **An order stands at the word** that introduces it. -/
theorem holdsMake (h : IsProgram unit text tree) (ht : t ∈ tree.children)
    (hkind : t.kind = .make) : HoldsWord (Text.lines text) t.position "make" := by
  obtain ⟨d, s, htokens, hs, rfl⟩ := h.exists_statement ht
  obtain ⟨before, after, hsplit, hbefore⟩ := d.exists_split hs
  cases s with
  | inclusion => cases hkind
  | definition => cases hkind
  | make order =>
    have hlexeme : order.keyword.1.lexeme = .kwMake := List.mem_singleton.mp order.keyword.2
    have hspelled : order.keyword.1.text = "make" := by
      have hspells := (wellSpelled_of_tokenize htokens).spells order.keyword.1
        (List.mem_flatMap.mpr ⟨_, hs, List.mem_cons_self⟩)
      rwa [hlexeme] at hspells
    rw [← hspelled]
    rw [hsplit] at htokens
    exact holdsWord_of_tokenize htokens (by rw [hlexeme]; decide) hbefore

/-- **The name of a definition stands at a word**, which is the name apart from capitals. -/
theorem holdsName {d name : SyntaxTree} (h : IsProgram unit text tree) (ht : t ∈ tree.children)
    (hkind : t.kind = .definition) (hd : t.child 0 = .ok d) (hname : d.child 0 = .ok name) :
    ∃ word, HoldsWord (Text.lines text) name.position word ∧ Text.lower word = name.value := by
  obtain ⟨p, s, htokens, hs, rfl⟩ := h.exists_statement ht
  obtain ⟨before, after, hsplit, -⟩ := p.exists_split hs
  rw [hsplit] at htokens
  cases s with
  | inclusion => cases hkind
  | make => cases hkind
  | definition keyword defined =>
    obtain rfl : defined.tree = d := Except.ok.inj hd
    obtain ⟨word, rest, children, hbody, hkeyword, hchild⟩ := defined.exists_name
    obtain rfl := Except.ok.inj (hchild.symm.trans hname)
    refine ⟨word.1.text, ?_, rfl⟩
    have hword : tokenize unit (Text.lines text) =
        .ok ((before ++ [keyword.1, defined.keyword]) ++ word.1 :: (rest ++ after)) := by
      rw [htokens, Derivation.Statement.tokens, Derivation.Statement.body,
        Derivation.Definition.tokens, hbody]
      simp [Derivation.Statement.keyword]
    refine holdsWord_of_tokenize hword ?_ fun u hu => ?_
    · rw [List.mem_singleton.mp word.2]
      decide
    · obtain rfl : defined.keyword = u := by simpa using hu
      exact hkeyword

end IsProgram

end PizzaLang
