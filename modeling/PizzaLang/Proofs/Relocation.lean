import PizzaLang.Proofs.Concatenation
import PizzaLang.Proofs.Grammar
import PizzaLang.Proofs.Walk

/-!
# The name of a unit does not show in its program

A unit may be named by several paths, and its tokens and nodes carry the one it was asked for
by. Nothing else about them depends on it: under another name the same lines have the same
tokens, with the other name in their positions (`PizzaLang.tokenize_moveTo`), and the same tree,
apart from the names in positions and at the root (`PizzaLang.IsProgram.sameContent`).
-/

namespace PizzaLang

/-! ### Tokens -/

/-- A position in another unit. -/
def Position.moveTo (unit : Path) (p : Position) : Position := { p with unit }

/-- A token in another unit. -/
def Token.moveTo (unit : Path) (t : Token) : Token :=
  { t with position := t.position.moveTo unit }

/-- An error in another unit. -/
def LexError.moveTo (unit : Path) : LexError → LexError
  | unrecognized character position => unrecognized character (position.moveTo unit)

namespace Lexing

/-- The tokens of lines in another unit. -/
def moveLines (unit : Path) : Except LexError (List Token) → Except LexError (List Token)
  | .ok ts => .ok (ts.map (Token.moveTo unit))
  | .error e => .error (e.moveTo unit)

theorem scanLines_moveTo (unit unit' : Path) (mode : Mode) (line : Nat) (lines : List String) :
    scanLines unit' mode line lines = moveLines unit' (scanLines unit mode line lines) := by
  rw [← Nat.add_zero line, scanLines_reposition (f := Position.moveTo unit') fun _ _ => rfl]
  rcases scanLines unit mode line lines with ⟨_, _⟩ | ts <;> rfl

end Lexing

/-- **The same lines have the same tokens in every unit**, apart from the unit itself. -/
theorem tokenize_moveTo (unit unit' : Path) (lines : List String) :
    tokenize unit' lines = Lexing.moveLines unit' (tokenize unit lines) :=
  Lexing.scanLines_moveTo unit unit' .plain 1 lines

/-! ### Trees -/

/-- **What a label says of its program**: all but the unit, which stands in positions and is the
value of the root. -/
def NodeLabel.content (l : NodeLabel) : NodeKind × String × Nat × Nat :=
  (l.kind, if l.kind = .program then "" else l.value, l.position.line, l.position.column)

namespace SyntaxTree

/-- Trees that are the same apart from the unit they belong to. -/
def SameContent (t t' : SyntaxTree) : Prop :=
  t.map NodeLabel.content = t'.map NodeLabel.content

/-- Lists of trees that are the same apart from the unit they belong to. -/
def SameContents (ts ts' : List SyntaxTree) : Prop :=
  Tree.mapAll NodeLabel.content ts = Tree.mapAll NodeLabel.content ts'

variable {t t' u u' : SyntaxTree} {ts ts' : List SyntaxTree}

theorem SameContent.label (h : t.SameContent t') : t.label.content = t'.label.content := by
  obtain ⟨l, ts⟩ := t
  obtain ⟨l', ts'⟩ := t'
  exact (Tree.node.inj h).1

theorem SameContent.children (h : t.SameContent t') : SameContents t.children t'.children := by
  obtain ⟨l, ts⟩ := t
  obtain ⟨l', ts'⟩ := t'
  exact (Tree.node.inj h).2

theorem SameContent.kind (h : t.SameContent t') : t.kind = t'.kind :=
  congrArg Prod.fst h.label

theorem SameContent.value (h : t.SameContent t') (hkind : t.kind ≠ .program) :
    t.value = t'.value := by
  have hvalue : (if t.kind = .program then "" else t.value) =
      if t'.kind = .program then "" else t'.value := congrArg (fun c => c.2.1) h.label
  rwa [if_neg hkind, if_neg (h.kind ▸ hkind)] at hvalue

theorem SameContents.nil (h : SameContents [] ts') : ts' = [] := by
  cases ts' with
  | nil => rfl
  | cons t' ts' => cases h

theorem SameContents.cons (h : SameContents (t :: ts) ts') :
    ∃ t' us', ts' = t' :: us' ∧ t.SameContent t' ∧ SameContents ts us' := by
  cases ts' with
  | nil => cases h
  | cons t' us' => exact ⟨t', us', rfl, (List.cons.inj h).1, (List.cons.inj h).2⟩

/-- What is in one list has its like in the other. -/
theorem SameContents.exists_mem (h : SameContents ts ts') (ht : t ∈ ts) :
    ∃ t' ∈ ts', t.SameContent t' := by
  induction ts generalizing ts' with
  | nil => exact absurd ht List.not_mem_nil
  | cons u us ih =>
    obtain ⟨u', us', rfl, hu, hus⟩ := h.cons
    rcases List.mem_cons.mp ht with rfl | ht
    · exact ⟨u', List.mem_cons_self, hu⟩
    · obtain ⟨t', ht', hsame⟩ := ih hus ht
      exact ⟨t', List.mem_cons_of_mem _ ht', hsame⟩

/-- First children have the same content too, and are there or not alike. -/
theorem SameContent.first (h : t.SameContent t') :
    (t.child? 0 = none ∧ t'.child? 0 = none) ∨
      ∃ u u', t.child? 0 = some u ∧ t'.child? 0 = some u' ∧ u.SameContent u' := by
  have hchildren := h.children
  rw [child?, child?]
  cases hts : t.children with
  | nil =>
    rw [hts] at hchildren
    rw [hchildren.nil]
    exact Or.inl ⟨rfl, rfl⟩
  | cons u us =>
    rw [hts] at hchildren
    obtain ⟨u', us', hts', hu, -⟩ := hchildren.cons
    rw [hts']
    exact Or.inr ⟨u, u', rfl, rfl, hu⟩

end SyntaxTree

/-- Tokens that differ only in their units make labels with the same content. -/
theorem likeness_moveTo (unit : Path) :
    Likeness (fun t u => u = Token.moveTo unit t) NodeLabel.content where
  lexeme := by
    rintro t _ rfl
    rfl
  plain := by
    rintro t _ rfl kind value
    rfl
  name := by
    rintro t _ rfl _ kind
    rfl
  number := by
    rintro t _ rfl _
    rfl
  path := by
    rintro t _ ts us ⟨rfl, -⟩ hts
    have htexts : us.map (·.text) = ts.map (·.text) := by
      induction hts with
      | nil => rfl
      | cons htu _ ih => rw [List.map_cons, List.map_cons, ih, htu.1, Token.moveTo]
    rw [List.map_cons, List.map_cons, htexts]
    rfl

theorem tokensOf_eq_ok_iff {unit : Path} {text : String} {tokens : List Token} :
    tokensOf unit text = .ok tokens ↔
      checkExtension unit = .ok () ∧ tokenize unit (Text.lines text) = .ok tokens := by
  simp only [tokensOf, SourceUnit.ofText, Fallible.bind_eq_ok_iff, Fallible.mapError_eq_ok_iff,
    Fallible.pure_eq_ok_iff]
  constructor
  · rintro ⟨_, ⟨_, hcheck, rfl⟩, htokens⟩
    exact ⟨hcheck, htokens⟩
  · rintro ⟨hcheck, htokens⟩
    exact ⟨_, ⟨_, hcheck, rfl⟩, htokens⟩

/-- **The lines of a unit have this tree**, whatever the path of the unit looks like. -/
def HasTree (unit : Path) (lines : List String) (tree : SyntaxTree) : Prop :=
  ∃ tokens f, tokenize unit lines = .ok tokens ∧ parse unit tokens = .ok f ∧ f.tree? = some tree

/-- A unit has a program if it has the extension of units and its lines have a tree. -/
theorem isProgram_iff {unit : Path} {text : String} {tree : SyntaxTree} :
    IsProgram unit text tree ↔
      checkExtension unit = .ok () ∧ HasTree unit (Text.lines text) tree := by
  simp only [IsProgram, HasTree, forestOf, Fallible.bind_eq_ok_iff, Fallible.mapError_eq_ok_iff,
    tokensOf_eq_ok_iff]
  constructor
  · rintro ⟨f, ⟨tokens, ⟨hcheck, htokens⟩, hparse⟩, htree⟩
    exact ⟨hcheck, tokens, f, htokens, hparse, htree⟩
  · rintro ⟨hcheck, tokens, f, htokens, hparse, htree⟩
    exact ⟨f, ⟨tokens, ⟨hcheck, htokens⟩, hparse⟩, htree⟩

theorem HasTree.unique {unit : Path} {lines : List String} {tree tree' : SyntaxTree}
    (h : HasTree unit lines tree) (h' : HasTree unit lines tree') : tree = tree' := by
  obtain ⟨tokens, f, htokens, hparse, htree⟩ := h
  obtain ⟨tokens', f', htokens', hparse', htree'⟩ := h'
  obtain rfl := Except.ok.inj (htokens.symm.trans htokens')
  obtain rfl := Except.ok.inj (hparse.symm.trans hparse')
  exact Option.some.inj (htree.symm.trans htree')

/-- The tree of some lines is that of a derivation. -/
theorem HasTree.exists_derivation {unit : Path} {lines : List String} {tree : SyntaxTree}
    (h : HasTree unit lines tree) : ∃ d : Derivation.Program, tree = d.tree unit := by
  obtain ⟨tokens, f, -, hparse, htree⟩ := h
  obtain ⟨d, -, htree'⟩ := tree?_of_parse hparse
  exact ⟨d, Option.some.inj (htree.symm.trans htree')⟩

/-- **Lines have the same tree under every name.** -/
theorem HasTree.moveTo {p : Path} {lines : List String} {tree : SyntaxTree}
    (h : HasTree p lines tree) (q : Path) :
    ∃ tree', HasTree q lines tree' ∧ tree.SameContent tree' := by
  obtain ⟨ts, f, hts, hparse, htree⟩ := h
  have hlike : List.Forall₂ (fun t u => u = Token.moveTo q t) ts (ts.map (Token.moveTo q)) := by
    rw [List.forall₂_map_right_iff, List.forall₂_same]
    exact fun _ _ => rfl
  have hroot : NodeLabel.content ⟨.program, p.text, .start p⟩ =
      NodeLabel.content ⟨.program, q.text, .start q⟩ := rfl
  rcases (likeness_moveTo q).parse hlike hroot with
    ⟨g, g', hg, hg', htrees⟩ | ⟨e, _, he, -, -⟩
  · obtain rfl := Except.ok.inj (hparse.symm.trans hg)
    rw [htree] at htrees
    cases htree' : g'.tree? with
    | none =>
      rw [htree'] at htrees
      cases htrees
    | some tree' =>
      rw [htree'] at htrees
      refine ⟨tree', ⟨_, g', ?_, hg', htree'⟩, Option.some.inj htrees⟩
      rw [tokenize_moveTo p q, hts]
      rfl
  · rw [hparse] at he
    cases he

/-- **A text has the same tree under every name.** -/
theorem IsProgram.sameContent {p q : Path} {text : String} {tree tree' : SyntaxTree}
    (h : IsProgram p text tree) (h' : IsProgram q text tree') : tree.SameContent tree' := by
  obtain ⟨tree'', hmoved, hsame⟩ := (isProgram_iff.mp h).2.moveTo q
  rwa [hmoved.unique (isProgram_iff.mp h').2] at hsame

end PizzaLang
