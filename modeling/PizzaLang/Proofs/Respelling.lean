import Mathlib.Logic.Function.Basic
import PizzaLang.Proofs.Comparison
import PizzaLang.Proofs.Equality

/-!
# Units that are equal as paths are interchangeable

A path has many spellings, and a unit carries the one that it is asked for by into all positions in
it. Units in memory are found by equality of paths and images by their references, so another
spelling leads to the same texts and sizes, in units that are again the same up to their spelling.

The proof follows two compilations at once. To compare them, every path is replaced by one spelling
that is chosen for all equal paths (`PizzaLang.Path.standard`), and every error by its variant: this
is the outlook `PizzaLang.Outlook.standard`, for which the two compilations are in parallel.

The result is `PizzaLang.Compiler.compileUnit_respelled`.
-/

namespace PizzaLang

open Fallible

/-! ### One spelling for equal paths -/

namespace Path

variable {p q : Path}

/-- **One spelling for all paths that are equal.** -/
noncomputable def standard (p : Path) : Path := Function.invFun components p.components

theorem standard_eq_iff : p.standard = q.standard ↔ p.Same q := by
  have hsame : ∀ p : Path, p.standard.components = p.components :=
    fun p => Function.invFun_eq ⟨p, rfl⟩
  constructor
  · intro h
    rw [Same, ← hsame p, h, hsame]
  · intro h
    exact congrArg (Function.invFun components) h

theorem Same.extension (h : p.Same q) : p.extension = q.extension := by
  rw [Path.extension, Path.extension, fileName, fileName, h]

end Path

/-- The position with its unit in the one spelling. -/
noncomputable def Position.standard (p : Position) : Position := ⟨p.line, p.column, p.unit.standard⟩

theorem Position.apart_standard : Position.Apart standard := by
  intro p q h
  obtain ⟨hline, hcolumn, hunit⟩ := Position.mk.inj h
  exact ⟨hline, hcolumn, Path.standard_eq_iff.mp hunit⟩

/-- The token with its unit in the one spelling. -/
noncomputable def Token.standard (t : Token) : Token := { t with position := t.position.standard }

/-- The statements of a program, with all units in the one spelling. -/
noncomputable def SyntaxTree.statements (t : SyntaxTree) : List SyntaxTree :=
  t.children.map (reposition .standard)

/-! ### Variants of errors -/

/-- The error without what is in it. -/
def SemanticError.variant : SemanticError → SemanticError
  | duplicate _ => duplicate default
  | undefined _ _ _ => undefined default default default
  | kindMismatch _ _ _ _ => kindMismatch default default default default
  | invalidQuantity _ _ _ => invalidQuantity default default default
  | emptyImage _ _ => emptyImage default default
  | unevenImage _ _ _ => unevenImage default default default
  | divisionByZero _ => divisionByZero default
  | overflow _ => overflow default
  | misfit _ _ _ => misfit default default default

/-- The error without what is in it. -/
def ResourceError.variant : ResourceError → ResourceError
  | invalid _ _ _ => invalid default default default
  | unreachable _ _ _ _ => unreachable default default default default
  | recursiveInclude _ _ _ => recursiveInclude default default default
  | unsupportedExtension _ _ => unsupportedExtension default default
  | sourceNotFound _ => sourceNotFound default
  | sourceUnreadable _ _ => sourceUnreadable default default

/-- The error without what is in it. -/
def SyntaxError.variant : SyntaxError → SyntaxError
  | expected _ _ => expected default default
  | ended _ _ => ended default default
  | noStatement _ => noStatement default

/-- **The variant of an error**: the error without what is in it. -/
def CompileError.variant : CompileError → CompileError
  | lexical (.unrecognized _ _) => lexical (.unrecognized default default)
  | syntactic e => syntactic e.variant
  | semantic e => semantic e.variant
  | resource e => resource e.variant
  | nesting _ => nesting default

theorem SemanticError.variant_reposition (f : Position → Position) (e : SemanticError) :
    (e.reposition f).variant = e.variant := by
  cases e <;> rfl

theorem SyntaxError.Like.variant {R : Token → Token → Prop} {e e' : SyntaxError}
    (h : SyntaxError.Like R e e') : e.variant = e'.variant := by
  cases h <;> rfl

/-! ### What is seen of spellings -/

/-- **A supply of image sizes respects path equality**: equal units get equal answers. -/
def Images.Respects (images : Images) : Prop :=
  ∀ reference {p q : Path}, p.Same q → images.measure reference p = images.measure reference q

theorem Gallery.respects (g : Gallery) : g.images.Respects := fun _ _ _ _ => rfl

theorem SameAnswer.standard {found found' : Except LookupError Path} (h : SameAnswer found found') :
    bimap id Path.standard found = bimap id Path.standard found' := by
  cases h with
  | ok hsame => exact congrArg Except.ok (Path.standard_eq_iff.mpr hsame)
  | error e => rfl

/-- What is seen if all units are in the one spelling: of errors, their variants. -/
noncomputable def Outlook.standard : Outlook := ⟨.standard, .standard, .variant⟩

theorem Outlook.fits_standard {c : Compiler} (hsources : c.sources.Respects)
    (himages : c.images.Respects) : Outlook.standard.Fits c where
  semantic := by
    intro e e' h
    have hvariant := congrArg SemanticError.variant h
    rw [SemanticError.variant_reposition, SemanticError.variant_reposition] at hvariant
    exact congrArg CompileError.semantic hvariant
  resource := by
    have hvariant : ∀ e, (Outlook.standard.reference e).variant = e.variant := by
      intro e
      cases e <;> rfl
    intro e e' h
    have hvariants := congrArg ResourceError.variant h
    rw [hvariant, hvariant] at hvariants
    exact congrArg CompileError.resource hvariants
  same h := Path.standard_eq_iff.mp h
  locate := by
    intro reference p q h
    exact (hsources.locate rfl (.some (Path.standard_eq_iff.mp h))).standard
  load h := hsources.load (Path.standard_eq_iff.mp h)
  measure := by
    intro reference p q h
    exact himages reference (Path.standard_eq_iff.mp h)

/-! ### Texts -/

section Texts

variable {p q : Path} {tokens tokens' : List Token}

/-- **Equal units have the same tokens**, apart from the spelling of the unit. -/
theorem tokensOf_respelled (h : p.Same q) (text : String) :
    bimap CompileError.variant (List.map Token.standard) (tokensOf p text) =
      bimap CompileError.variant (List.map Token.standard) (tokensOf q text) := by
  have hmoved : ∀ t : Token, (t.moveTo p).standard = (t.moveTo q).standard := by
    intro t
    rw [Token.moveTo, Token.moveTo, Token.standard, Token.standard, Position.moveTo,
      Position.moveTo, Position.standard, Position.standard, Path.standard_eq_iff.mpr h]
  rw [tokensOf, tokensOf, SourceUnit.ofText, SourceUnit.ofText, checkExtension, checkExtension,
    h.extension]
  split
  · -- the tokens of either unit are those of one of them, moved
    change bimap _ _ ((tokenize p (Text.lines text)).mapError _) =
      bimap _ _ ((tokenize q (Text.lines text)).mapError _)
    rw [tokenize_moveTo p q, tokenize_moveTo p p]
    rcases tokenize p (Text.lines text) with ⟨character, position⟩ | ts
    · rfl
    · refine congrArg Except.ok ?_
      rw [List.map_map, List.map_map, List.map_map]
      exact List.map_congr_left fun t _ => hmoved t
  · rfl

theorem Token.standard_eq_iff {t u : Token} : t.standard = u.standard ↔
    t.lexeme = u.lexeme ∧ t.text = u.text ∧ t.position.standard = u.position.standard := by
  rw [standard, standard, mk.injEq]

/-- Tokens that differ in the spelling of their units make labels that do so. -/
theorem likeness_standard : Likeness (fun t u : Token => t.standard = u.standard)
    (NodeLabel.reposition .standard) := by
  have hlabel : ∀ {t u : Token}, t.standard = u.standard → ∀ kind value,
      NodeLabel.reposition .standard ⟨kind, value, t.position⟩ =
        NodeLabel.reposition .standard ⟨kind, value, u.position⟩ :=
    fun h kind value => congrArg (NodeLabel.mk kind value) (Token.standard_eq_iff.mp h).2.2
  have htext : ∀ {t u : Token}, t.standard = u.standard → t.text = u.text :=
    fun h => (Token.standard_eq_iff.mp h).2.1
  refine ⟨fun h => (Token.standard_eq_iff.mp h).1, hlabel, ?_, ?_, ?_⟩
  · intro t u h _ kind
    rw [htext h]
    exact hlabel h kind _
  · intro t u h _
    rw [htext h]
    exact hlabel h .number _
  · intro t u ts us h hs
    have htexts : ts.map (·.text) = us.map (·.text) := by
      rw [← List.forall₂_eq_eq_eq, List.forall₂_map_left_iff, List.forall₂_map_right_iff]
      exact hs.imp fun _ _ htu => htext htu.1
    rw [List.map_cons, List.map_cons, htext h.1, htexts]
    exact hlabel h.1 .path _

/-- **The same tokens make the same statements in all units**, apart from spellings. -/
theorem parse_respelled (h : tokens.map Token.standard = tokens'.map Token.standard) :
    bimap SyntaxError.variant (fun f => f.tree?.map SyntaxTree.statements) (parse p tokens) =
      bimap SyntaxError.variant (fun f => f.tree?.map SyntaxTree.statements) (parse q tokens') := by
  have hlike : List.Forall₂ (fun t u : Token => t.standard = u.standard) tokens tokens' := by
    rwa [← List.forall₂_eq_eq_eq, List.forall₂_map_left_iff, List.forall₂_map_right_iff] at h
  have hlexemes : List.Forall₂ (fun t u : Token => t.lexeme = u.lexeme) tokens tokens' :=
    hlike.imp fun _ _ htu => likeness_standard.lexeme htu
  have hkind : NodeLabel.kind ⟨.program, p.text, .start p⟩ =
      NodeLabel.kind ⟨.program, q.text, .start q⟩ := rfl
  rcases likeness_lexeme.parse hlexemes hkind with ⟨f, f', hf, hf', -⟩ | ⟨e, e', he, he', hvariant⟩
  · rw [hf, hf']
    obtain ⟨d, rfl, htree⟩ := tree?_of_parse hf
    obtain ⟨d', rfl, htree'⟩ := tree?_of_parse hf'
    -- the root of a tree tells its unit, so that the trees are compared in the same one
    obtain ⟨g', hg', hmoved⟩ := parse_tokens p d'
    have hroot : NodeLabel.reposition .standard ⟨.program, p.text, .start p⟩ =
      NodeLabel.reposition .standard ⟨.program, p.text, .start p⟩ := rfl
    rcases likeness_standard.parse hlike hroot with ⟨k, k', hk, hk', htrees⟩ | ⟨e, _, he, -, -⟩
    · obtain rfl := Except.ok.inj (hf.symm.trans hk)
      obtain rfl := Except.ok.inj (hg'.symm.trans hk')
      rw [htree, hmoved] at htrees
      have hchildren := SyntaxTree.children_congr (Option.some.inj htrees)
      refine congrArg Except.ok ?_
      dsimp only
      rw [htree, htree']
      exact congrArg some hchildren
    · rw [hf] at he
      cases he
  · rw [he, he']
    exact congrArg Except.error hvariant.variant

end Texts

namespace Compiler

open CompileM

variable {c : Compiler} {p q : Path}

/-- **Equal units with the same text are compiled in parallel.** -/
theorem parallel_compileNested (hsources : c.sources.Respects) (himages : c.images.Respects)
    (h : p.Same q) (text : String) (room : Nat) :
    Parallel .standard (Outlook.menu .standard) (c.compileNested room p text)
      (c.compileNested room q text) := by
  -- by induction on the room, which gives the step for included units
  induction room generalizing p q text with
  | zero => exact parallel_throw rfl
  | succ room ih =>
    rw [compileNested, compileNested]
    have htokens : Parallel .standard (List.map Token.standard) (lift id (tokensOf p text))
        (lift id (tokensOf q text)) :=
      parallel_lift_of (fun _ _ he => he) (tokensOf_respelled h text)
    refine htokens.bind fun tokens tokens' htokens => ?_
    have hparse : Parallel .standard (fun f => f.tree?.map SyntaxTree.statements)
        (lift .syntactic (parse p tokens)) (lift .syntactic (parse q tokens')) :=
      parallel_lift_of (fun _ _ he => congrArg CompileError.syntactic he) (parse_respelled htokens)
    have hunit : p.standard = q.standard := Path.standard_eq_iff.mpr h
    refine parallel_record.bind fun _ _ _ => hparse.bind fun f f' htree => ?_
    refine parallel_record.bind fun _ _ _ => Parallel.within hunit ?_
    refine parallel_chain.bind fun _ _ _ => parallel_record.bind fun _ _ _ => ?_
    cases hf : f.tree? with
    | none =>
      rw [hf] at htree
      rw [Option.map_eq_none_iff.mp htree.symm]
      exact parallel_throw rfl
    | some t =>
      rw [hf] at htree
      obtain ⟨t', hf', hchildren⟩ := Option.map_eq_some_iff.mp htree.symm
      rw [hf']
      exact parallel_analyzeWith (Outlook.fits_standard hsources himages)
        (fun _ _ text h => ih (Path.standard_eq_iff.mp h) text) hunit hchildren.symm

/-- **Units that are equal as paths are interchangeable.** Let units come from a library and sizes
from a gallery, and compile a text as one of two units whose paths are equal, however they are
spelled. Then both succeed, and the menus are equal, or both fail, and the errors are of the same
variant. Equality of menus compares units as paths and looks at no order in the table. -/
theorem compileUnit_respelled (l : Library) (g : Gallery) (text : String) (chain : List Path)
    {p q : Path} (h : p.Same q) :
    (∃ m m' s s', (ofLibrary l g.images).compileUnit p text (.ofChain chain) = .ok m s ∧
      (ofLibrary l g.images).compileUnit q text (.ofChain chain) = .ok m' s' ∧
      m.same m' = true) ∨
    ∃ e e' s s', (ofLibrary l g.images).compileUnit p text (.ofChain chain) = .error e s ∧
      (ofLibrary l g.images).compileUnit q text (.ofChain chain) = .error e' s' ∧
      e.variant = e'.variant := by
  have hparallel : Parallel .standard (Outlook.menu .standard)
      ((ofLibrary l g.images).compileUnit p text) ((ofLibrary l g.images).compileUnit q text) :=
    parallel_compileNested l.respects g.respects h text _
  refine (hparallel.outcomes chain).imp_left ?_
  rintro ⟨m, m', s, s', hm, hm', hsame⟩
  obtain ⟨hunit, hinstructions, hsymbols⟩ := (Outlook.menu_eq_iff _).mp hsame
  obtain ⟨tree, walk, -, hmade, -⟩ := compileNested_sound hm
  have hwell : m.WellFormed := (Menu.WellFormed.blank p).elaborates hmade
  exact ⟨m, m', s, s', hm, hm',
    hwell.same_of_reposition Position.apart_standard (Path.standard_eq_iff.mp hunit)
      hinstructions hsymbols⟩

/-- A text under two spellings of its unit. -/
theorem compileUnit_respelled_main :
    ∃ m m' s s', pantry.compileUnit ⟨"main.pf"⟩ pantryOrder (.ofChain []) = .ok m s ∧
      pantry.compileUnit ⟨"main.pf//."⟩ pantryOrder (.ofChain []) = .ok m' s' ∧
      m.symbols.names = ["ham", "hot"] ∧ m.same m' = true := by
  obtain ⟨m, s, hm, hnames, -⟩ := pantryOrder_compiles
  have hsame : Path.Same ⟨"main.pf"⟩ ⟨"main.pf//."⟩ := by decide
  rcases compileUnit_respelled _ _ pantryOrder [] hsame with
    ⟨n, m', t, s', hn, hm', heq⟩ | ⟨e, _, t, _, he, -, -⟩
  · obtain ⟨rfl, rfl⟩ := EStateM.Result.ok.inj (hm.symm.trans hn)
    exact ⟨m, m', s, s', hm, hm', hnames, heq⟩
  · exact absurd (hm.symm.trans he) (by simp)

end Compiler

end PizzaLang
