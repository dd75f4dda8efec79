import PizzaLang.Proofs.Comparison
import PizzaLang.Proofs.Relocation

/-!
# Layout and letter case do not change what a program means

Blanks, comments and line breaks only show in the positions of tokens, and names are read in small
letters. So two lists of tokens that agree in their lexemes, in their numbers and quoted texts, and
in their names up to letter case, are read alike and mean the same, apart from the lines and columns
that are reported: this is `PizzaLang.Compiler.analyze_alike`.

It is a statement about two compilations, and its proof follows both at once
(`PizzaLang.CompileM.Parallel`). What is seen of them is everything, once positions have been
changed by some function (`PizzaLang.Outlook.repositioned`). Nothing has to be known of the
function. In the end it is `PizzaLang.Position.blur`, which takes lines and columns away.
-/

namespace PizzaLang

open Fallible

variable {f : Position → Position}

/-! ### Two compilations at once -/

theorem CompileM.lift_ok {α ε : Type} {wrap : ε → CompileError} (a : α) :
    lift wrap (.ok a) = pure a := rfl

/-- What is seen if positions are changed, and nothing else. -/
def Outlook.repositioned (f : Position → Position) : Outlook := ⟨id, f, CompileError.reposition f⟩

theorem Outlook.fits_repositioned (f : Position → Position) (c : Compiler) :
    (repositioned f).Fits c where
  semantic h := congrArg CompileError.semantic h
  resource := by
    have hreference : ∀ e, (repositioned f).reference e = e.reposition f := by
      intro e
      cases e <;> rfl
    intro e e' h
    rw [hreference, hreference] at h
    exact congrArg CompileError.resource h
  same := by
    rintro p _ rfl
    rfl
  locate := by
    rintro reference p _ rfl
    rfl
  load := by
    rintro p _ rfl
    rfl
  measure := by
    rintro reference p _ rfl
    rfl

namespace Compiler

open CompileM

variable {c : Compiler} {t t' : SyntaxTree}

/-- **Trees that differ in their positions have menus that differ in their positions.** What is
included is the same in both, for a reference and the chain have no positions. -/
theorem parallel_repositioned {compile : Path → String → CompileM Menu}
    (hcompile : ∀ id text, Blind (compile id text)) {unit : Path}
    (ht : t.reposition f = t'.reposition f) :
    Parallel (.repositioned f) (Menu.reposition f) (c.analyzeWith compile unit (some t))
      (c.analyzeWith compile unit (some t')) := by
  refine parallel_analyzeWith (Outlook.fits_repositioned f c) ?_ rfl (SyntaxTree.children_congr ht)
  rintro id _ text rfl
  refine ⟨hcompile id text, hcompile id text, fun chain chain' hchain => ?_⟩
  obtain rfl : chain = chain' := by simpa [Outlook.repositioned] using hchain
  rfl

/-- Texts whose trees differ in their positions compile to menus that differ in their positions. -/
theorem parallel_compileNested_of_isProgram {unit : Path} {text text' : String}
    (h : IsProgram unit text t) (h' : IsProgram unit text' t')
    (ht : t.reposition f = t'.reposition f) (room : Nat) :
    Parallel (.repositioned f) (Menu.reposition f) (c.compileNested room unit text)
      (c.compileNested room unit text') := by
  obtain ⟨forest, hforest, htree⟩ := h
  obtain ⟨forest', hforest', htree'⟩ := h'
  simp only [forestOf, bind_eq_ok_iff, mapError_eq_ok_iff] at hforest hforest'
  obtain ⟨tokens, htokens, hparse⟩ := hforest
  obtain ⟨tokens', htokens', hparse'⟩ := hforest'
  cases room with
  | zero => exact parallel_throw rfl
  | succ room =>
    -- tokens and forests are known, so what is left to compare is the work on the statements
    rw [compileNested, compileNested, htokens, htokens', lift_ok, lift_ok, pure_bind, pure_bind,
      hparse, hparse', lift_ok, lift_ok, pure_bind, pure_bind, htree, htree']
    refine parallel_record.bind fun _ _ _ => parallel_record.bind fun _ _ _ => ?_
    refine Parallel.within rfl ?_
    refine parallel_chain.bind fun _ _ _ => parallel_record.bind fun _ _ _ => ?_
    exact parallel_repositioned (blind_compileNested room) ht

end Compiler

/-! ### Tokens -/

/-- A position without its line and column, if it is in one of the units. -/
def Position.blur (units : List Path) (p : Position) : Position :=
  if p.unit ∈ units then ⟨0, 0, p.unit⟩ else p

theorem Position.blur_congr {units : List Path} {p q : Position} (h : p.unit = q.unit)
    (hp : p.unit ∈ units) : p.blur units = q.blur units := by
  rw [blur, blur, if_pos hp, if_pos (h ▸ hp), h]

/-- **Tokens that differ in their layout only**, in one of the units: the lexemes agree, and so do
the texts of numbers and of what is quoted, and names and sizes up to letter case. Lines, columns
and all other texts may be anything. -/
structure Token.Alike (units : List Path) (t u : Token) : Prop where
  lexeme : t.lexeme = u.lexeme
  text : t.lexeme ∈ [.text, .number] → t.text = u.text
  name : t.lexeme ∈ [.literal, .kwBig, .kwMedium, .kwPersonal] →
    Text.lower t.text = Text.lower u.text
  unit : t.position.unit = u.position.unit
  mem : t.position.unit ∈ units

instance (units : List Path) (t u : Token) : Decidable (Token.Alike units t u) :=
  decidable_of_iff
    (t.lexeme = u.lexeme ∧ (t.lexeme ∈ [.text, .number] → t.text = u.text) ∧
      (t.lexeme ∈ [.literal, .kwBig, .kwMedium, .kwPersonal] →
        Text.lower t.text = Text.lower u.text) ∧
      t.position.unit = u.position.unit ∧ t.position.unit ∈ units)
    ⟨fun h => ⟨h.1, h.2.1, h.2.2.1, h.2.2.2.1, h.2.2.2.2⟩,
      fun h => ⟨h.lexeme, h.text, h.name, h.unit, h.mem⟩⟩

/-- Tokens alike make nodes with the same kinds and values, in places that look the same. -/
theorem likeness_alike (units : List Path) :
    Likeness (Token.Alike units) (NodeLabel.reposition (.blur units)) where
  lexeme h := h.lexeme
  plain h kind value := by
    rw [NodeLabel.reposition, NodeLabel.reposition, Position.blur_congr h.unit h.mem]
  name h hname kind := by
    rw [NodeLabel.reposition, NodeLabel.reposition, Position.blur_congr h.unit h.mem,
      h.name hname]
  number h hnumber := by
    rw [NodeLabel.reposition, NodeLabel.reposition, Position.blur_congr h.unit h.mem,
      h.text (List.mem_cons_of_mem _ hnumber)]
  path := by
    rintro t u ts us ⟨h, htext⟩ hts
    have hequal : ∀ {t u : Token}, t.Alike units u ∧ t.lexeme ∈ [.text] → t.text = u.text := by
      intro t u htu
      exact htu.1.text (List.mem_cons.mpr (Or.inl (List.mem_singleton.mp htu.2)))
    have htexts : ts.map (·.text) = us.map (·.text) := by
      induction hts with
      | nil => rfl
      | cons htu _ ih => rw [List.map_cons, List.map_cons, ih, hequal htu]
    rw [List.map_cons, List.map_cons, htexts, hequal ⟨h, htext⟩, NodeLabel.reposition,
      NodeLabel.reposition, Position.blur_congr h.unit h.mem]

/-! ### Programs -/

namespace Compiler

open CompileM

/-- What comes out of a compilation, without lines and columns in some units. -/
def blurred (units : List Path) : Except CompileError Menu → Except CompileError Menu :=
  bimap (CompileError.reposition (.blur units)) (Menu.reposition (.blur units))

/-- **Layout and letter case do not change what a program means.** Take two lists of tokens that
differ in their layout only, and let them be read as the same unit.

* Either both make a program. Then the trees are the same, and with the same open units, sources and
  images they have the same menu or fail with the same error, apart from lines and columns in the
  units of the tokens. So do all texts with these tokens.
* Or neither does, and both fail in the same way: where the same was expected, tokens with the same
  lexeme were found, or none. -/
theorem analyze_alike (c : Compiler) (unit : Path) (chain units : List Path)
    (tokens tokens' : List Token) (h : List.Forall₂ (Token.Alike units) tokens tokens') :
    (∃ forest forest' tree tree',
      parse unit tokens = .ok forest ∧ parse unit tokens' = .ok forest' ∧
      forest.tree? = some tree ∧ forest'.tree? = some tree' ∧
      tree.reposition (.blur units) = tree'.reposition (.blur units) ∧
      blurred units ((c.analyze unit forest.tree?).answer chain) =
        blurred units ((c.analyze unit forest'.tree?).answer chain) ∧
      ∀ text text', tokensOf unit text = .ok tokens → tokensOf unit text' = .ok tokens' →
        blurred units ((c.compileUnit unit text).answer chain) =
          blurred units ((c.compileUnit unit text').answer chain)) ∨
    ∃ e e', parse unit tokens = .error e ∧ parse unit tokens' = .error e' ∧
      SyntaxError.Like (Token.Alike units) e e' := by
  rcases (likeness_alike units).parse h rfl with
    ⟨forest, forest', hparse, hparse', htrees⟩ | ⟨e, e', he, he', hlike⟩
  · obtain ⟨d, -, htree⟩ := tree?_of_parse hparse
    obtain ⟨d', -, htree'⟩ := tree?_of_parse hparse'
    rw [htree, htree'] at htrees
    have ht : (d.tree unit).reposition (.blur units) = (d'.tree unit).reposition (.blur units) :=
      Option.some.inj htrees
    refine Or.inl ⟨forest, forest', _, _, hparse, hparse', htree, htree', ht, ?_, ?_⟩
    · rw [htree, htree']
      exact (parallel_repositioned (blind_compileNested c.limit) ht).answers chain chain rfl
    · intro text text' htokens htokens'
      have hprogram : IsProgram unit text (d.tree unit) :=
        ⟨forest, by rw [forestOf, htokens]; exact mapError_eq_ok_iff.mpr hparse, htree⟩
      have hprogram' : IsProgram unit text' (d'.tree unit) :=
        ⟨forest', by rw [forestOf, htokens']; exact mapError_eq_ok_iff.mpr hparse', htree'⟩
      have hparallel := parallel_compileNested_of_isProgram (c := c) hprogram hprogram' ht c.limit
      exact hparallel.answers chain chain rfl
  · exact Or.inr ⟨e, e', he, he', hlike⟩

/-- The order of the small supply, over several lines, with comments and capitals. -/
def pantryOrderAtLength : String :=
  "include // both units\n'menu'\n;\n\tmake big pizza of HOT\r\n add Ham (1) and HAM(2) ; // done"

/-- Written at length the order has its tokens on other lines, and means the same. -/
theorem analyze_alike_pantry :
    ∃ tokens tokens' m m',
      tokensOf ⟨"main.pf"⟩ pantryOrder = .ok tokens ∧
      tokensOf ⟨"main.pf"⟩ pantryOrderAtLength = .ok tokens' ∧
      tokens.map (·.position.line) ≠ tokens'.map (·.position.line) ∧
      List.Forall₂ (Token.Alike [⟨"main.pf"⟩]) tokens tokens' ∧
      (pantry.compileUnit ⟨"main.pf"⟩ pantryOrder).answer [] = .ok m ∧
      (pantry.compileUnit ⟨"main.pf"⟩ pantryOrderAtLength).answer [] = .ok m' ∧
      m.symbols.names = ["ham", "hot"] ∧ m.instructions.length = 2 ∧
      m.reposition (.blur [⟨"main.pf"⟩]) = m'.reposition (.blur [⟨"main.pf"⟩]) := by
  have h : (tokensOf ⟨"main.pf"⟩ pantryOrder).toOption.any (fun tokens =>
      (parse ⟨"main.pf"⟩ tokens).toOption.isSome &&
        (tokensOf ⟨"main.pf"⟩ pantryOrderAtLength).toOption.any fun tokens' =>
          tokens.map (·.position.line) ≠ tokens'.map (·.position.line) ∧
            List.Forall₂ (Token.Alike [⟨"main.pf"⟩]) tokens tokens') = true := by
    decide +kernel
  obtain ⟨tokens, htokens, htests⟩ := exists_of_any h
  obtain ⟨hparsed, htests⟩ := Bool.and_eq_true_iff.mp htests
  obtain ⟨tokens', htokens', htest⟩ := exists_of_any htests
  obtain ⟨hlines, halike⟩ := of_decide_eq_true htest
  obtain ⟨m, s, hrun, hnames, hlength, -⟩ := pantryOrder_compiles
  have hm : (pantry.compileUnit ⟨"main.pf"⟩ pantryOrder).answer [] = .ok m :=
    (blind_compileNested _ _ _).answer_eq_ok_iff.mpr ⟨s, hrun⟩
  rcases analyze_alike pantry ⟨"main.pf"⟩ [] _ tokens tokens' halike with
    ⟨_, _, _, _, -, -, -, -, -, -, hsame⟩ | ⟨e, _, he, -, -⟩
  · have hsame := hsame _ _ htokens htokens'
    rw [hm] at hsame
    cases hm' : (pantry.compileUnit ⟨"main.pf"⟩ pantryOrderAtLength).answer [] with
    | ok m' =>
      rw [hm'] at hsame
      exact ⟨tokens, tokens', m, m', htokens, htokens', hlines, halike, hm, rfl, hnames, hlength,
        Except.ok.inj hsame⟩
    | error e =>
      rw [hm'] at hsame
      cases hsame
  · rw [he] at hparsed
    cases hparsed

end Compiler

end PizzaLang
