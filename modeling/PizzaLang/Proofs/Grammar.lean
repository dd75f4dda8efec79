import PizzaLang.Proofs.Construction
import PizzaLang.Proofs.Likeness

/-!
# Reading is deriving

The two halves of reading meet: what is read has a derivation
(`PizzaLang.Proofs.Recognition`), and what has a derivation is read, with the tree of the
derivation for a result (`PizzaLang.Proofs.Construction`). Since readers look at lexemes only,
whether some tokens are a program is a matter of their lexemes
(`PizzaLang.Derivation.Derivable`).
-/

namespace PizzaLang

/-- **A sequence of lexemes is derived from the grammar** if it is that of a program. -/
def Derivation.Derivable (lexemes : List Lexeme) : Prop :=
  ∃ d : Derivation.Program, d.tokens.map (·.lexeme) = lexemes

variable {unit : Path} {tokens : List Token}

/-- What is read as a program is derived. -/
theorem exists_derivation_of_parse {f : Forest} (h : parse unit tokens = .ok f) :
    ∃ d : Derivation.Program, d.tokens = tokens := by
  rw [parse, Cursor.readProgram] at h
  split at h
  · next root s hr =>
    obtain ⟨⟨d, hd⟩, hrest⟩ := Reader.after_program (s := .ofTokens unit tokens) rfl hr
    rw [hrest, List.append_nil] at hd
    exact ⟨d, hd.symm⟩
  · next e s hr => cases h

/-- What is derived is read, and the result is the tree of the derivation. -/
theorem parse_tokens (unit : Path) (d : Derivation.Program) :
    ∃ f, parse unit d.tokens = .ok f ∧ f.tree? = some (d.tree unit) := by
  obtain ⟨root, s, hr, f, hs, hplanted⟩ :=
    Reader.runs_program (s := .ofTokens unit d.tokens) (f := .empty) d ⟨rfl, rfl⟩
  refine ⟨s.forest.setRoot root, ?_, ?_⟩
  · rw [parse, Cursor.readProgram, hr]
  · rw [hs.forest]
    exact hplanted.tree

/-- A forest that is read has the tree of a derivation of the tokens. -/
theorem tree?_of_parse {f : Forest} (h : parse unit tokens = .ok f) :
    ∃ d : Derivation.Program, d.tokens = tokens ∧ f.tree? = some (d.tree unit) := by
  obtain ⟨d, rfl⟩ := exists_derivation_of_parse h
  obtain ⟨f', hf', htree⟩ := parse_tokens unit d
  obtain rfl := Except.ok.inj (h.symm.trans hf')
  exact ⟨d, rfl, htree⟩

/-- Tokens with the same lexemes make nodes of the same kinds. -/
theorem likeness_lexeme :
    Likeness (fun t u : Token => t.lexeme = u.lexeme) (fun l : NodeLabel => l.kind) :=
  ⟨fun h => h, fun _ _ _ => rfl, fun _ _ _ => rfl, fun _ _ => rfl, fun _ _ => rfl⟩

/-- Whether tokens are read as a program depends on their lexemes alone. -/
theorem exists_parse_congr {tokens' : List Token} {f : Forest}
    (h : tokens.map (·.lexeme) = tokens'.map (·.lexeme)) (hf : parse unit tokens = .ok f) :
    ∃ f', parse unit tokens' = .ok f' := by
  rw [← List.forall₂_eq_eq_eq, List.forall₂_map_left_iff, List.forall₂_map_right_iff] at h
  rcases likeness_lexeme.parse h rfl with ⟨_, f', -, hf', -⟩ | ⟨e, _, he, -, -⟩
  · exact ⟨f', hf'⟩
  · rw [hf] at he
    cases he

/-- **The parser accepts exactly the grammar.** Tokens make a program if and only if their lexemes
are derived from the grammar; the derivation is then the only one of these tokens, and the tree
of the program is the tree of the derivation. -/
theorem parse_derivation (unit : Path) (tokens : List Token) :
    ((∃ f, parse unit tokens = .ok f) ↔ Derivation.Derivable (tokens.map (·.lexeme))) ∧
    ∀ f, parse unit tokens = .ok f →
      ∃ d : Derivation.Program, d.tokens = tokens ∧ (∀ d', d'.tokens = tokens → d' = d) ∧
        f.tree? = some (d.tree unit) := by
  refine ⟨⟨?_, ?_⟩, ?_⟩
  · rintro ⟨f, hf⟩
    obtain ⟨d, rfl⟩ := exists_derivation_of_parse hf
    exact ⟨d, rfl⟩
  · rintro ⟨d, hd⟩
    obtain ⟨f, hf, -⟩ := parse_tokens unit d
    exact exists_parse_congr hd hf
  · intro f hf
    obtain ⟨d, rfl⟩ := exists_derivation_of_parse hf
    obtain ⟨f', hf', htree⟩ := parse_tokens unit d
    obtain rfl := Except.ok.inj (hf.symm.trans hf')
    exact ⟨d, rfl, fun d' hd' => Derivation.Program.tokens_injective hd', htree⟩

/-- An inclusion whose text comes in two runs. -/
def twoRuns : List Token :=
  [.kwInclude, .quote, .text, .quote, .quote, .text, .quote, .semicolon].map
    fun lexeme => ⟨lexeme, "Ba", default⟩

/-- The inclusion is read as it is derived, and nothing at all is no program. -/
theorem parse_derivation_twoRuns :
    (∃ f, parse ⟨"main.pf"⟩ twoRuns = .ok f ∧ ∃ d : Derivation.Program, d.tokens = twoRuns ∧
      f.tree? = some (d.tree ⟨"main.pf"⟩)) ∧
    ¬Derivation.Derivable [] := by
  constructor
  · have h : (parse ⟨"main.pf"⟩ twoRuns).toBool = true := by decide +kernel
    cases hf : parse ⟨"main.pf"⟩ twoRuns with
    | error e =>
      rw [hf] at h
      cases h
    | ok f =>
      obtain ⟨d, hd, -, htree⟩ := (parse_derivation _ _).2 f hf
      exact ⟨f, rfl, d, hd, htree⟩
  · intro hempty
    obtain ⟨f, hf⟩ := (parse_derivation ⟨"main.pf"⟩ []).1.mpr hempty
    have h : (parse ⟨"main.pf"⟩ []).toBool = false := by decide +kernel
    rw [hf] at h
    cases h

end PizzaLang
