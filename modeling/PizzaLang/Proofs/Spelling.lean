import Mathlib.Data.List.TakeWhile
import Mathlib.Tactic.FinCases
import PizzaLang.Proofs.Outcome
import PizzaLang.Token.Lexing

/-!
# What the tokens of a unit look like

Not every list of tokens is that of a unit. The text of each token is a spelling of its lexeme
(`PizzaLang.Lexeme.Spells`), and quoted texts stand where the quotes put them: a quote opens,
unless a text comes right before it, and a text comes right after a quote that opens and nowhere
else. A text may be empty, and is closed at once then, because the end of a line ends only a text
that has begun.

`PizzaLang.WellSpelled` says this of a list of tokens as a whole. The scanner reads from left to
right and knows of the tokens before it only the mode they leave, so the same thing is said a
second time as a run through the modes (`PizzaLang.Lexing.Mode.Admits`), and
`PizzaLang.wellSpelled_iff` says that the two agree. The tokens of a unit are well spelled
(`PizzaLang.wellSpelled_of_tokenize`).
-/

namespace PizzaLang

/-- **A word**: a character that may start one, and others that may continue it. -/
def Lexing.IsWord (word : String) : Prop :=
  ∃ c cs, word.toList = c :: cs ∧ startsWord c = true ∧ ∀ d ∈ cs, continuesWord d = true

namespace Lexeme

/-- **A text is a spelling of a lexeme.** Reserved words and symbols have one spelling each; names,
texts between quotes and numbers have many. -/
def Spells (text : String) : Lexeme → Prop
  | literal => Lexing.IsWord text ∧ ∀ l ∈ reserved, l.render ≠ text
  | Lexeme.text => '\'' ∉ text.toList
  | number => text.toList ≠ [] ∧ ∀ d ∈ text.toList, d.isDigit = true
  | l => text = l.render

theorem spells_of_mem_reserved {l : Lexeme} {text : String} (hl : l ∈ reserved) :
    l.Spells text ↔ text = l.render := by
  fin_cases hl <;> exact Iff.rfl

theorem spells_of_mem_symbols {l : Lexeme} {text : String} (hl : l ∈ symbols) :
    l.Spells text ↔ text = l.render := by
  fin_cases hl <;> exact Iff.rfl

theorem ofWord?_eq_some_iff {l : Lexeme} {word : String} :
    ofWord? word = some l ↔ l ∈ reserved ∧ l.render = word := by
  constructor
  · intro h
    exact ⟨List.mem_of_find?_eq_some h, by simpa using List.find?_some h⟩
  · rintro ⟨hl, rfl⟩
    fin_cases hl <;> decide

theorem ofWord?_eq_none_iff {word : String} :
    ofWord? word = none ↔ ∀ l ∈ reserved, l.render ≠ word := by
  simp [ofWord?]

end Lexeme

/-- What a token says, wherever it stands. -/
def Token.spelling (t : Token) : Lexeme × String := (t.lexeme, t.text)

/-- **A well-spelled list of tokens**: each text is a spelling of its lexeme, a text comes right
after each quote that opens and nowhere else, and an empty text is closed at once. -/
structure WellSpelled (ts : List Token) : Prop where
  spells : ∀ t ∈ ts, t.lexeme.Spells t.text
  first : ∀ t, ts.head? = some t → t.lexeme ≠ .text
  follows : ∀ before t u after, ts = before ++ t :: u :: after →
    (u.lexeme = .text ↔
      t.lexeme = .quote ∧ ¬∃ p, before.getLast? = some p ∧ p.lexeme = .text)
  closed : ∀ before t after, ts = before ++ t :: after → t.lexeme = .text → t.text = "" →
    ∃ q, after.head? = some q ∧ q.lexeme = .quote

namespace Lexing

/-! ### Running through the modes -/

namespace Mode

/-- The mode after a token, a text or any other. -/
def next (mode : Mode) (lexeme : Lexeme) : Mode :=
  if lexeme = .text then .closing else mode.after lexeme

/-- The mode after some tokens. -/
def run (mode : Mode) (ts : List Token) : Mode := ts.foldl (fun m t => m.next t.lexeme) mode

/-- A token may come in a mode, before some others. -/
structure Takes (mode : Mode) (t : Token) (after : List Token) : Prop where
  spells : t.lexeme.Spells t.text
  text_iff : t.lexeme = .text ↔ mode = .quoted
  closed : t.lexeme = .text → t.text = "" → ∃ q, after.head? = some q ∧ q.lexeme = .quote

/-- **Tokens may come in a mode**, one after the other. -/
def Admits (mode : Mode) : List Token → Prop
  | [] => True
  | t :: ts => mode.Takes t ts ∧ (mode.next t.lexeme).Admits ts

variable {mode : Mode} {lexeme : Lexeme} {t : Token} {ts us : List Token}

theorem next_of_ne (h : lexeme ≠ .text) : mode.next lexeme = mode.after lexeme := if_neg h

theorem next_eq_closing_iff : mode.next lexeme = .closing ↔ lexeme = .text := by
  by_cases h : lexeme = .text
  · simp [next, h]
  · rw [next_of_ne h, after]
    split <;> simp [h]

theorem next_eq_quoted_iff : mode.next lexeme = .quoted ↔ lexeme = .quote ∧ mode ≠ .closing := by
  by_cases h : lexeme = .text
  · simp [next, h]
  · rw [next_of_ne h, after]
    split
    · next hq => exact iff_of_true rfl hq
    · next hq => exact iff_of_false nofun hq

theorem run_append : mode.run (ts ++ us) = (mode.run ts).run us := List.foldl_append

theorem run_concat : mode.run (ts ++ [t]) = (mode.run ts).next t.lexeme := run_append

/-- A quote would close exactly if a text has just been read. -/
theorem run_eq_closing_iff :
    plain.run ts = .closing ↔ ∃ p, ts.getLast? = some p ∧ p.lexeme = .text := by
  rcases List.eq_nil_or_concat ts with rfl | ⟨init, p, rfl⟩
  · simp [run]
  · rw [List.concat_eq_append, run_concat, next_eq_closing_iff]
    simp

theorem Admits.append (h : mode.Admits ts) (h' : (mode.run ts).Admits us) :
    mode.Admits (ts ++ us) := by
  induction ts generalizing mode with
  | nil => exact h'
  | cons t ts ih =>
    obtain ⟨⟨hspells, htext, hclosed⟩, hrest⟩ := h
    refine ⟨⟨hspells, htext, fun ht he => ?_⟩, ih hrest h'⟩
    obtain ⟨q, hq, hquote⟩ := hclosed ht he
    exact ⟨q, List.head?_append.trans (by rw [hq, Option.some_or]), hquote⟩

/-- Tokens may come in a mode exactly if each of them may come in the mode that those before it
leave. -/
theorem admits_iff :
    mode.Admits ts ↔ ∀ before t after, ts = before ++ t :: after →
      (mode.run before).Takes t after := by
  induction ts generalizing mode with
  | nil => simp [Admits]
  | cons t ts ih =>
    rw [Admits, ih]
    constructor
    · rintro ⟨ht, hts⟩ (_ | ⟨b, before⟩) u after heq
      · obtain ⟨rfl, rfl⟩ := List.cons.inj heq
        exact ht
      · obtain ⟨rfl, hrest⟩ := List.cons.inj heq
        exact hts before u after hrest
    · intro h
      exact ⟨h [] t ts rfl, fun before u after heq => h (t :: before) u after (by rw [heq]; rfl)⟩

end Mode

end Lexing

open Lexing in
/-- **Well spelled is what may come from the start.** -/
theorem wellSpelled_iff {ts : List Token} : WellSpelled ts ↔ Mode.plain.Admits ts := by
  rw [Mode.admits_iff]
  constructor
  · intro h before u after heq
    refine ⟨h.spells u (by simp [heq]), ?_, h.closed before u after heq⟩
    -- the token is the first one, or there is one right before it
    rcases List.eq_nil_or_concat before with rfl | ⟨init, t, rfl⟩
    · have hne : u.lexeme ≠ .text := h.first u (by rw [heq]; rfl)
      simp [hne, Mode.run]
    · rw [List.concat_eq_append, Mode.run_concat, Mode.next_eq_quoted_iff, Ne,
        Mode.run_eq_closing_iff]
      exact h.follows init t u after (by simp [heq])
  · intro h
    refine ⟨fun t ht => ?_, fun t ht => ?_, fun before t u after heq => ?_,
      fun before t after heq => (h before t after heq).closed⟩
    · obtain ⟨before, after, heq⟩ := List.append_of_mem ht
      exact (h before t after heq).spells
    · obtain ⟨after, rfl⟩ := List.head?_eq_some_iff.mp ht
      simp [(h [] t after rfl).text_iff, Mode.run]
    · have hu := (h (before ++ [t]) u after (by simp [heq])).text_iff
      rwa [Mode.run_concat, Mode.next_eq_quoted_iff, Ne, Mode.run_eq_closing_iff] at hu

namespace Lexing

/-! ### The scanner -/

variable {unit : Path} {line column : Nat} {mode mode' : Mode} {ts : List Token}

theorem prepend_eq_ok_iff {t : Token} {rest : Except LexError (List Token × Mode)} :
    prepend t rest = .ok (ts, mode') ↔ ∃ us, rest = .ok (us, mode') ∧ ts = t :: us := by
  rcases rest with e | ⟨us, m⟩
  · simp [prepend, Except.map]
  · simp only [prepend, Except.map, Except.ok.injEq, Prod.mk.injEq]
    constructor
    · rintro ⟨rfl, rfl⟩
      exact ⟨us, ⟨rfl, rfl⟩, rfl⟩
    · rintro ⟨_, ⟨rfl, rfl⟩, rfl⟩
      exact ⟨rfl, rfl⟩

/-- Right after a text, a quote is read as such. -/
theorem scanLine_closing_quote (cs : List Char) :
    scanLine unit line .closing column ('\'' :: cs) =
      prepend ⟨.quote, "'", ⟨line, column, unit⟩⟩ (scanLine unit line .plain (column + 1) cs) := by
  have hblank : Text.isBlank '\'' = false := by decide
  have hword : startsWord '\'' = false := by decide
  have hsymbol : Lexeme.ofSymbol? '\'' = some .quote := by decide
  rw [scanLine, if_neg (by decide), if_neg (by simp), if_neg (by simp [hblank]),
    if_neg (by decide), if_neg (by simp [hword]), hsymbol]
  rfl

theorem spells_wordLexeme {c : Char} {cs : List Char} (hc : startsWord c = true)
    (hcs : ∀ d ∈ cs, continuesWord d = true) :
    (wordLexeme (String.ofList (c :: cs))).Spells (String.ofList (c :: cs)) ∧
      wordLexeme (String.ofList (c :: cs)) ≠ .text ∧
      wordLexeme (String.ofList (c :: cs)) ≠ .quote := by
  rw [wordLexeme]
  cases h : Lexeme.ofWord? (String.ofList (c :: cs)) with
  | none =>
    refine ⟨⟨⟨c, cs, String.toList_ofList, hc, hcs⟩, Lexeme.ofWord?_eq_none_iff.mp h⟩, ?_⟩
    exact ⟨nofun, nofun⟩
  | some l =>
    obtain ⟨hl, hrender⟩ := Lexeme.ofWord?_eq_some_iff.mp h
    refine ⟨(Lexeme.spells_of_mem_reserved hl).mpr hrender.symm, ?_⟩
    rw [Option.getD_some]
    exact ⟨by rintro rfl; exact absurd hl (by decide), by rintro rfl; exact absurd hl (by decide)⟩

/-- **What is read keeps to a mode**: its tokens may come in it, and the mode at the end is the one
that they leave. -/
def Mode.Keeps (mode : Mode) : Except LexError (List Token × Mode) → Prop
  | .ok (ts, mode') => mode.Admits ts ∧ mode' = mode.run ts
  | .error _ => True

theorem Mode.Keeps.prepend {t : Token} {rest : Except LexError (List Token × Mode)}
    (h : (mode.next t.lexeme).Keeps rest)
    (ht : ∀ us mode', rest = .ok (us, mode') → mode.Takes t us) :
    mode.Keeps (prepend t rest) := by
  rcases rest with e | ⟨us, mode'⟩
  · trivial
  · exact ⟨⟨ht us mode' rfl, h.1⟩, h.2⟩

/-- **The tokens of a line keep to the mode** in which it is read. -/
theorem keeps_scanLine (cs : List Char) : mode.Keeps (scanLine unit line mode column cs) := by
  fun_induction scanLine unit line mode column cs with
  | case1 mode column => exact ⟨trivial, rfl⟩
  | case2 column c cs position run ih =>
    refine Mode.Keeps.prepend ih fun us mode' hus => ⟨?_, by simp, fun _ hempty => ?_⟩
    · -- what is taken stops at the first quote
      intro hquote
      rw [String.toList_ofList] at hquote
      simpa [isTextChar] using List.mem_takeWhile_imp hquote
    · have hnil : run = [] := by simpa using hempty
      have hc : c = '\'' := by
        by_contra hc
        simp [run, isTextChar, hc] at hnil
      subst hc
      rw [List.dropWhile_cons_of_neg (by simp [isTextChar]), scanLine_closing_quote] at hus
      obtain ⟨vs, -, rfl⟩ := prepend_eq_ok_iff.mp hus
      exact ⟨_, rfl, rfl⟩
  | case3 mode column c cs hmode hcomment => exact ⟨trivial, rfl⟩
  | case4 mode column c cs hmode hcomment hblank ih => exact ih
  | case5 mode column c cs position hmode hcomment hblank hdigit run ih =>
    refine Mode.Keeps.prepend ih fun _ _ _ => ⟨⟨?_, fun d hd => ?_⟩, by simp [hmode], nofun⟩
    · simp [run, hdigit]
    · rw [String.toList_ofList] at hd
      exact List.mem_takeWhile_imp hd
  | case6 mode column c cs position hmode hcomment hblank hdigit hword run word ih =>
    have hcut : run = c :: cs.takeWhile continuesWord :=
      List.takeWhile_cons_of_pos (startsWord_imp_continuesWord hword)
    obtain ⟨hspells, htext, hquote⟩ :=
      spells_wordLexeme hword fun d (hd : d ∈ cs.takeWhile continuesWord) =>
        List.mem_takeWhile_imp hd
    rw [← hcut] at hspells htext hquote
    have hnext : mode.next (wordLexeme word) = .plain := by
      rw [Mode.next_of_ne htext, Mode.after, if_neg fun hc => hquote hc.1]
    refine Mode.Keeps.prepend (hnext ▸ ih) fun _ _ _ => ⟨hspells, ?_, fun ht => absurd ht htext⟩
    exact iff_of_false htext hmode
  | case7 mode column c cs position hmode hcomment hblank hdigit hword symbol hsymbol ih =>
    have hmem : symbol ∈ Lexeme.symbols := List.mem_of_find?_eq_some hsymbol
    have hrender : symbol.render = String.singleton c := by simpa using List.find?_some hsymbol
    have htext : symbol ≠ .text := by
      rintro rfl
      exact absurd hmem (by decide)
    rw [← Mode.next_of_ne htext] at ih ⊢
    refine Mode.Keeps.prepend ih fun _ _ _ => ⟨?_, ?_, fun ht => absurd ht htext⟩
    · exact (Lexeme.spells_of_mem_symbols hmem).mpr hrender.symm
    · exact iff_of_false htext hmode
  | case8 => trivial

theorem admits_of_scanLines {lines : List String} (h : scanLines unit mode line lines = .ok ts) :
    mode.Admits ts := by
  induction lines generalizing mode line ts with
  | nil =>
    obtain rfl := Except.ok.inj h
    trivial
  | cons first rest ih =>
    simp only [scanLines, Fallible.bind_eq_ok_iff, Fallible.pure_eq_ok_iff] at h
    obtain ⟨⟨us, mode₁⟩, hfirst, vs, hrest, rfl⟩ := h
    have hkeeps : mode.Keeps (.ok (us, mode₁)) := hfirst ▸ keeps_scanLine first.toList
    exact hkeeps.1.append (hkeeps.2 ▸ ih hrest)

end Lexing

/-- **The tokens of a unit are well spelled.** -/
theorem wellSpelled_of_tokenize {unit : Path} {lines : List String} {ts : List Token}
    (h : tokenize unit lines = .ok ts) : WellSpelled ts :=
  wellSpelled_iff.mpr (Lexing.admits_of_scanLines h)

end PizzaLang
