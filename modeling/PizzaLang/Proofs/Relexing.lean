import PizzaLang.Proofs.Spelling

/-!
# Writing tokens and reading them again

Tokens that are well spelled can be written down so that they are read again as they were. A space
between two tokens keeps them apart, so that neither goes on in the other and two slashes are not
taken for a comment. Around a text nothing may be added, since it would be read as part of the
text; a text that no quote closes is ended by the end of its line.

* `PizzaLang.layOut`: the lines on which tokens are written;
* `PizzaLang.Lexing.scanLine_token`: a token is read as it is spelled, if what comes after it does
  not go on with it;
* `PizzaLang.tokenize_image`: well spelled is exactly what units can have for tokens.
-/

namespace PizzaLang

/-! ### Classes of characters -/

namespace Text

variable {c : Char}

/-- Ranges without a common code point. -/
def apartRanges (ranges others : List CodeRange) : Bool :=
  ranges.all fun r => others.all fun q => r.2 < q.1 || q.2 < r.1

theorem inRanges_of_apart {ranges others : List CodeRange} (h : apartRanges ranges others = true)
    (hc : inRanges ranges c = true) : inRanges others c = false := by
  simp only [apartRanges, List.all_eq_true, Bool.or_eq_true, decide_eq_true_eq] at h
  simp only [inRanges, List.any_eq_true, Bool.and_eq_true, decide_eq_true_eq] at hc
  obtain ⟨r, hr, hfirst, hlast⟩ := hc
  simp only [inRanges, List.any_eq_false, Bool.and_eq_true, decide_eq_true_eq, not_and]
  intro q hq hfirst'
  rcases h r hr q hq with hbefore | hafter
  · omega
  · omega

/-- The ranges of alphabetic characters, ASCII among them. -/
def letterRanges : List CodeRange := (0x41, 0x5A) :: (0x61, 0x7A) :: alphabeticRanges

theorem inRanges_of_isAlphabetic (h : isAlphabetic c = true) : inRanges letterRanges c = true := by
  rw [letterRanges, inRanges, List.any_cons, List.any_cons]
  rw [isAlphabetic] at h
  split at h
  · have hletter : 0x41 ≤ c.toNat ∧ c.toNat ≤ 0x5A ∨ 0x61 ≤ c.toNat ∧ c.toNat ≤ 0x7A := by
      change (decide (c.val ≥ 'A'.val ∧ c.val ≤ 'Z'.val) ||
        (decide (c.val ≥ 'a'.val) && decide (c.val ≤ 'z'.val))) = true at h
      simpa [UInt32.le_iff_toNat_le, ← Char.toNat_val] using h
    rcases hletter with hletter | hletter
    · simp [hletter]
    · simp [hletter]
  · rw [inRanges] at h
    simp [h]

theorem isDigit_eq : c.isDigit = inRanges [(0x30, 0x39)] c := by
  simp [Char.isDigit, inRanges, UInt32.le_iff_toNat_le, ← Char.toNat_val]

end Text

namespace Lexing

variable {c : Char}

theorem isBlank_of_startsWord (h : startsWord c = true) : Text.isBlank c = false := by
  have hapart : Text.apartRanges Text.letterRanges Text.blankRanges = true := by decide +kernel
  rw [startsWord, Bool.or_eq_true, decide_eq_true_eq] at h
  rcases h with h | rfl
  · exact Text.inRanges_of_apart hapart (Text.inRanges_of_isAlphabetic h)
  · decide

theorem isDigit_of_startsWord (h : startsWord c = true) : c.isDigit = false := by
  have hapart : Text.apartRanges Text.letterRanges [(0x30, 0x39)] = true := by decide +kernel
  rw [startsWord, Bool.or_eq_true, decide_eq_true_eq] at h
  rcases h with h | rfl
  · rw [Text.isDigit_eq]
    exact Text.inRanges_of_apart hapart (Text.inRanges_of_isAlphabetic h)
  · decide

theorem isBlank_of_isDigit (h : c.isDigit = true) : Text.isBlank c = false := by
  rw [Text.isDigit_eq] at h
  exact Text.inRanges_of_apart (by decide) h

/-! ### A token and what comes after it -/

variable {unit : Path} {line column : Nat} {mode : Mode} {rest : List Char} {p : Char → Bool}

/-- The characters do not go on with a run of some sort. -/
def Ends (p : Char → Bool) (rest : List Char) : Prop := ∀ c, rest.head? = some c → p c = false

theorem takeWhile_of_ends {cs : List Char} (hcs : ∀ d ∈ cs, p d = true) (h : Ends p rest) :
    (cs ++ rest).takeWhile p = cs := by
  rw [List.takeWhile_append_of_pos hcs]
  cases rest with
  | nil => simp
  | cons d rest => simp [h d rfl]

theorem dropWhile_of_ends {cs : List Char} (hcs : ∀ d ∈ cs, p d = true) (h : Ends p rest) :
    (cs ++ rest).dropWhile p = rest := by
  rw [List.dropWhile_append_of_pos hcs]
  cases rest with
  | nil => rfl
  | cons d rest => simp [h d rfl]

theorem scanLine_text {cs : List Char} (hcs : '\'' ∉ cs) (hends : Ends isTextChar rest)
    (hne : cs ++ rest ≠ []) :
    scanLine unit line .quoted column (cs ++ rest) =
      prepend ⟨.text, String.ofList cs, ⟨line, column, unit⟩⟩
        (scanLine unit line .closing (column + cs.length) rest) := by
  have hall : ∀ d ∈ cs, isTextChar d = true := by
    rintro d hd
    simp only [isTextChar, ne_eq, decide_eq_true_eq]
    rintro rfl
    exact hcs hd
  have htake := takeWhile_of_ends hall hends
  have hdrop := dropWhile_of_ends hall hends
  obtain ⟨c, ds, hcons⟩ := List.exists_cons_of_ne_nil hne
  rw [hcons] at htake hdrop ⊢
  rw [scanLine, if_pos rfl, htake, hdrop]

theorem scanLine_number {c : Char} {cs : List Char} (hmode : mode ≠ .quoted)
    (hc : ∀ d ∈ c :: cs, d.isDigit = true) (hends : Ends Char.isDigit rest) :
    scanLine unit line mode column (c :: cs ++ rest) =
      prepend ⟨.number, String.ofList (c :: cs), ⟨line, column, unit⟩⟩
        (scanLine unit line .plain (column + (c :: cs).length) rest) := by
  have hdigit : c.isDigit = true := hc c List.mem_cons_self
  have hslash : c ≠ '/' := by
    rintro rfl
    exact absurd hdigit (by decide)
  have htake := takeWhile_of_ends hc hends
  have hdrop := dropWhile_of_ends hc hends
  rw [List.cons_append] at htake hdrop ⊢
  rw [scanLine, if_neg hmode, if_neg fun h => hslash h.1,
    if_neg (by simp [isBlank_of_isDigit hdigit]), if_pos hdigit, htake, hdrop]

theorem scanLine_word {c : Char} {cs : List Char} (hmode : mode ≠ .quoted)
    (hc : startsWord c = true) (hcs : ∀ d ∈ cs, continuesWord d = true)
    (hends : Ends continuesWord rest) :
    scanLine unit line mode column (c :: cs ++ rest) =
      prepend ⟨wordLexeme (String.ofList (c :: cs)), String.ofList (c :: cs), ⟨line, column, unit⟩⟩
        (scanLine unit line .plain (column + (c :: cs).length) rest) := by
  have hslash : c ≠ '/' := by
    rintro rfl
    exact absurd hc (by decide)
  have hall : ∀ d ∈ c :: cs, continuesWord d = true :=
    List.forall_mem_cons.mpr ⟨startsWord_imp_continuesWord hc, hcs⟩
  have htake := takeWhile_of_ends hall hends
  have hdrop := dropWhile_of_ends hall hends
  rw [List.cons_append] at htake hdrop ⊢
  rw [scanLine, if_neg hmode, if_neg fun h => hslash h.1,
    if_neg (by simp [isBlank_of_startsWord hc]), if_neg (by simp [isDigit_of_startsWord hc]),
    if_pos hc, htake, hdrop]

/-- A symbol is a character that nothing else starts with. -/
theorem exists_render_of_mem_symbols {l : Lexeme} (hl : l ∈ Lexeme.symbols) :
    ∃ c, l.render = String.singleton c ∧ Lexeme.ofSymbol? c = some l ∧ Text.isBlank c = false ∧
      c.isDigit = false ∧ startsWord c = false ∧ (c = '/' → l = .divide) := by
  -- the characters are tried as a list, so that no instance runs through all of them
  have h : ∀ l ∈ Lexeme.symbols, ("+-*/()\x7b\x7d;'".toList.any fun c =>
      l.render = String.singleton c ∧ Lexeme.ofSymbol? c = some l ∧ Text.isBlank c = false ∧
        c.isDigit = false ∧ startsWord c = false ∧ (c = '/' → l = .divide)) = true := by
    decide +kernel
  obtain ⟨c, -, hc⟩ := List.any_eq_true.mp (h l hl)
  exact ⟨c, of_decide_eq_true hc⟩

theorem scanLine_symbol {l : Lexeme} (hmode : mode ≠ .quoted) (hl : l ∈ Lexeme.symbols)
    (hends : l = .divide → rest.head? ≠ some '/') :
    scanLine unit line mode column (l.render.toList ++ rest) =
      prepend ⟨l, l.render, ⟨line, column, unit⟩⟩
        (scanLine unit line (mode.after l) (column + l.render.toList.length) rest) := by
  obtain ⟨c, hrender, hsymbol, hblank, hdigit, hword, hslash⟩ := exists_render_of_mem_symbols hl
  rw [hrender, String.toList_singleton, List.singleton_append]
  rw [scanLine, if_neg hmode, if_neg fun h => hends (hslash h.1) h.2, if_neg (by simp [hblank]),
    if_neg (by simp [hdigit]), if_neg (by simp [hword]), hsymbol]
  rfl

/-- Nothing that comes after a token goes on with it: after a text there is a quote, after a symbol
other than a quote, a number or a word there is a space, or there is nothing. -/
def Stands (t : Token) (rest : List Char) : Prop :=
  t.lexeme = .quote ∨ ∀ c, rest.head? = some c → c = if t.lexeme = .text then '\'' else ' '

theorem Stands.ends {t : Token} (h : Stands t rest) (hquote : t.lexeme ≠ .quote)
    (htext : t.lexeme ≠ .text) (hp : p ' ' = false) : Ends p rest := by
  intro c hc
  have hspace := (h.resolve_left hquote) c hc
  rw [if_neg htext] at hspace
  rwa [hspace]

/-- The lexemes of words are the reserved words, and names. -/
theorem word_of_spells {l : Lexeme} {text : String} (hl : l ∈ Lexeme.reserved ∨ l = .literal)
    (h : l.Spells text) :
    (∃ c cs, text.toList = c :: cs ∧ startsWord c = true ∧ ∀ d ∈ cs, continuesWord d = true) ∧
      wordLexeme text = l := by
  rcases hl with hl | rfl
  · have hwords : ∀ l ∈ Lexeme.reserved, (l.render.toList.head?.any startsWord) = true ∧
        l.render.toList.tail.all continuesWord = true := by decide +kernel
    obtain ⟨hhead, htail⟩ := hwords l hl
    rw [List.all_eq_true] at htail
    obtain rfl := (Lexeme.spells_of_mem_reserved hl).mp h
    constructor
    · cases hrender : l.render.toList with
      | nil => simp [hrender] at hhead
      | cons c cs =>
        rw [hrender] at hhead htail
        exact ⟨c, cs, rfl, hhead, htail⟩
    · rw [wordLexeme, Lexeme.ofWord?_eq_some_iff.mpr ⟨hl, rfl⟩, Option.getD_some]
  · exact ⟨h.1, by rw [wordLexeme, Lexeme.ofWord?_eq_none_iff.mpr h.2]; rfl⟩

theorem lexeme_cases (l : Lexeme) :
    l = .text ∨ l = .number ∨ l ∈ Lexeme.symbols ∨ l ∈ Lexeme.reserved ∨ l = .literal := by
  cases l <;> decide

/-- **A token is read as it is spelled**, if nothing that comes after it goes on with it. -/
theorem scanLine_token {t : Token} {after : List Token} (ht : mode.Takes t after)
    (hrest : Stands t rest) (hne : t.lexeme = .text → t.text.toList ++ rest ≠ []) :
    scanLine unit line mode column (t.text.toList ++ rest) =
      prepend ⟨t.lexeme, t.text, ⟨line, column, unit⟩⟩
        (scanLine unit line (mode.next t.lexeme) (column + t.text.toList.length) rest) := by
  obtain ⟨lexeme, text, position⟩ := t
  obtain ⟨hspells, htext, -⟩ := ht
  dsimp only at hspells htext hrest hne ⊢
  rcases lexeme_cases lexeme with rfl | rfl | hl | hl
  · obtain rfl := htext.mp rfl
    have hends : Ends isTextChar rest := by
      intro c hc
      rw [hrest.resolve_left nofun c hc]
      rfl
    rw [scanLine_text hspells hends (hne rfl), String.ofList_toList]
    rfl
  · obtain ⟨c, cs, hcons⟩ := List.exists_cons_of_ne_nil hspells.1
    have hends : Ends Char.isDigit rest := hrest.ends nofun nofun rfl
    have hmode : mode ≠ .quoted := fun h => nomatch htext.mpr h
    rw [hcons, scanLine_number hmode (hcons ▸ hspells.2) hends, ← hcons, String.ofList_toList]
    rfl
  · obtain rfl := (Lexeme.spells_of_mem_symbols hl).mp hspells
    have hne : lexeme ≠ .text := by
      rintro rfl
      exact absurd hl (by decide)
    rw [Mode.next_of_ne hne]
    refine scanLine_symbol (fun h => hne (htext.mpr h)) hl ?_
    rintro rfl hslash
    have hspace : '/' = ' ' := hrest.resolve_left nofun _ hslash
    exact absurd hspace (by decide)
  · obtain ⟨⟨c, cs, hcons, hc, hcs⟩, hword⟩ := word_of_spells hl hspells
    have hne : lexeme ≠ .text ∧ lexeme ≠ .quote := by
      constructor
      · rintro rfl
        exact absurd hl (by decide)
      · rintro rfl
        exact absurd hl (by decide)
    have hends : Ends continuesWord rest := hrest.ends hne.2 hne.1 (by decide)
    have hmode : mode ≠ .quoted := fun h => hne.1 (htext.mpr h)
    have hnext : mode.next lexeme = .plain := by
      rw [Mode.next_of_ne hne.1, Mode.after, if_neg fun h => hne.2 h.1]
    rw [hcons, scanLine_word hmode hc hcs hends, ← hcons, String.ofList_toList, hword, hnext]

end Lexing

/-! ### Writing tokens -/

/-- What is written between a token and the next. -/
inductive Gap
  | nothing | space | lineBreak

/-- **What is written after a token**, before the next one if there is one: one space, but nothing
before a text or between a text and a quote, and a new line after a text that no quote closes. -/
def gapAfter (t : Token) : Option Token → Gap
  | none => if t.lexeme = .text then .lineBreak else .nothing
  | some u =>
    if t.lexeme = .text then if u.lexeme = .quote then .nothing else .lineBreak
    else if u.lexeme = .text then .nothing else .space

/-- The line on which tokens start, and the lines that follow it. -/
def write : List Token → List Char × List (List Char)
  | [] => ([], [])
  | t :: ts =>
    let (line, lines) := write ts
    match gapAfter t ts.head? with
    | .nothing => (t.text.toList ++ line, lines)
    | .space => (t.text.toList ++ ' ' :: line, lines)
    | .lineBreak => (t.text.toList, line :: lines)

/-- **The lines on which tokens are written.** -/
def layOut (ts : List Token) : List String :=
  ((write ts).1 :: (write ts).2).map String.ofList

namespace Lexing

variable {unit : Path} {line column : Nat} {mode : Mode} {ts : List Token}

/-- What is written is read as tokens that are spelled like the given ones. -/
def Reads (unit : Path) (mode : Mode) (line column : Nat)
    (written : List Char × List (List Char)) (ts : List Token) : Prop :=
  ∃ us mode' vs, scanLine unit line mode column written.1 = .ok (us, mode') ∧
    scanLines unit mode' (line + 1) (written.2.map String.ofList) = .ok vs ∧
    (us ++ vs).map Token.spelling = ts.map Token.spelling

theorem Reads.token {t : Token} {rest : List Char} {lines : List (List Char)}
    (h : Reads unit (mode.next t.lexeme) line (column + t.text.toList.length) (rest, lines) ts)
    (ht : mode.Takes t ts) (hrest : Stands t rest)
    (hne : t.lexeme = .text → t.text.toList ++ rest ≠ []) :
    Reads unit mode line column (t.text.toList ++ rest, lines) (t :: ts) := by
  obtain ⟨us, mode', vs, hus, hvs, hspelling⟩ := h
  refine ⟨⟨t.lexeme, t.text, ⟨line, column, unit⟩⟩ :: us, mode', vs, ?_, hvs, ?_⟩
  · rw [scanLine_token ht hrest hne, hus]
    rfl
  · rw [List.cons_append, List.map_cons, hspelling]
    rfl

theorem Reads.space {rest : List Char} {lines : List (List Char)}
    (h : Reads unit mode line (column + 1) (rest, lines) ts) (hmode : mode ≠ .quoted) :
    Reads unit mode line column (' ' :: rest, lines) ts := by
  obtain ⟨us, mode', vs, hus, hvs, hspelling⟩ := h
  refine ⟨us, mode', vs, ?_, hvs, hspelling⟩
  rw [scanLine, if_neg hmode, if_neg (by simp), if_pos (by decide), hus]

theorem Reads.lineBreak {first : List Char} {lines : List (List Char)}
    (h : Reads unit mode (line + 1) 1 (first, lines) ts) :
    Reads unit mode line column ([], first :: lines) ts := by
  obtain ⟨us, mode', vs, hus, hvs, hspelling⟩ := h
  refine ⟨[], mode, us ++ vs, by rw [scanLine], ?_, hspelling⟩
  rw [List.map_cons, scanLines, String.toList_ofList, hus]
  simp only [bind, Except.bind, hvs]
  rfl

/-- A quote that tokens start with is the first character they are written with. -/
theorem head?_write_quote {q : Token} (hq : q.lexeme = .quote) (hspells : q.lexeme.Spells q.text) :
    (write (q :: ts)).1.head? = some '\'' := by
  rw [hq] at hspells
  have htext : q.text.toList = ['\''] := by
    rw [show q.text = "'" from hspells]
    rfl
  simp only [write]
  split <;> simp [htext]

/-- **What is written is read again**, from whatever mode the tokens may come in. -/
theorem reads_write (h : mode.Admits ts) (line column : Nat) :
    Reads unit mode line column (write ts) ts := by
  induction ts generalizing mode line column with
  | nil => exact ⟨[], mode, [], by rw [write, scanLine], rfl, rfl⟩
  | cons t ts ih =>
    obtain ⟨ht, hts⟩ := h
    rw [write]
    by_cases htext : t.lexeme = .text
    · by_cases hquote : ∃ q, ts.head? = some q ∧ q.lexeme = .quote
      · -- the text is closed by the quote that is written right after it
        obtain ⟨q, hq, hquote⟩ := hquote
        have hgap : gapAfter t ts.head? = .nothing := by
          rw [hq, gapAfter, if_pos htext, if_pos hquote]
        obtain ⟨us, rfl⟩ := List.head?_eq_some_iff.mp hq
        have hhead : (write (q :: us)).1.head? = some '\'' := head?_write_quote hquote hts.1.spells
        rw [hgap]
        refine (ih hts line _).token ht (Or.inr fun c hc => ?_) fun _ hnil => ?_
        · rw [if_pos htext]
          exact Option.some.inj (hc.symm.trans hhead)
        · have hempty : (write (q :: us)).1 = [] := (List.append_eq_nil_iff.mp hnil).2
          rw [hempty] at hhead
          cases hhead
      · -- the text is cut off by the end of the line, so it is not empty
        have hgap : gapAfter t ts.head? = .lineBreak := by
          cases hhead : ts.head? with
          | none => rw [gapAfter, if_pos htext]
          | some u => rw [gapAfter, if_pos htext, if_neg fun hu => hquote ⟨u, hhead, hu⟩]
        have hne : t.text.toList ≠ [] := fun hnil =>
          hquote (ht.closed htext (String.toList_eq_nil_iff.mp hnil))
        rw [hgap]
        have hbreak : Reads unit (mode.next t.lexeme) line (column + t.text.toList.length)
            ([], (write ts).1 :: (write ts).2) ts := (ih hts (line + 1) 1).lineBreak
        have hread := hbreak.token ht (Or.inr (by simp)) (by simp [hne])
        rwa [List.append_nil] at hread
    · cases ts with
      | nil =>
        rw [List.head?_nil, gapAfter, if_neg htext]
        exact (ih hts line _).token ht (Or.inr (by simp)) fun h => absurd h htext
      | cons u us =>
        -- the mode after the token tells whether a text comes next
        have hnext := hts.1.text_iff
        rw [Mode.next_eq_quoted_iff] at hnext
        rw [List.head?_cons, gapAfter, if_neg htext]
        by_cases hu : u.lexeme = .text
        · rw [if_pos hu]
          exact (ih hts line _).token ht (Or.inl (hnext.mp hu).1) fun h => absurd h htext
        · rw [if_neg hu]
          have hmode : mode.next t.lexeme ≠ .quoted := fun h =>
            hu (hnext.mpr (Mode.next_eq_quoted_iff.mp h))
          refine ((ih hts line _).space hmode).token ht (Or.inr fun c hc => ?_) fun h =>
            absurd h htext
          rw [if_neg htext]
          exact (Option.some.inj hc).symm

end Lexing

/-- **The image of the lexer.** The tokens of a unit are well spelled, and all that are well spelled
are the tokens of some unit: written down, they are read again with the same lexemes and texts. -/
theorem tokenize_image (unit : Path) :
    (∀ lines ts, tokenize unit lines = .ok ts → WellSpelled ts) ∧
    ∀ ts, WellSpelled ts → ∃ us, tokenize unit (layOut ts) = .ok us ∧
      us.map Token.spelling = ts.map Token.spelling := by
  refine ⟨fun lines ts h => wellSpelled_of_tokenize h, fun ts h => ?_⟩
  have hreads : Lexing.Reads unit .plain 1 1 (write ts) ts :=
    Lexing.reads_write (wellSpelled_iff.mp h) 1 1
  obtain ⟨us, mode, vs, hus, hvs, hspelling⟩ := hreads
  refine ⟨us ++ vs, ?_, hspelling⟩
  rw [tokenize, layOut, List.map_cons, Lexing.scanLines, String.toList_ofList, hus]
  simp only [bind, Except.bind, hvs]
  rfl

/-- Lines with a text that is cut off and closed on the next line, an empty text, two divisions in a
row, a comment, and a quote that nothing follows. -/
def cutTexts : List String := ["save as 'a//b", "' '' / / 7 _x // end", "'"]

/-- The tokens of these lines, written again and read again. -/
theorem tokenize_image_cutTexts :
    ∃ ts us, tokenize ⟨"main.pf"⟩ cutTexts = .ok ts ∧
      ts.map (·.text) = ["save", "as", "'", "a//b", "'", "'", "", "'", "/", "/", "7", "_x", "'"] ∧
      WellSpelled ts ∧ layOut ts = ["save as 'a//b' '' / / 7 _x '"] ∧
      tokenize ⟨"main.pf"⟩ (layOut ts) = .ok us ∧
      us.map Token.spelling = ts.map Token.spelling := by
  have h : (tokenize ⟨"main.pf"⟩ cutTexts).toOption.any (fun ts =>
      ts.map (·.text) = ["save", "as", "'", "a//b", "'", "'", "", "'", "/", "/", "7", "_x", "'"] ∧
        layOut ts = ["save as 'a//b' '' / / 7 _x '"]) = true := by
    decide +kernel
  cases hts : tokenize ⟨"main.pf"⟩ cutTexts with
  | error e =>
    rw [hts] at h
    cases h
  | ok ts =>
    rw [hts] at h
    obtain ⟨htexts, hlayOut⟩ := of_decide_eq_true h
    have hspelled := (tokenize_image _).1 _ ts hts
    obtain ⟨us, hus, hspelling⟩ := (tokenize_image ⟨"main.pf"⟩).2 ts hspelled
    exact ⟨ts, us, rfl, htexts, hspelled, hlayOut, hus, hspelling⟩

end PizzaLang
