import PizzaLang.Proofs.Relexing

/-!
# Where words stand

A position points at a place of a text: a line and a column. Where a token is a reserved word or a
name, a word stands in that place, and it is a whole one: the characters next to it do not go on
with it. On the right this is because words are read as far as they go. On the left there is one
exception, since a number may be followed by a word right away; so the token in front of the word
must not be a number (`PizzaLang.holdsWord_of_tokenize`).
-/

namespace PizzaLang

namespace Lexing

variable {c : Char} {p : Char → Bool} {cs : List Char}

/-! ### Characters of words -/

/-- A character of a word starts words or is numeric. -/
theorem startsWord_or_of_continuesWord (h : continuesWord c = true) :
    startsWord c = true ∨ Text.isNumeric c = true := by
  simp only [continuesWord, startsWord, Text.isAlphanumeric, Bool.or_eq_true] at *
  tauto

/-- Blanks are not part of words. -/
theorem continuesWord_of_isBlank (h : Text.isBlank c = true) : continuesWord c = false := by
  have hapart : Text.apartRanges Text.numericRanges Text.blankRanges = true := by decide +kernel
  by_contra hc
  have hfalse : Text.isBlank c = false := by
    rcases startsWord_or_of_continuesWord (eq_true_of_ne_false hc) with hword | hnumeric
    · exact isBlank_of_startsWord hword
    · rw [Text.isNumeric] at hnumeric
      split at hnumeric
      · exact isBlank_of_isDigit hnumeric
      · exact Text.inRanges_of_apart hapart hnumeric
  rw [h] at hfalse
  cases hfalse

/-- Symbols are not part of words. -/
theorem continuesWord_of_ofSymbol? {l : Lexeme} (h : Lexeme.ofSymbol? c = some l) :
    l ∈ Lexeme.symbols ∧ continuesWord c = false := by
  have hsymbols : ∀ l ∈ Lexeme.symbols, l.render.toList.all (!continuesWord ·) = true := by
    decide +kernel
  have hl := List.mem_of_find?_eq_some h
  have hrender : l.render = String.singleton c := by simpa using List.find?_some h
  have hall := hsymbols l hl
  rw [hrender, String.toList_singleton] at hall
  exact ⟨hl, by simpa using hall⟩

/-- What comes after a run does not go on with it. -/
theorem ends_dropWhile : Ends p (cs.dropWhile p) := by
  intro d hd
  have hnot := List.head?_dropWhile_not p cs
  rw [hd] at hnot
  simpa using hnot

/-- **A whole word stands on a line** at a column: the characters next to it do not go on with
it. -/
def WordAt (word : String) (cs : List Char) (column : Nat) : Prop :=
  IsWord word ∧ ∃ before after, cs = before ++ (word.toList ++ after) ∧
    column = before.length + 1 ∧ (∀ c, before.getLast? = some c → continuesWord c = false) ∧
    ∀ c, after.head? = some c → continuesWord c = false

/-! ### Lines -/

/-- The lexemes of words. -/
def wordLexemes : List Lexeme := .literal :: Lexeme.reserved

/-- **Words that do not come right after a number** are as some condition says, where a token with
the lexeme `previous`, if any, comes before all others. -/
def Whole (P : Token → Prop) (previous : Option Lexeme) : List Token → Prop
  | [] => True
  | t :: ts => (t.lexeme ∈ wordLexemes → previous ≠ some .number → P t) ∧ Whole P (some t.lexeme) ts

/-- **Nothing goes on to the right** of the characters of a line that have been read: the last of
them is not part of a word, or the next one is not, unless a number has just been read. -/
def Clear (previous : Option Lexeme) (before rest : List Char) : Prop :=
  previous = some .number ∨ (∀ c, before.getLast? = some c → continuesWord c = false) ∨
    Ends continuesWord rest

variable {unit : Path} {line column : Nat} {mode mode' : Mode}

theorem append_run (p : Char → Bool) (before cs : List Char) :
    before ++ cs = before ++ cs.takeWhile p ++ cs.dropWhile p := by
  rw [List.append_assoc, List.takeWhile_append_dropWhile]

theorem column_run (before run : List Char) :
    before.length + 1 + run.length = (before ++ run).length + 1 := by
  rw [List.length_append]
  omega

theorem Whole.cons {P : Token → Prop} {previous : Option Lexeme} {t : Token} {ts : List Token}
    (ht : t.lexeme ∉ wordLexemes) (h : Whole P (some t.lexeme) ts) : Whole P previous (t :: ts) :=
  ⟨fun hword => absurd hword ht, h⟩

/-- **Words on a line are whole.** -/
theorem whole_of_scanLine : ∀ ts before previous,
    scanLine unit line mode column cs = .ok (ts, mode') → column = before.length + 1 →
    Clear previous before cs → Whole (fun t => t.position.line = line ∧
      WordAt t.text (before ++ cs) t.position.column) previous ts := by
  fun_induction scanLine unit line mode column cs with
  | case1 mode column =>
    intro ts before previous h _ _
    obtain ⟨rfl, -⟩ := Prod.mk.inj (Except.ok.inj h)
    trivial
  | case2 column c cs position run ih =>
    intro ts before previous h hcolumn _
    obtain ⟨us, hus, rfl⟩ := prepend_eq_ok_iff.mp h
    have htext : Lexeme.text ∉ wordLexemes := by decide
    refine Whole.cons htext ?_
    rw [append_run isTextChar before]
    refine ih us _ _ hus (by rw [hcolumn, column_run]) (Or.inr (Or.inr fun d hd => ?_))
    -- a text is read up to a quote
    have hquote : d = '\'' := by simpa [isTextChar] using ends_dropWhile d hd
    rw [hquote]
    decide
  | case3 mode column c cs hmode hcomment =>
    intro ts before previous h _ _
    obtain ⟨rfl, -⟩ := Prod.mk.inj (Except.ok.inj h)
    trivial
  | case4 mode column c cs hmode hcomment hblank ih =>
    intro ts before previous h hcolumn _
    rw [List.append_cons]
    refine ih ts _ previous h (by rw [hcolumn, ← column_run]; rfl) (Or.inr (Or.inl fun d hd => ?_))
    rw [List.getLast?_concat] at hd
    obtain rfl := Option.some.inj hd
    exact continuesWord_of_isBlank hblank
  | case5 mode column c cs position hmode hcomment hblank hdigit run ih =>
    intro ts before previous h hcolumn _
    obtain ⟨us, hus, rfl⟩ := prepend_eq_ok_iff.mp h
    have hnumber : Lexeme.number ∉ wordLexemes := by decide
    refine Whole.cons hnumber ?_
    rw [append_run Char.isDigit before]
    exact ih us _ _ hus (by rw [hcolumn, column_run]) (Or.inl rfl)
  | case6 mode column c cs position hmode hcomment hblank hdigit hword run word ih =>
    intro ts before previous h hcolumn hclear
    obtain ⟨us, hus, rfl⟩ := prepend_eq_ok_iff.mp h
    have hc := startsWord_imp_continuesWord hword
    constructor
    · intro _ hprevious
      refine ⟨rfl, ⟨c, cs.takeWhile continuesWord, ?_, hword, fun d hd => ?_⟩, before,
        (c :: cs).dropWhile continuesWord, ?_, hcolumn, ?_, fun d hd => ends_dropWhile d hd⟩
      · rw [String.toList_ofList]
        exact List.takeWhile_cons_of_pos hc
      · exact List.mem_takeWhile_imp hd
      · rw [String.toList_ofList, List.takeWhile_append_dropWhile]
      · rcases (hclear.resolve_left hprevious) with hlast | hends
        · exact hlast
        · rw [hends c rfl] at hc
          cases hc
    · rw [append_run continuesWord before]
      exact ih us _ _ hus (by rw [hcolumn, column_run]) (Or.inr (Or.inr ends_dropWhile))
  | case7 mode column c cs position hmode hcomment hblank hdigit hword symbol hsymbol ih =>
    intro ts before previous h hcolumn _
    obtain ⟨us, hus, rfl⟩ := prepend_eq_ok_iff.mp h
    obtain ⟨hmem, hc⟩ := continuesWord_of_ofSymbol? hsymbol
    have hnot : ∀ l ∈ Lexeme.symbols, l ∉ wordLexemes := by decide
    refine Whole.cons (hnot symbol hmem) ?_
    rw [List.append_cons]
    refine ih us _ _ hus (by rw [hcolumn, ← column_run]; rfl) (Or.inr (Or.inl fun d hd => ?_))
    rw [List.getLast?_concat] at hd
    obtain rfl := Option.some.inj hd
    exact hc
  | case8 =>
    intro ts before previous h _ _
    cases h

/-! ### Units -/

/-- **A position points at a line** that has a property at its column, where the first line has the
given number. -/
def Points (first : Nat) (lines : List String) (p : Position) (Q : List Char → Nat → Prop) : Prop :=
  first ≤ p.line ∧ ∃ line, lines[p.line - first]? = some line ∧ Q line.toList p.column

variable {first : Nat} {lines : List String} {ts : List Token}

theorem Points.cons {position : Position} {Q : List Char → Nat → Prop} {l : String}
    (h : Points (first + 1) lines position Q) : Points first (l :: lines) position Q := by
  obtain ⟨hle, line, hline, hQ⟩ := h
  refine ⟨by omega, line, ?_, hQ⟩
  have hcut : position.line - first = position.line - (first + 1) + 1 := by omega
  rwa [hcut, List.getElem?_cons_succ]

theorem points_head {position : Position} {Q : List Char → Nat → Prop} {l : String}
    (hline : position.line = first) (hQ : Q l.toList position.column) :
    Points first (l :: lines) position Q :=
  ⟨hline.ge, l, by rw [hline, Nat.sub_self, List.getElem?_cons_zero], hQ⟩

theorem Whole.imp {P P' : Token → Prop} {previous : Option Lexeme} (h : Whole P previous ts)
    (hP : ∀ t, P t → P' t) : Whole P' previous ts := by
  induction ts generalizing previous with
  | nil => trivial
  | cons t ts ih => exact ⟨fun hword hprevious => hP t (h.1 hword hprevious), ih h.2⟩

theorem Whole.append {P : Token → Prop} {previous : Option Lexeme} {us : List Token}
    (h : Whole P previous ts) (hus : ∀ previous, Whole P previous us) :
    Whole P previous (ts ++ us) := by
  induction ts generalizing previous with
  | nil => exact hus previous
  | cons t ts ih => exact ⟨h.1, ih h.2⟩

/-- **Words on lines are whole.** At the start of a line nothing comes before a word. -/
theorem whole_of_scanLines (h : scanLines unit mode first lines = .ok ts)
    (previous : Option Lexeme) :
    Whole (fun t => Points first lines t.position (WordAt t.text)) previous ts := by
  induction lines generalizing mode first ts previous with
  | nil =>
    obtain rfl := Except.ok.inj h
    trivial
  | cons l lines ih =>
    simp only [scanLines, Fallible.bind_eq_ok_iff, Fallible.pure_eq_ok_iff] at h
    obtain ⟨⟨us, mode₁⟩, hfirst, vs, hrest, rfl⟩ := h
    have hclear : Clear previous [] l.toList := Or.inr (Or.inl fun c hc => by cases hc)
    refine ((whole_of_scanLine us [] previous hfirst rfl hclear).imp ?_).append fun previous => ?_
    · rintro t ⟨hline, hword⟩
      exact points_head hline hword
    · exact (ih hrest previous).imp fun t ht => ht.cons

theorem Whole.of_append {P : Token → Prop} {previous : Option Lexeme} {t : Token}
    {before after : List Token} (h : Whole P previous (before ++ t :: after))
    (hword : t.lexeme ∈ wordLexemes)
    (hbefore : ∀ u, before.getLast? = some u → u.lexeme ≠ .number)
    (hprevious : before = [] → previous ≠ some .number) : P t := by
  induction before generalizing previous with
  | nil => exact h.1 hword (hprevious rfl)
  | cons u before ih =>
    refine ih h.2 (fun v hv => hbefore v ?_) fun hnil hu => ?_
    · rw [List.getLast?_cons, hv]
      rfl
    · subst hnil
      exact hbefore u rfl (Option.some.inj hu)

end Lexing

/-- **A position points at a whole word** of some lines. -/
def HoldsWord (lines : List String) (p : Position) (word : String) : Prop :=
  Lexing.Points 1 lines p (Lexing.WordAt word)

variable {unit : Path} {lines : List String}

/-- **Words are whole** where no number comes right before them. -/
theorem holdsWord_of_tokenize {before after : List Token} {t : Token}
    (h : tokenize unit lines = .ok (before ++ t :: after)) (hword : t.lexeme ∈ Lexing.wordLexemes)
    (hbefore : ∀ u, before.getLast? = some u → u.lexeme ≠ .number) :
    HoldsWord lines t.position t.text :=
  (Lexing.whole_of_scanLines h none).of_append hword hbefore fun _ => nofun

end PizzaLang
