import PizzaLang.Proofs.Words

/-!
# Characters that start no token

The scanner fails at a character that is neither blank nor the start of a number, of a word or of
a symbol (`PizzaLang.Lexing.Foreign`). Such a character may stand in a text or behind `//`, and
some of them may go on with a word, so it depends on all that comes before it whether the scanner
gets to it. It does not depend on what comes after. A run of characters goes as far as it can, and
a slash looks at the character behind it; but where a token is to start, all runs before are over,
and what ended them is the character that the scanner has come to, or one before it.

* `PizzaLang.Lexing.StuckAt`: the scanner gets through some characters of a line, and no further;
* `PizzaLang.Lexing.stuckAt_of_scanLine`, `PizzaLang.Lexing.stuckAt_of_scanLines`: where it fails
  it is stuck;
* `PizzaLang.holdsChar_of_tokenize`: the error points at the character that it names;
* `PizzaLang.tokenize_stuck`: the error of a unit depends on what comes before it alone.
-/

namespace PizzaLang

namespace Lexing

variable {c d : Char} {p : Char → Bool} {before after rest : List Char}

/-- **A character that starts no token**: it is not blank, and no digit, letter, underscore or
symbol. -/
structure Foreign (c : Char) : Prop where
  not_blank : Text.isBlank c = false
  not_letter : Text.isAlphabetic c = false
  not_digit : c.isDigit = false
  not_underscore : c ≠ '_'
  not_symbol : c ∉ "+-*/()\x7b\x7d;'".toList

theorem foreign_of_not_starts (hblank : ¬Text.isBlank c = true) (hdigit : ¬c.isDigit = true)
    (hword : ¬startsWord c = true) (hsymbol : Lexeme.ofSymbol? c = none) : Foreign c := by
  simp only [startsWord, Bool.or_eq_true, decide_eq_true_eq, not_or, Bool.not_eq_true] at *
  refine ⟨hblank, hword.1, hdigit, hword.2, fun hmem => ?_⟩
  have hsymbols : "+-*/()\x7b\x7d;'".toList.all (fun c => (Lexeme.ofSymbol? c).isSome) = true := by
    decide +kernel
  have hsome := List.all_eq_true.mp hsymbols c hmem
  rw [hsymbol] at hsome
  cases hsome

theorem Foreign.isTextChar (h : Foreign c) : isTextChar c = true := by
  simp only [Lexing.isTextChar, ne_eq, decide_eq_true_eq]
  rintro rfl
  exact h.not_symbol (by decide)

/-! ### What may come after some characters -/

/-- **A line goes on to a character, or ends before it.** -/
def UpTo (before : List Char) (c : Char) (rest : List Char) : Prop :=
  rest = before ∨ ∃ after, rest = before ++ c :: after

/-- Whatever is left of the line, its first character is the same. -/
theorem UpTo.head? (h : UpTo before c rest) (hd : rest.head? = some d) (after : List Char) :
    (before ++ c :: after).head? = some d := by
  rcases h with rfl | ⟨after', rfl⟩
  · rw [List.head?_append, hd]
    rfl
  · rw [List.head?_append] at hd ⊢
    exact hd

/-- A run that ends before the character, or right at it, ends in the same place whatever is left
of the line. -/
theorem UpTo.ends (h : UpTo before c rest) (hends : Ends p (before ++ c :: after)) : Ends p rest :=
  fun _ hd => hends _ (h.head? hd after)

/-- Something is left of the line if a run ends before a character that would go on with it. -/
theorem UpTo.ne_nil (h : UpTo before c rest) (hends : Ends p (before ++ c :: after))
    (hc : p c = true) : rest ≠ [] := by
  rintro rfl
  rcases h with rfl | ⟨after', hnil⟩
  · rw [hends c rfl] at hc
    cases hc
  · simp at hnil

/-! ### Lines -/

variable {unit : Path} {line column : Nat} {mode mode' : Mode} {cs : List Char}
  {position : Position}

/-- **The scanner is stuck** at a character of a line: it gets through what comes before it, and
fails at the character whatever comes after. -/
structure StuckAt (unit : Path) (line : Nat) (mode : Mode) (column : Nat) (before : List Char)
    (c : Char) (position : Position) : Prop where
  foreign : Foreign c
  position_eq : position = ⟨line, column + before.length, unit⟩
  through : ∃ result, scanLine unit line mode column before = .ok result
  stuck : ∀ after, scanLine unit line mode column (before ++ c :: after) =
    .error (.unrecognized c position)

theorem prepend_eq_error_iff {t : Token} {rest : Except LexError (List Token × Mode)}
    {e : LexError} : prepend t rest = .error e ↔ rest = .error e := by
  cases rest <;> simp [prepend, Except.map]

/-- **A token in front** of the characters does not change where the scanner is stuck, if it is
read in the same way whatever is left of the line. -/
theorem StuckAt.prepend {t : Token} {run : List Char}
    (h : StuckAt unit line mode' (column + run.length) before c position)
    (hread : ∀ rest, UpTo before c rest → scanLine unit line mode column (run ++ rest) =
      prepend t (scanLine unit line mode' (column + run.length) rest)) :
    StuckAt unit line mode column (run ++ before) c position := by
  refine ⟨h.foreign, ?_, ?_, fun after => ?_⟩
  · rw [h.position_eq, List.length_append, Nat.add_assoc]
  · obtain ⟨⟨ts, mode''⟩, hthrough⟩ := h.through
    rw [hread before (Or.inl rfl), hthrough]
    exact ⟨_, rfl⟩
  · rw [List.append_assoc, hread _ (Or.inr ⟨after, rfl⟩)]
    exact prepend_eq_error_iff.mpr (h.stuck after)

theorem scanLine_blank {d : Char} (hmode : mode ≠ .quoted) (hblank : Text.isBlank d = true)
    (cs : List Char) :
    scanLine unit line mode column (d :: cs) = scanLine unit line mode (column + 1) cs := by
  have hslash : d ≠ '/' := by
    rintro rfl
    exact absurd hblank (by decide)
  rw [scanLine, if_neg hmode, if_neg fun h => hslash h.1, if_pos hblank]

/-- **The scanner fails where it is stuck.** -/
theorem stuckAt_of_scanLine : ∀ c position,
    scanLine unit line mode column cs = .error (.unrecognized c position) →
    ∃ before after, cs = before ++ c :: after ∧
      StuckAt unit line mode column before c position := by
  fun_induction scanLine unit line mode column cs with
  | case1 mode column =>
    intro c position h
    cases h
  | case2 column d cs _ run ih =>
    intro c position h
    obtain ⟨before, after, hrest, hstuck⟩ := ih c position (prepend_eq_error_iff.mp h)
    have hquote : '\'' ∉ run := fun hmem => by
      simpa [isTextChar] using List.mem_takeWhile_imp hmem
    have hends : Ends isTextChar (before ++ c :: after) := hrest ▸ ends_dropWhile
    refine ⟨run ++ before, after, ?_, hstuck.prepend fun rest hrest' =>
      scanLine_text hquote (hrest'.ends hends) ?_⟩
    · rw [List.append_assoc, ← hrest, List.takeWhile_append_dropWhile]
    · -- a quote closes the text, so the scanner does not get stuck right behind it
      exact List.append_ne_nil_of_right_ne_nil _ (hrest'.ne_nil hends hstuck.foreign.isTextChar)
  | case3 mode column d cs hmode hcomment =>
    intro c position h
    cases h
  | case4 mode column d cs hmode hcomment hblank ih =>
    intro c position h
    obtain ⟨before, after, rfl, hstuck⟩ := ih c position h
    refine ⟨d :: before, after, rfl, hstuck.foreign, ?_, ?_, fun after' => ?_⟩
    · rw [hstuck.position_eq, List.length_cons, Nat.add_assoc, Nat.add_comm 1]
    · rw [scanLine_blank hmode hblank]
      exact hstuck.through
    · rw [List.cons_append, scanLine_blank hmode hblank]
      exact hstuck.stuck after'
  | case5 mode column d cs _ hmode hcomment hblank hdigit run ih =>
    intro c position h
    obtain ⟨before, after, hrest, hstuck⟩ := ih c position (prepend_eq_error_iff.mp h)
    have hrun : run = d :: cs.takeWhile Char.isDigit := List.takeWhile_cons_of_pos hdigit
    have hends : Ends Char.isDigit (before ++ c :: after) := hrest ▸ ends_dropWhile
    have hdigits : ∀ e ∈ d :: cs.takeWhile Char.isDigit, e.isDigit = true :=
      fun e he => List.mem_takeWhile_imp (hrun ▸ he)
    rw [hrun] at hstuck
    refine ⟨run ++ before, after, ?_, hrun ▸ hstuck.prepend fun rest hrest' =>
      scanLine_number hmode hdigits (hrest'.ends hends)⟩
    rw [List.append_assoc, ← hrest, List.takeWhile_append_dropWhile]
  | case6 mode column d cs _ hmode hcomment hblank hdigit hword run word ih =>
    intro c position h
    obtain ⟨before, after, hrest, hstuck⟩ := ih c position (prepend_eq_error_iff.mp h)
    have hrun : run = d :: cs.takeWhile continuesWord :=
      List.takeWhile_cons_of_pos (startsWord_imp_continuesWord hword)
    have hends : Ends continuesWord (before ++ c :: after) := hrest ▸ ends_dropWhile
    rw [hrun] at hstuck
    refine ⟨run ++ before, after, ?_, hrun ▸ hstuck.prepend fun rest hrest' =>
      scanLine_word hmode hword (fun e he => List.mem_takeWhile_imp he) (hrest'.ends hends)⟩
    rw [List.append_assoc, ← hrest, List.takeWhile_append_dropWhile]
  | case7 mode column d cs _ hmode hcomment hblank hdigit hword symbol hsymbol ih =>
    intro c position h
    obtain ⟨before, after, rfl, hstuck⟩ := ih c position (prepend_eq_error_iff.mp h)
    have hread : ∀ rest, UpTo before c rest → scanLine unit line mode column ([d] ++ rest) =
        prepend ⟨symbol, String.singleton d, ⟨line, column, unit⟩⟩
          (scanLine unit line (mode.after symbol) (column + 1) rest) := by
      intro rest hrest
      -- a slash is followed by the same character, or by none
      have hslash : ¬(d = '/' ∧ rest.head? = some '/') :=
        fun h => hcomment ⟨h.1, hrest.head? h.2 after⟩
      rw [List.singleton_append, scanLine, if_neg hmode, if_neg hslash, if_neg hblank,
        if_neg hdigit, if_neg hword, hsymbol]
    exact ⟨[d] ++ before, after, rfl, hstuck.prepend hread⟩
  | case8 mode column d cs _ hmode hcomment hblank hdigit hword hsymbol =>
    intro c position h
    obtain ⟨rfl, rfl⟩ := LexError.unrecognized.inj (Except.error.inj h)
    have hforeign := foreign_of_not_starts hblank hdigit hword hsymbol
    have hslash : d ≠ '/' := by
      rintro rfl
      exact hforeign.not_symbol (by decide)
    refine ⟨[], cs, rfl, hforeign, rfl, ⟨_, scanLine.eq_1 ..⟩, fun after => ?_⟩
    rw [List.nil_append, scanLine, if_neg hmode, if_neg fun h => hslash h.1, if_neg hblank,
      if_neg hdigit, if_neg hword, hsymbol]

/-! ### Units -/

variable {first : Nat} {lines : List String}

/-- A line that the scanner gets through puts its tokens before those of the lines that follow. -/
theorem scanLines_cons {l : String} {us : List Token}
    (hl : scanLine unit first mode 1 l.toList = .ok (us, mode')) (rest : List String) :
    scanLines unit mode first (l :: rest) =
      (scanLines unit mode' (first + 1) rest).map (us ++ ·) := by
  rw [scanLines, hl]
  change (scanLines unit mode' (first + 1) rest >>= fun vs => pure (us ++ vs)) = _
  cases scanLines unit mode' (first + 1) rest <;> rfl

/-- **The scanner fails on a line where it is stuck**, after lines that it gets through. -/
theorem stuckAt_of_scanLines
    (h : scanLines unit mode first lines = .error (.unrecognized c position)) :
    ∃ front l back before after, lines = front ++ l :: back ∧ l.toList = before ++ c :: after ∧
      position = ⟨first + front.length, 1 + before.length, unit⟩ ∧ Foreign c ∧
      (∃ ts, scanLines unit mode first (front ++ [String.ofList before]) = .ok ts) ∧
      ∀ l' back' after', l'.toList = before ++ c :: after' →
        scanLines unit mode first (front ++ l' :: back') = .error (.unrecognized c position) := by
  induction lines generalizing mode first with
  | nil => cases h
  | cons l lines ih =>
    rw [scanLines] at h
    rcases Fallible.bind_eq_error_iff.mp h with h | ⟨⟨us, mode₁⟩, hl, h⟩
    · obtain ⟨before, after, hsplit, hstuck⟩ := stuckAt_of_scanLine c position h
      obtain ⟨⟨ts, mode₂⟩, hthrough⟩ := hstuck.through
      refine ⟨[], l, lines, before, after, rfl, hsplit, hstuck.position_eq, hstuck.foreign,
        ⟨ts, ?_⟩, fun l' back' after' hl' => ?_⟩
      · rw [← String.toList_ofList (l := before)] at hthrough
        rw [List.nil_append, scanLines_cons hthrough]
        exact congrArg Except.ok (List.append_nil ts)
      · rw [List.nil_append, scanLines, hl', hstuck.stuck]
        rfl
    · rcases Fallible.bind_eq_error_iff.mp h with h | ⟨vs, -, h⟩
      · obtain ⟨front, l₁, back, before, after, rfl, hsplit, rfl, hforeign, ⟨ts, hts⟩, hstuck⟩ :=
          ih h
        refine ⟨l :: front, l₁, back, before, after, rfl, hsplit, ?_, hforeign, ⟨us ++ ts, ?_⟩,
          fun l' back' after' hl' => ?_⟩
        · rw [List.length_cons, Nat.add_assoc, Nat.add_comm 1]
        · rw [List.cons_append, scanLines_cons hl, hts]
          rfl
        · rw [List.cons_append, scanLines_cons hl, hstuck l' back' after' hl']
          rfl
      · cases h

/-- **A character stands on a line** at a column. -/
def CharAt (c : Char) (cs : List Char) (column : Nat) : Prop :=
  ∃ before after, cs = before ++ c :: after ∧ column = before.length + 1

end Lexing

/-- **A position points at a character** of some lines. -/
def HoldsChar (lines : List String) (p : Position) (c : Char) : Prop :=
  Lexing.Points 1 lines p (Lexing.CharAt c)

/-- **The scanner fails at the character that it names.** -/
theorem holdsChar_of_tokenize {unit : Path} {lines : List String} {character : Char}
    {position : Position} (h : tokenize unit lines = .error (.unrecognized character position)) :
    position.unit = unit ∧ HoldsChar lines position character := by
  obtain ⟨front, line, back, before, after, rfl, hline, rfl, -, -, -⟩ :=
    Lexing.stuckAt_of_scanLines h
  refine ⟨rfl, Nat.le_add_right .., line, ?_, before, after, hline, Nat.add_comm ..⟩
  simp

/-- **The error of a unit is exact and depends on what comes before it alone.** Let the scanner
fail at some position.

* The position is one of the unit, and the character that is named stands there. It is not blank,
  and no letter, digit, underscore or symbol.
* Cut off right before that character, the unit has tokens.
* Every unit with the same name that begins in the same way, up to and with that character, fails
  with the same error, whatever comes after it on the line and on further lines. -/
theorem tokenize_stuck (unit : Path) (lines : List String) (c : Char) (p : Position)
    (h : tokenize unit lines = .error (.unrecognized c p)) :
    p.unit = unit ∧ 1 ≤ p.line ∧ 1 ≤ p.column ∧ Lexing.Foreign c ∧
    ∃ line, lines[p.line - 1]? = some line ∧ line.toList[p.column - 1]? = some c ∧
      (∃ ts, tokenize unit
        (lines.take (p.line - 1) ++ [String.ofList (line.toList.take (p.column - 1))]) = .ok ts) ∧
      ∀ lines' line', lines'.take (p.line - 1) = lines.take (p.line - 1) →
        lines'[p.line - 1]? = some line' → line'.toList.take p.column = line.toList.take p.column →
        tokenize unit lines' = .error (.unrecognized c p) := by
  obtain ⟨front, line, back, before, after, rfl, hline, rfl, hforeign, hcut, hstuck⟩ :=
    Lexing.stuckAt_of_scanLines h
  rw [Nat.add_sub_cancel_left, Nat.add_sub_cancel_left]
  have htake : (front ++ line :: back).take front.length = front := List.take_left
  refine ⟨rfl, Nat.le_add_right .., Nat.le_add_right .., hforeign, line, ?_, ?_, ?_, ?_⟩
  · simp
  · simp [hline]
  · rw [htake, hline, List.take_left]
    exact hcut
  · intro lines' line' hlines hline' hcolumns
    -- the other unit begins with the same lines, and its line with the same characters
    have hsplit : lines' = front ++ line' :: lines'.drop (front.length + 1) := by
      obtain ⟨hlt, rfl⟩ := List.getElem?_eq_some_iff.mp hline'
      rw [← List.drop_eq_getElem_cons hlt, ← htake, ← hlines, List.length_take_of_le hlt.le,
        List.take_append_drop]
    have hsplit' : line'.toList = before ++ c :: line'.toList.drop (1 + before.length) := by
      have hbegin : line.toList.take (1 + before.length) = before ++ [c] := by
        rw [hline, Nat.add_comm, List.append_cons, List.take_left' (by simp)]
      rw [List.append_cons, ← hbegin, ← hcolumns, List.take_append_drop]
    rw [hsplit]
    exact hstuck _ _ _ hsplit'

/-- Lines on which the same character stands in a word, in a text and behind `//` before it stands
where a token has to start. -/
def squares : List String := ["x² '²' // ²", "/7²"]

/-- The character after the number is where the scanner gives up: without it there are tokens, and
with it there are none, whatever follows. -/
theorem tokenize_stuck_squares :
    tokenize ⟨"main.pf"⟩ squares = .error (.unrecognized '²' ⟨2, 3, ⟨"main.pf"⟩⟩) ∧
    (∃ ts, tokenize ⟨"main.pf"⟩ ["x² '²' // ²", "/7"] = .ok ts) ∧
    ∀ more lines, tokenize ⟨"main.pf"⟩ ("x² '²' // ²" :: ("/7²" ++ more) :: lines) =
      .error (.unrecognized '²' ⟨2, 3, ⟨"main.pf"⟩⟩) := by
  have h : tokenize ⟨"main.pf"⟩ squares = .error (.unrecognized '²' ⟨2, 3, ⟨"main.pf"⟩⟩) := by
    decide +kernel
  obtain ⟨-, -, -, -, line, hline, -, hcut, hstuck⟩ := tokenize_stuck _ _ _ _ h
  obtain rfl : "/7²" = line := Option.some.inj hline
  refine ⟨h, hcut, fun more lines => hstuck _ ("/7²" ++ more) rfl rfl ?_⟩
  rw [String.toList_append]
  rfl

end PizzaLang
