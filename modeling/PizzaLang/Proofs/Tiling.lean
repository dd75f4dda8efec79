import PizzaLang.Proofs.Spelling

/-!
# Where tokens stand

The tokens of a line lie on it side by side: each is written where its position says, none reaches
into the next, and what shows between them is blank, up to a comment that hides the rest of the
line. `PizzaLang.Lexing.Tiles` says this of a line as the scanner goes along it, character by
character; everything else about positions is an induction on it.

Tokens of one line have different positions as long as they have characters. The one token that
may have none is a text, and an empty text is closed by the quote that stands where the text would
have stood.

The result is `PizzaLang.tokenize_positions`.
-/

namespace PizzaLang

namespace Token

/-- The column right after a token. -/
def stop (t : Token) : Nat := t.position.column + t.text.length

/-- **A token lies on a column** of a line: one of its characters stands there. -/
def Covers (t : Token) (line column : Nat) : Prop :=
  t.position.line = line ∧ t.position.column ≤ column ∧ column < t.stop

/-- **A token ends before another starts**, on the same line or on an earlier one. -/
def Before (t u : Token) : Prop :=
  t.position.line ≤ u.position.line ∧
    (t.position.line = u.position.line → t.stop ≤ u.position.column)

end Token

namespace Lexing

/-! ### Lines -/

/-- **Tokens tile a line** from a column on: the characters are blanks and the texts of the tokens,
each where its position says, and perhaps a comment in the end. -/
inductive Tiles (unit : Path) (line : Nat) : Nat → List Char → List Token → Prop
  | done {column : Nat} : Tiles unit line column [] []
  | comment {column : Nat} {cs : List Char} : Tiles unit line column ('/' :: '/' :: cs) []
  | blank {column : Nat} {c : Char} {cs : List Char} {ts : List Token} :
      Text.isBlank c = true → Tiles unit line (column + 1) cs ts →
      Tiles unit line column (c :: cs) ts
  | token {column : Nat} {t : Token} {cs : List Char} {ts : List Token} :
      t.position = ⟨line, column, unit⟩ → Tiles unit line t.stop cs ts →
      Tiles unit line column (t.text.toList ++ cs) (t :: ts)

variable {unit : Path} {line column : Nat} {mode mode' : Mode} {cs : List Char} {ts : List Token}

/-- A run of characters and what comes after it are tiled if the latter is. -/
theorem Tiles.run {p : Char → Bool} {lexeme : Lexeme}
    (h : Tiles unit line (column + (cs.takeWhile p).length) (cs.dropWhile p) ts) :
    Tiles unit line column cs
      (⟨lexeme, String.ofList (cs.takeWhile p), ⟨line, column, unit⟩⟩ :: ts) := by
  let t : Token := ⟨lexeme, String.ofList (cs.takeWhile p), ⟨line, column, unit⟩⟩
  have hstop : t.stop = column + (cs.takeWhile p).length := by simp [t, Token.stop]
  have htile : Tiles unit line column (t.text.toList ++ cs.dropWhile p) (t :: ts) :=
    .token rfl (hstop ▸ h)
  rwa [String.toList_ofList, List.takeWhile_append_dropWhile] at htile

/-- **The tokens of a line tile it.** -/
theorem tiles_of_scanLine :
    ∀ ts, scanLine unit line mode column cs = .ok (ts, mode') → Tiles unit line column cs ts := by
  fun_induction scanLine unit line mode column cs with
  | case1 mode column =>
    intro ts h
    obtain ⟨rfl, -⟩ := Prod.mk.inj (Except.ok.inj h)
    exact .done
  | case2 column c cs position run ih =>
    intro ts h
    obtain ⟨us, hus, rfl⟩ := prepend_eq_ok_iff.mp h
    exact (ih us hus).run
  | case3 mode column c cs hmode hcomment =>
    intro ts h
    obtain ⟨rfl, -⟩ := Prod.mk.inj (Except.ok.inj h)
    obtain ⟨rfl, hhead⟩ := hcomment
    obtain ⟨ds, rfl⟩ := List.head?_eq_some_iff.mp hhead
    exact .comment
  | case4 mode column c cs hmode hcomment hblank ih => exact fun ts h => .blank hblank (ih ts h)
  | case5 mode column c cs position hmode hcomment hblank hdigit run ih =>
    intro ts h
    obtain ⟨us, hus, rfl⟩ := prepend_eq_ok_iff.mp h
    exact (ih us hus).run
  | case6 mode column c cs position hmode hcomment hblank hdigit hword run word ih =>
    intro ts h
    obtain ⟨us, hus, rfl⟩ := prepend_eq_ok_iff.mp h
    exact (ih us hus).run
  | case7 mode column c cs position hmode hcomment hblank hdigit hword symbol hsymbol ih =>
    intro ts h
    obtain ⟨us, hus, rfl⟩ := prepend_eq_ok_iff.mp h
    have hstop : column + 1 = Token.stop ⟨symbol, String.singleton c, position⟩ := by
      simp [Token.stop, position]
    have htile := Tiles.token (t := ⟨symbol, String.singleton c, position⟩) rfl
      (hstop ▸ ih us hus)
    rwa [String.toList_singleton] at htile
  | case8 =>
    intro ts h
    cases h

/-- Each token stands on the line, from the given column on, with its text. -/
theorem Tiles.stands (h : Tiles unit line column cs ts) {t : Token} (ht : t ∈ ts) :
    t.position.line = line ∧ t.position.unit = unit ∧ column ≤ t.position.column ∧
      t.text.toList <+: cs.drop (t.position.column - column) := by
  induction h with
  | done => exact absurd ht List.not_mem_nil
  | comment => exact absurd ht List.not_mem_nil
  | @blank column c cs ts _ _ ih =>
    obtain ⟨hline, hunit, hle, htext⟩ := ih ht
    refine ⟨hline, hunit, by omega, ?_⟩
    have hcut : t.position.column - column = t.position.column - (column + 1) + 1 := by omega
    rwa [hcut, List.drop_succ_cons]
  | @token column u cs ts hu _ ih =>
    rcases List.mem_cons.mp ht with rfl | ht
    · rw [hu]
      refine ⟨rfl, rfl, Nat.le_refl _, ?_⟩
      rw [Nat.sub_self, List.drop_zero]
      exact List.prefix_append _ _
    · obtain ⟨hline, hunit, hle, htext⟩ := ih ht
      have hstop : u.stop = column + u.text.toList.length := by
        simp [Token.stop, hu, String.length_toList]
      refine ⟨hline, hunit, by omega, ?_⟩
      have hcut : t.position.column - column =
          u.text.toList.length + (t.position.column - u.stop) := by omega
      rwa [hcut, List.drop_length_add_append]

/-- The tokens of a line come one after the other. -/
theorem Tiles.pairwise (h : Tiles unit line column cs ts) : ts.Pairwise Token.Before := by
  induction h with
  | done => exact .nil
  | comment => exact .nil
  | blank _ _ ih => exact ih
  | token ht hrest ih =>
    refine List.pairwise_cons.mpr ⟨fun u hu => ?_, ih⟩
    obtain ⟨hline, -, hle, -⟩ := hrest.stands hu
    have hsame : _ = u.position.line := (congrArg Position.line ht).trans hline.symm
    exact ⟨hsame.le, fun _ => hle⟩

/-- **A comment hides a character**: it starts at the character or before it, and after all the
tokens. -/
def Hidden (cs : List Char) (i : Nat) (column : Nat) (ts : List Token) : Prop :=
  ∃ k ≤ i, ['/', '/'] <+: cs.drop k ∧ ∀ t ∈ ts, t.stop ≤ column + k

/-- **No character of a line is lost**: a token lies on it, or it is blank, or a comment hides
it. -/
theorem Tiles.covered (h : Tiles unit line column cs ts) {i : Nat} {c : Char}
    (hi : cs[i]? = some c) :
    (∃ t ∈ ts, t.Covers line (column + i)) ∨ Text.isBlank c = true ∨ Hidden cs i column ts := by
  induction h generalizing i with
  | done => cases hi
  | comment =>
    exact Or.inr (Or.inr ⟨0, Nat.zero_le i, ⟨_, rfl⟩, fun _ ht => absurd ht List.not_mem_nil⟩)
  | @blank column d cs ts hblank _ ih =>
    cases i with
    | zero =>
      obtain rfl := Option.some.inj hi
      exact Or.inr (Or.inl hblank)
    | succ i =>
      have hcolumn : column + (i + 1) = column + 1 + i := by omega
      rcases ih hi with hcovers | hc | ⟨k, hk, hslashes, hall⟩
      · exact Or.inl (hcolumn ▸ hcovers)
      · exact Or.inr (Or.inl hc)
      · refine Or.inr (Or.inr ⟨k + 1, by omega, hslashes, fun t ht => ?_⟩)
        have := hall t ht
        omega
  | @token column t cs ts ht htiles ih =>
    have hstop : t.stop = column + t.text.toList.length := by
      simp [Token.stop, ht, String.length_toList]
    have hcolumn : t.position.column = column := by rw [ht]
    by_cases hlt : i < t.text.toList.length
    · exact Or.inl ⟨t, List.mem_cons_self, by rw [ht], by omega, by omega⟩
    -- the character comes after the token
    obtain ⟨j, rfl⟩ := Nat.exists_eq_add_of_le (Nat.le_of_not_lt hlt)
    rw [List.getElem?_append_right (Nat.le_add_right _ _), Nat.add_sub_cancel_left] at hi
    rcases ih hi with ⟨u, hu, hcovers⟩ | hc | ⟨k, hk, hslashes, hall⟩
    · refine Or.inl ⟨u, List.mem_cons_of_mem _ hu, ?_⟩
      rwa [hstop, Nat.add_assoc] at hcovers
    · exact Or.inr (Or.inl hc)
    · refine Or.inr (Or.inr ⟨t.text.toList.length + k, by omega, ?_, ?_⟩)
      · rwa [List.drop_length_add_append]
      · rintro u hu
        rcases List.mem_cons.mp hu with rfl | hu
        · omega
        · have := hall u hu
          omega

/-! ### Units -/

/-- **Tokens tile lines**, the first of which has the given number. -/
inductive TilesAll (unit : Path) : Nat → List String → List Token → Prop
  | done {line : Nat} : TilesAll unit line [] []
  | line {line : Nat} {first : String} {rest : List String} {ts us : List Token} :
      Tiles unit line 1 first.toList ts → TilesAll unit (line + 1) rest us →
      TilesAll unit line (first :: rest) (ts ++ us)

variable {lines : List String}

theorem tilesAll_of_scanLines (h : scanLines unit mode line lines = .ok ts) :
    TilesAll unit line lines ts := by
  induction lines generalizing mode line ts with
  | nil =>
    obtain rfl := Except.ok.inj h
    exact .done
  | cons first rest ih =>
    simp only [scanLines, Fallible.bind_eq_ok_iff, Fallible.pure_eq_ok_iff] at h
    obtain ⟨⟨us, mode₁⟩, hfirst, vs, hrest, rfl⟩ := h
    exact .line (tiles_of_scanLine us hfirst) (ih hrest)

/-- Each token stands on one of the lines, with its text. -/
theorem TilesAll.stands (h : TilesAll unit line lines ts) {t : Token} (ht : t ∈ ts) :
    line ≤ t.position.line ∧ t.position.unit = unit ∧ 1 ≤ t.position.column ∧
      ∃ first, lines[t.position.line - line]? = some first ∧
        t.text.toList <+: first.toList.drop (t.position.column - 1) := by
  induction h with
  | done => exact absurd ht List.not_mem_nil
  | @line line first rest ts us hfirst _ ih =>
    rcases List.mem_append.mp ht with ht | ht
    · obtain ⟨hline, hunit, hle, htext⟩ := hfirst.stands ht
      refine ⟨hline.ge, hunit, hle, first, ?_, htext⟩
      rw [hline, Nat.sub_self, List.getElem?_cons_zero]
    · obtain ⟨hline, hunit, hle, text, hget, htext⟩ := ih ht
      refine ⟨by omega, hunit, hle, text, ?_, htext⟩
      have hcut : t.position.line - line = t.position.line - (line + 1) + 1 := by omega
      rwa [hcut, List.getElem?_cons_succ]

theorem TilesAll.pairwise (h : TilesAll unit line lines ts) : ts.Pairwise Token.Before := by
  induction h with
  | done => exact .nil
  | line hfirst hrest ih =>
    refine List.pairwise_append.mpr ⟨hfirst.pairwise, ih, fun t ht u hu => ?_⟩
    have hline := (hfirst.stands ht).1
    have hlater := (hrest.stands hu).1
    exact ⟨by omega, fun hsame => by omega⟩

/-- **No character of the lines is lost.** -/
theorem TilesAll.covered (h : TilesAll unit line lines ts) {l i : Nat} {text : String} {c : Char}
    (hl : lines[l]? = some text) (hi : text.toList[i]? = some c) :
    (∃ t ∈ ts, t.Covers (line + l) (i + 1)) ∨ Text.isBlank c = true ∨
      Hidden text.toList i 1 (ts.filter (·.position.line = line + l)) := by
  induction h generalizing l with
  | done => cases hl
  | @line line first rest ts us hfirst hrest ih =>
    have hts : ∀ t ∈ ts, t.position.line = line := fun t ht => (hfirst.stands ht).1
    have hus : ∀ u ∈ us, line < u.position.line := fun u hu => (hrest.stands hu).1
    cases l with
    | zero =>
      obtain rfl := Option.some.inj hl
      rcases hfirst.covered hi with ⟨t, ht, hcovers⟩ | hc | ⟨k, hk, hslashes, hall⟩
      · exact Or.inl ⟨t, List.mem_append_left _ ht, Nat.add_comm 1 i ▸ hcovers⟩
      · exact Or.inr (Or.inl hc)
      · refine Or.inr (Or.inr ⟨k, hk, hslashes, fun t ht => ?_⟩)
        obtain ⟨ht, hline⟩ := List.mem_filter.mp ht
        rcases List.mem_append.mp ht with ht | ht
        · exact hall t ht
        · have := hus t ht
          simp only [decide_eq_true_eq] at hline
          omega
    | succ l =>
      have hnumber : line + (l + 1) = line + 1 + l := by omega
      rw [hnumber]
      rcases ih hl with ⟨t, ht, hcovers⟩ | hc | ⟨k, hk, hslashes, hall⟩
      · exact Or.inl ⟨t, List.mem_append_right _ ht, hcovers⟩
      · exact Or.inr (Or.inl hc)
      · refine Or.inr (Or.inr ⟨k, hk, hslashes, fun t ht => ?_⟩)
        obtain ⟨ht, hline⟩ := List.mem_filter.mp ht
        rcases List.mem_append.mp ht with ht | ht
        · have := hts t ht
          simp only [decide_eq_true_eq] at hline
          omega
        · exact hall t (List.mem_filter.mpr ⟨ht, hline⟩)

end Lexing

/-- Only a text can be empty. -/
theorem Lexeme.Spells.eq_text {lexeme : Lexeme} (h : lexeme.Spells "") : lexeme = .text := by
  by_contra hne
  cases lexeme
  case text => exact hne rfl
  case literal =>
    obtain ⟨⟨c, cs, hcs, -⟩, -⟩ := h
    cases hcs
  case number => exact h.1 rfl
  all_goals
    change "" = _ at h
    exact absurd h (by decide)

/-- **Tokens in the same place**: the first is an empty text and the second the quote that closes
it. -/
theorem WellSpelled.of_same_place {before between after : List Token} {t u : Token}
    (h : WellSpelled (before ++ t :: (between ++ u :: after)))
    (hpairwise : (before ++ t :: (between ++ u :: after)).Pairwise Token.Before)
    (hline : t.position.line = u.position.line) (hcolumn : t.position.column = u.position.column) :
    between = [] ∧ t.lexeme = .text ∧ t.text = "" ∧ u.lexeme = .quote := by
  obtain ⟨-, hpairwise, -⟩ := List.pairwise_append.mp hpairwise
  obtain ⟨hfirst, hrest⟩ := List.pairwise_cons.mp hpairwise
  have hempty : t.text = "" := by
    have hstop := (hfirst u (by simp)).2 hline
    rw [Token.stop] at hstop
    rw [← String.length_eq_zero_iff]
    omega
  have htext : t.lexeme = .text := by
    have hspells := h.spells t (by simp)
    rw [hempty] at hspells
    exact hspells.eq_text
  obtain ⟨q, hq, hquote⟩ := h.closed before t _ rfl htext hempty
  cases between with
  | nil =>
    obtain rfl : u = q := Option.some.inj hq
    exact ⟨rfl, htext, hempty, hquote⟩
  | cons v between =>
    -- the quote is in between, and takes up the column on which the two tokens stand
    obtain rfl : v = q := Option.some.inj hq
    have hspelled : v.text = "'" := by
      have hspells := h.spells v (by simp)
      rwa [Lexeme.spells_of_mem_symbols (by rw [hquote]; decide), hquote] at hspells
    have htv := hfirst v (by simp)
    have hvu := (List.pairwise_cons.mp hrest).1 u (by simp)
    have hlines : t.position.line = v.position.line := by
      have := htv.1
      have := hvu.1
      omega
    have hstart := htv.2 hlines
    have hstop := hvu.2 (hlines.symm.trans hline)
    rw [Token.stop] at hstart hstop
    rw [hspelled] at hstop
    change v.position.column + 1 ≤ u.position.column at hstop
    omega

/-- **Positions are exact, and no character is lost.** Let the lines of a unit have some tokens.

* Each token is written where it says: its line is one of the lines, and from its column on that
  line begins with its text.
* Of two tokens the later one is on the same line or on a later one; on the same line it starts
  where the earlier one has ended, or further on.
* Two tokens are in the same place only if they are an empty text and the quote that closes it.
* A character on which no token lies is blank or part of a comment: two slashes start there or
  before it, after all tokens of its line. -/
theorem tokenize_positions (unit : Path) (lines : List String) (tokens : List Token)
    (h : tokenize unit lines = .ok tokens) :
    (∀ t ∈ tokens, t.position.unit = unit ∧ 1 ≤ t.position.line ∧
      t.position.line ≤ lines.length ∧ 1 ≤ t.position.column ∧
      ∃ line, lines[t.position.line - 1]? = some line ∧
        t.text.toList <+: line.toList.drop (t.position.column - 1)) ∧
    tokens.Pairwise (fun t u => t.position.line ≤ u.position.line ∧
      (t.position.line = u.position.line →
        t.position.column + t.text.length ≤ u.position.column)) ∧
    (∀ before t between u after, tokens = before ++ t :: (between ++ u :: after) →
      t.position.line = u.position.line → t.position.column = u.position.column →
      between = [] ∧ t.lexeme = .text ∧ t.text = "" ∧ u.lexeme = .quote) ∧
    ∀ l line, lines[l]? = some line → ∀ i c, line.toList[i]? = some c →
      (∃ t ∈ tokens, t.position.line = l + 1 ∧ t.position.column ≤ i + 1 ∧
        i + 1 < t.position.column + t.text.length) ∨
      Text.isBlank c = true ∨
      ∃ k ≤ i, ['/', '/'] <+: line.toList.drop k ∧
        ∀ t ∈ tokens, t.position.line = l + 1 → t.position.column + t.text.length ≤ k + 1 := by
  have htiles : Lexing.TilesAll unit 1 lines tokens := Lexing.tilesAll_of_scanLines h
  refine ⟨fun t ht => ?_, htiles.pairwise, ?_, ?_⟩
  · obtain ⟨hline, hunit, hcolumn, line, hget, htext⟩ := htiles.stands ht
    obtain ⟨hlt, -⟩ := List.getElem?_eq_some_iff.mp hget
    exact ⟨hunit, hline, by omega, hcolumn, line, hget, htext⟩
  · rintro before t between u after rfl hline hcolumn
    exact (wellSpelled_of_tokenize h).of_same_place htiles.pairwise hline hcolumn
  · intro l line hl i c hi
    have hcovered := htiles.covered hl hi
    rw [Nat.add_comm 1 l] at hcovered
    rcases hcovered with hcovers | hc | ⟨k, hk, hslashes, hall⟩
    · exact Or.inl hcovers
    · exact Or.inr (Or.inl hc)
    · refine Or.inr (Or.inr ⟨k, hk, hslashes, fun t ht hline => ?_⟩)
      rw [Nat.add_comm k 1]
      exact hall t (List.mem_filter.mpr ⟨ht, by simpa using hline⟩)

/-- Lines with a name that takes two bytes, an empty text, a comment, and a line without
characters. -/
def emptyText : List String := ["é'' // é", "", " 7"]

/-- The empty text and the quote that closes it stand in one place; the last character of the first
line is no blank, and hidden by the comment. -/
theorem tokenize_positions_emptyText :
    ∃ tokens, tokenize ⟨"main.pf"⟩ emptyText = .ok tokens ∧
      tokens.map (fun t => (t.lexeme, t.position.line, t.position.column)) =
        [(.literal, 1, 1), (.quote, 1, 2), (.text, 1, 3), (.quote, 1, 3), (.number, 3, 2)] ∧
      (∀ t ∈ tokens, 1 ≤ t.position.line ∧ t.position.line ≤ 3) ∧
      ∃ k ≤ 7, ['/', '/'] <+: "é'' // é".toList.drop k ∧
        ∀ t ∈ tokens, t.position.line = 1 → t.position.column + t.text.length ≤ k + 1 := by
  have h : (tokenize ⟨"main.pf"⟩ emptyText).toOption.any (fun tokens =>
      tokens.map (fun t => (t.lexeme, t.position.line, t.position.column)) =
        [(.literal, 1, 1), (.quote, 1, 2), (.text, 1, 3), (.quote, 1, 3), (.number, 3, 2)] ∧
      tokens.all fun t => !(t.position.line == 1 && 8 < t.position.column + t.text.length)) =
        true := by
    decide +kernel
  obtain ⟨tokens, htokens, htests⟩ := Fallible.exists_of_any h
  obtain ⟨hplaces, hshort⟩ := of_decide_eq_true htests
  obtain ⟨hstands, -, -, hcovered⟩ := tokenize_positions _ _ tokens htokens
  refine ⟨tokens, htokens, hplaces, fun t ht => ⟨(hstands t ht).2.1, (hstands t ht).2.2.1⟩, ?_⟩
  rcases hcovered 0 _ rfl 7 'é' rfl with ⟨t, ht, hline, -, hstop⟩ | hblank | hhidden
  · have := List.all_eq_true.mp hshort t ht
    simp only [Bool.not_eq_true', Bool.and_eq_false_iff, beq_eq_false_iff_ne,
      decide_eq_false_iff_not] at this
    omega
  · exact absurd hblank (by decide)
  · exact hhidden

end PizzaLang
