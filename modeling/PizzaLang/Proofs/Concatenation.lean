import PizzaLang.Proofs.Repositioning
import PizzaLang.Proofs.Unrecognized

/-!
# Lines behind other lines

The scanner reads a unit line by line. The number of a line only shows in positions, and all that a
line knows of the lines before it is the mode that they leave. So lines that come after others have
the tokens that they have alone, further down, unless something is left open: a text that a quote
could still close, or a quote that still waits for its text (`PizzaLang.Settled`).

The mode is hidden, but the tokens show it. Nothing is left open exactly if the tokens lead back to
the mode in which a unit starts (`PizzaLang.settled_iff`), and the mode after some lines is the one
that their tokens lead to (`PizzaLang.Lexing.scanLines_append`).

* `PizzaLang.Lexing.scanLines_reposition`: names of units and numbers of lines only show in
  positions;
* `PizzaLang.tokenize_append`: lines that leave nothing open do not change what comes after them,
  and all others do.
-/

namespace PizzaLang

open Fallible

/-- Changes the position of a token. -/
def Token.reposition (f : Position → Position) (t : Token) : Token :=
  { t with position := f t.position }

/-- Changes the position of an error. -/
def LexError.reposition (f : Position → Position) : LexError → LexError
  | unrecognized character position => unrecognized character (f position)

/-- A position some lines further down. -/
def Position.down (lines : Nat) (p : Position) : Position := { p with line := p.line + lines }

namespace Lexing

/-! ### Lines that stand elsewhere -/

section Reposition

variable {f : Position → Position} {unit unit' : Path}

theorem bimap_prepend (t : Token) (rest : Except LexError (List Token × Mode)) :
    bimap (LexError.reposition f) (Prod.map (List.map (Token.reposition f)) id) (prepend t rest) =
      prepend (t.reposition f)
        (bimap (LexError.reposition f) (Prod.map (List.map (Token.reposition f)) id) rest) := by
  cases rest <;> rfl

/-- A line is read alike wherever it stands. -/
theorem scanLine_reposition {line line' : Nat}
    (hf : ∀ column, f ⟨line, column, unit⟩ = ⟨line', column, unit'⟩) (mode : Mode) (column : Nat)
    (cs : List Char) :
    scanLine unit' line' mode column cs =
      bimap (LexError.reposition f) (Prod.map (List.map (Token.reposition f)) id)
        (scanLine unit line mode column cs) := by
  have htoken (lexeme : Lexeme) (text : String) (column : Nat) :
      Token.reposition f ⟨lexeme, text, ⟨line, column, unit⟩⟩ =
        ⟨lexeme, text, ⟨line', column, unit'⟩⟩ := by
    rw [Token.reposition, hf]
  -- the branch that is taken depends on the mode and the characters only
  fun_induction scanLine unit line mode column cs with
  | case1 mode column => rw [scanLine]; rfl
  | case2 column c cs position run ih =>
    rw [scanLine, if_pos rfl, bimap_prepend, ← ih, htoken]
  | case3 mode column c cs hmode hcomment =>
    rw [scanLine, if_neg hmode, if_pos hcomment]
    rfl
  | case4 mode column c cs hmode hcomment hblank ih =>
    rw [scanLine, if_neg hmode, if_neg hcomment, if_pos hblank, ih]
  | case5 mode column c cs position hmode hcomment hblank hdigit run ih =>
    rw [scanLine, if_neg hmode, if_neg hcomment, if_neg hblank, if_pos hdigit, bimap_prepend, ← ih,
      htoken]
  | case6 mode column c cs position hmode hcomment hblank hdigit hword run word ih =>
    rw [scanLine, if_neg hmode, if_neg hcomment, if_neg hblank, if_neg hdigit, if_pos hword,
      bimap_prepend, ← ih, htoken]
  | case7 mode column c cs position hmode hcomment hblank hdigit hword symbol hsymbol ih =>
    rw [scanLine, if_neg hmode, if_neg hcomment, if_neg hblank, if_neg hdigit, if_neg hword,
      hsymbol, bimap_prepend, ← ih, htoken]
  | case8 mode column c cs position hmode hcomment hblank hdigit hword hsymbol =>
    rw [scanLine, if_neg hmode, if_neg hcomment, if_neg hblank, if_neg hdigit, if_neg hword,
      hsymbol, Fallible.bimap, LexError.reposition, hf]

/-- **Lines are read alike wherever they stand**: in another unit and so many lines further down,
they have the same tokens in other positions. -/
theorem scanLines_reposition {n : Nat}
    (hf : ∀ line column, f ⟨line, column, unit⟩ = ⟨line + n, column, unit'⟩) (mode : Mode)
    (line : Nat) (lines : List String) :
    scanLines unit' mode (line + n) lines =
      bimap (LexError.reposition f) (List.map (Token.reposition f))
        (scanLines unit mode line lines) := by
  induction lines generalizing mode line with
  | nil => rfl
  | cons first rest ih =>
    rw [scanLines, scanLines, scanLine_reposition (hf line)]
    refine bind_bimap ?_
    rintro ⟨ts, mode'⟩
    change (scanLines unit' mode' (line + n + 1) rest >>= _) = _
    rw [Nat.add_right_comm, ih mode' (line + 1)]
    exact bind_bimap fun us => congrArg Except.ok (List.map_append).symm

end Reposition

/-! ### Lines and those before them -/

variable {unit : Path} {mode : Mode} {first : Nat} {front : List String} {ts : List Token}

/-- **All that lines know of those before them is the mode** to which the tokens of those lead. -/
theorem scanLines_append (h : scanLines unit mode first front = .ok ts) (back : List String) :
    scanLines unit mode first (front ++ back) =
      (scanLines unit (mode.run ts) (first + front.length) back).map (ts ++ ·) := by
  induction front generalizing mode first ts with
  | nil =>
    obtain rfl := Except.ok.inj h
    change scanLines unit mode first back = (scanLines unit mode first back).map id
    cases scanLines unit mode first back <;> rfl
  | cons l front ih =>
    rw [scanLines] at h
    obtain ⟨⟨us, mode₁⟩, hl, h⟩ := bind_eq_ok_iff.mp h
    obtain ⟨vs, hfront, h⟩ := bind_eq_ok_iff.mp h
    obtain rfl := pure_eq_ok_iff.mp h
    have hkeeps : mode.Keeps (.ok (us, mode₁)) := hl ▸ keeps_scanLine l.toList
    rw [List.cons_append, scanLines_cons hl, ih hfront, hkeeps.2, Mode.run_append,
      List.length_cons, Nat.add_assoc, Nat.add_comm 1]
    cases scanLines unit ((mode.run us).run vs) (first + (front.length + 1)) back with
    | ok ws => exact congrArg Except.ok (List.append_assoc us vs ws).symm
    | error e => rfl

end Lexing

/-! ### Lines that leave nothing open -/

/-- **Nothing is left open** after some tokens: the last of them, if there is one, is neither a text
nor a quote that opens, which is one without a text right before it. -/
def Settled (ts : List Token) : Prop :=
  ∀ before t, ts = before ++ [t] →
    t.lexeme ≠ .text ∧
      ¬(t.lexeme = .quote ∧ ¬∃ p, before.getLast? = some p ∧ p.lexeme = .text)

open Lexing in
/-- Nothing is left open exactly if the tokens lead back to the mode at the start of a unit. -/
theorem settled_iff {ts : List Token} : Settled ts ↔ Mode.plain.run ts = .plain := by
  rcases List.eq_nil_or_concat ts with rfl | ⟨init, t, rfl⟩
  · exact iff_of_true (fun before t h => by simp at h) rfl
  · rw [List.concat_eq_append]
    have hlast : Settled (init ++ [t]) ↔ t.lexeme ≠ .text ∧
        ¬(t.lexeme = .quote ∧ ¬∃ p, init.getLast? = some p ∧ p.lexeme = .text) := by
      refine ⟨fun h => h init t rfl, fun h before u hsplit => ?_⟩
      obtain ⟨rfl, hu⟩ := List.append_inj' hsplit rfl
      obtain rfl := List.cons.inj hu |>.1
      exact h
    rw [hlast, Mode.run_concat, ← Mode.run_eq_closing_iff, ← Ne, ← Mode.next_eq_quoted_iff, Ne,
      ← Mode.next_eq_closing_iff]
    cases (Mode.plain.run init).next t.lexeme <;> simp

/-- **Lines that leave something open change what comes after them**: in each case there are lines
behind them that would have other tokens alone. -/
theorem settled_of_tokenize_append {unit : Path} {front : List String} {ts : List Token}
    (h : ∀ back us, tokenize unit back = .ok us → tokenize unit (front ++ back) =
      .ok (ts ++ us.map (Token.reposition (Position.down front.length)))) : Settled ts := by
  -- a quote, an empty text and a quote, which cannot come in either of the other two modes
  have hback : tokenize unit ["''"] = .ok [⟨.quote, "'", ⟨1, 1, unit⟩⟩,
      ⟨.text, "", ⟨1, 2, unit⟩⟩, ⟨.quote, "'", ⟨1, 2, unit⟩⟩] := by
    have hthere : tokenize ⟨""⟩ ["''"] = .ok [⟨.quote, "'", ⟨1, 1, ⟨""⟩⟩⟩,
        ⟨.text, "", ⟨1, 2, ⟨""⟩⟩⟩, ⟨.quote, "'", ⟨1, 2, ⟨""⟩⟩⟩] := by
      decide +kernel
    have hmoved : tokenize unit ["''"] = bimap (LexError.reposition fun p => { p with unit })
        (List.map (Token.reposition fun p => { p with unit })) (tokenize ⟨""⟩ ["''"]) :=
      Lexing.scanLines_reposition (n := 0) (fun _ _ => rfl) .plain 1 ["''"]
    rw [hmoved, hthere]
    rfl
  have hspelled := wellSpelled_iff.mp (wellSpelled_of_tokenize (h _ _ hback))
  rw [Lexing.Mode.admits_iff] at hspelled
  have hquote := (hspelled ts _ _ rfl).text_iff
  have htext := (hspelled (ts ++ [⟨.quote, "'", ⟨1 + front.length, 1, unit⟩⟩]) _ _
    (by rw [List.append_assoc]; rfl)).text_iff
  rw [Lexing.Mode.run_concat, Lexing.Mode.next_eq_quoted_iff] at htext
  have hclosing := (htext.mp rfl).2
  rw [settled_iff]
  cases hmode : Lexing.Mode.plain.run ts with
  | plain => rfl
  | quoted => cases hquote.mpr hmode
  | closing => exact absurd hmode hclosing

/-- **Lexing is compositional** exactly after lines that leave nothing open. If some lines have
tokens, then these leave nothing open if and only if all lines that follow have the tokens that they
have alone, or the error that they have alone, in each case as many lines further down as there are
lines before them. -/
theorem tokenize_append (unit : Path) (front : List String) (ts : List Token)
    (h : tokenize unit front = .ok ts) :
    Settled ts ↔ ∀ back,
      (∀ us, tokenize unit back = .ok us → tokenize unit (front ++ back) =
        .ok (ts ++ us.map (Token.reposition (Position.down front.length)))) ∧
      ∀ e, tokenize unit back = .error e → tokenize unit (front ++ back) =
        .error (e.reposition (Position.down front.length)) := by
  refine ⟨fun hts back => ?_, fun hback => settled_of_tokenize_append fun back => (hback back).1⟩
  have happend : tokenize unit (front ++ back) =
      (bimap (LexError.reposition (Position.down front.length))
        (List.map (Token.reposition (Position.down front.length)))
        (tokenize unit back)).map (ts ++ ·) := by
    rw [tokenize, Lexing.scanLines_append h, settled_iff.mp hts,
      Lexing.scanLines_reposition (f := Position.down front.length) (fun _ _ => rfl), tokenize]
  rw [happend]
  constructor
  · intro us hus
    rw [hus]
    rfl
  · intro e he
    rw [he]
    rfl

/-- A text that goes over the end of its line and is closed on the next one, before a comment. -/
def cutText : List String := ["add 'x", "' // '"]

/-- What follows the text is read as if nothing came before it, two lines further down. -/
theorem tokenize_append_cutText :
    (∃ ts, tokenize ⟨"main.pf"⟩ cutText = .ok ts ∧ Settled ts ∧
      tokenize ⟨"main.pf"⟩ (cutText ++ ["'y"]) =
        .ok (ts ++ [⟨.quote, "'", ⟨3, 1, ⟨"main.pf"⟩⟩⟩, ⟨.text, "y", ⟨3, 2, ⟨"main.pf"⟩⟩⟩])) ∧
    tokenize ⟨"main.pf"⟩ (cutText ++ ["", " ²"]) =
      .error (.unrecognized '²' ⟨4, 2, ⟨"main.pf"⟩⟩) := by
  have h : (tokenize ⟨"main.pf"⟩ cutText).toOption.any
      (fun ts => decide (Lexing.Mode.plain.run ts = .plain)) = true := by
    decide +kernel
  obtain ⟨ts, hts, hmode⟩ := exists_of_any h
  have hsettled : Settled ts := settled_iff.mpr (of_decide_eq_true hmode)
  have hy : tokenize ⟨"main.pf"⟩ ["'y"] =
      .ok [⟨.quote, "'", ⟨1, 1, ⟨"main.pf"⟩⟩⟩, ⟨.text, "y", ⟨1, 2, ⟨"main.pf"⟩⟩⟩] := by
    decide +kernel
  have hsquare : tokenize ⟨"main.pf"⟩ ["", " ²"] =
      .error (.unrecognized '²' ⟨2, 2, ⟨"main.pf"⟩⟩) := by
    decide +kernel
  have hbehind := (tokenize_append _ _ ts hts).mp hsettled
  exact ⟨⟨ts, hts, hsettled, (hbehind _).1 _ hy⟩, (hbehind _).2 _ hsquare⟩

end PizzaLang
