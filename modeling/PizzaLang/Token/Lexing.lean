import PizzaLang.Text.Blank
import PizzaLang.Text.Numeric
import PizzaLang.Token.Basic

/-!
# Reading tokens from lines

A unit is read line by line, and what passes from one line to the next is only a
`Mode`: whether the next characters are quoted text, and whether a quote would close
one. After a quote that opens, everything up to the next quote or the end of that line
is one text token, which may be empty. A quote at the end of a line opens a text that
starts on the next line that has characters; a text that the line's end cut off is over,
and the quote that comes right after it still closes it.

Outside quoted text, `//` hides the rest of the line, blanks are skipped, digits make a
number, a letter or an underscore starts a word, and every other character is a symbol
or an error.

* `scanLine`: the tokens of one line and the mode it leaves;
* `scanLines`: the same for the lines that follow;
* `tokenize`: the tokens of a unit.
-/

namespace PizzaLang

/-- Why a unit has no tokens. -/
inductive LexError
  /-- A character that starts no token. -/
  | unrecognized (character : Char) (position : Position)
deriving DecidableEq

namespace LexError

/-- Where the error arose. -/
def position : LexError → Position
  | unrecognized _ position => position

/-- The text of the error. -/
def message : LexError → String
  | unrecognized character position =>
    s!"Character '{character}' is not recognized, at {position.render}"

end LexError

namespace Lexing

/-- What the tokens read so far say about the next quote. -/
inductive Mode
  /-- A quote would open a text. -/
  | plain
  /-- A quote has been opened: its text comes next. -/
  | quoted
  /-- A text has just been read: a quote would close it. -/
  | closing
deriving DecidableEq, Inhabited

/-- How much is still to come from the mode itself: an opened quote owes a text, even where
that text is empty. -/
def Mode.weight : Mode → Nat
  | plain => 0
  | quoted => 1
  | closing => 0

theorem Mode.weight_le (mode : Mode) : mode.weight ≤ 1 := by
  cases mode <;> decide

/-- The mode after a token that starts in a mode other than `quoted`. -/
def Mode.after (mode : Mode) (lexeme : Lexeme) : Mode :=
  if lexeme = .quote ∧ mode ≠ .closing then .quoted else .plain

/-- May the character stand in a text? -/
def isTextChar (c : Char) : Bool := c ≠ '\''

/-- May the character start a word? -/
def startsWord (c : Char) : Bool := Text.isAlphabetic c || c = '_'

/-- May the character continue a word? -/
def continuesWord (c : Char) : Bool := Text.isAlphanumeric c || c = '_'

theorem startsWord_imp_continuesWord {c : Char} (h : startsWord c = true) :
    continuesWord c = true := by
  simp only [startsWord, continuesWord, Text.isAlphanumeric, Bool.or_eq_true] at *
  exact h.imp_left Or.inl

/-- The lexeme of a word. -/
def wordLexeme (word : String) : Lexeme := (Lexeme.ofWord? word).getD .literal

theorem length_dropWhile_le (p : Char → Bool) (cs : List Char) :
    (cs.dropWhile p).length ≤ cs.length :=
  (List.dropWhile_suffix p).length_le

/-- Puts a token before those that follow it. -/
def prepend (t : Token) (rest : Except LexError (List Token × Mode)) :
    Except LexError (List Token × Mode) :=
  rest.map fun (ts, mode) => (t :: ts, mode)

/-- **The tokens of a line**, from the given column on, and the mode that it leaves. -/
def scanLine (unit : Path) (line : Nat) (mode : Mode) (column : Nat) :
    List Char → Except LexError (List Token × Mode)
  | [] => .ok ([], mode)
  | c :: cs =>
    let position : Position := ⟨line, column, unit⟩
    if mode = .quoted then
      let run := (c :: cs).takeWhile isTextChar
      prepend ⟨.text, String.ofList run, position⟩
        (scanLine unit line .closing (column + run.length) ((c :: cs).dropWhile isTextChar))
    else if c = '/' ∧ cs.head? = some '/' then
      .ok ([], mode)
    else if Text.isBlank c then
      scanLine unit line mode (column + 1) cs
    else if c.isDigit then
      let run := (c :: cs).takeWhile Char.isDigit
      prepend ⟨.number, String.ofList run, position⟩
        (scanLine unit line .plain (column + run.length) ((c :: cs).dropWhile Char.isDigit))
    else if startsWord c then
      let run := (c :: cs).takeWhile continuesWord
      let word := String.ofList run
      prepend ⟨wordLexeme word, word, position⟩
        (scanLine unit line .plain (column + run.length) ((c :: cs).dropWhile continuesWord))
    else match Lexeme.ofSymbol? c with
      | some symbol =>
        prepend ⟨symbol, String.singleton c, position⟩
          (scanLine unit line (mode.after symbol) (column + 1) cs)
      | none => .error (.unrecognized c position)
termination_by cs => 2 * cs.length + mode.weight
decreasing_by
  · have := length_dropWhile_le isTextChar (c :: cs)
    rw [‹mode = .quoted›]
    simp only [Mode.weight]
    omega
  · rw [List.length_cons]
    omega
  · have := length_dropWhile_le Char.isDigit cs
    rw [List.dropWhile_cons_of_pos ‹c.isDigit = true›, List.length_cons]
    simp only [Mode.weight]
    omega
  · have := length_dropWhile_le continuesWord cs
    rw [List.dropWhile_cons_of_pos (startsWord_imp_continuesWord ‹startsWord c = true›),
      List.length_cons]
    simp only [Mode.weight]
    omega
  · have := (mode.after symbol).weight_le
    rw [List.length_cons]
    omega

/-- The tokens of consecutive lines, the first of which has the given number. -/
def scanLines (unit : Path) (mode : Mode) (line : Nat) :
    List String → Except LexError (List Token)
  | [] => .ok []
  | first :: rest => do
    let (ts, mode) ← scanLine unit line mode 1 first.toList
    return ts ++ (← scanLines unit mode (line + 1) rest)

end Lexing

/-- **The tokens of a unit**, given by its lines. -/
def tokenize (unit : Path) (lines : List String) : Except LexError (List Token) :=
  Lexing.scanLines unit .plain 1 lines

end PizzaLang
