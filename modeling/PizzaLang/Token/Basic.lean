import PizzaLang.Position

/-!
# Tokens

A token is a lexeme, the text it was read from and where that text stands. There are
fifteen reserved words, ten symbols, and three classes whose texts vary: names, the
texts between quotes, and numbers.

Reserved words are written in small letters; a word that differs from all of them, be
it only by a capital, is a name.
-/

namespace PizzaLang

/-- **The lexemes** of the language. -/
inductive Lexeme
  | kwInclude | kwDefine | kwIngredient | kwSpecialty | kwMake | kwPizza
  | kwBig | kwMedium | kwPersonal
  | kwAdd | kwOf | kwAnd | kwResize | kwSave | kwAs
  | literal | text | number
  | plus | minus | times | divide
  | openParen | closeParen | openBrace | closeBrace
  | semicolon | quote
deriving DecidableEq, Inhabited

namespace Lexeme

/-- The name of a lexeme in listings of tokens. -/
def label : Lexeme → String
  | kwInclude => "Include"
  | kwDefine => "Define"
  | kwIngredient => "Ingredient"
  | kwSpecialty => "Specialty"
  | kwMake => "Make"
  | kwPizza => "Pizza"
  | kwBig => "Big"
  | kwMedium => "Medium"
  | kwPersonal => "Personal"
  | kwAdd => "Add"
  | kwOf => "Of"
  | kwAnd => "And"
  | kwResize => "Resize"
  | kwSave => "Save"
  | kwAs => "As"
  | literal => "Literal"
  | text => "Text"
  | number => "Number"
  | plus => "Plus"
  | minus => "Minus"
  | times => "Multiply"
  | divide => "Divide"
  | openParen => "OpenParen"
  | closeParen => "CloseParen"
  | openBrace => "OpenBrace"
  | closeBrace => "CloseBrace"
  | semicolon => "Semicolon"
  | quote => "SingleQuote"

/-- The spelling of a lexeme, or the name of its class, as messages give it. -/
def render : Lexeme → String
  | kwInclude => "include"
  | kwDefine => "define"
  | kwIngredient => "ingredient"
  | kwSpecialty => "specialty"
  | kwMake => "make"
  | kwPizza => "pizza"
  | kwBig => "big"
  | kwMedium => "medium"
  | kwPersonal => "personal"
  | kwAdd => "add"
  | kwOf => "of"
  | kwAnd => "and"
  | kwResize => "resize"
  | kwSave => "save"
  | kwAs => "as"
  | literal => "literal"
  | text => "text"
  | number => "number"
  | plus => "+"
  | minus => "-"
  | times => "*"
  | divide => "/"
  | openParen => "("
  | closeParen => ")"
  | openBrace => "\x7b"
  | closeBrace => "\x7d"
  | semicolon => ";"
  | quote => "'"

/-- The reserved words. -/
def reserved : List Lexeme :=
  [kwInclude, kwDefine, kwIngredient, kwSpecialty, kwMake, kwPizza, kwBig, kwMedium,
    kwPersonal, kwAdd, kwOf, kwAnd, kwResize, kwSave, kwAs]

/-- The symbols. -/
def symbols : List Lexeme :=
  [plus, minus, times, divide, openParen, closeParen, openBrace, closeBrace, semicolon,
    quote]

/-- All lexemes. -/
def all : List Lexeme := reserved ++ [literal, text, number] ++ symbols

/-- The lexeme with this name in listings. -/
def ofLabel? (label : String) : Option Lexeme := all.find? (·.label == label)

/-- The reserved word with this spelling. -/
def ofWord? (word : String) : Option Lexeme := reserved.find? (·.render == word)

/-- The symbol that is this character. -/
def ofSymbol? (c : Char) : Option Lexeme := symbols.find? (·.render == String.singleton c)

end Lexeme

/-- **A token**: a lexeme with its text and its position. -/
structure Token where
  lexeme : Lexeme
  text : String
  position : Position
deriving DecidableEq, Inhabited

namespace Token

/-- Does the token carry one of these lexemes? -/
def isAny (t : Token) (lexemes : List Lexeme) : Bool := lexemes.contains t.lexeme

/-- The token as listings of tokens give it. -/
def render (t : Token) : String :=
  s!"token(id={t.lexeme.label}; value={t.text}; source={t.position.render})"

end Token

end PizzaLang
