/-!
# Lines of a text

A line ends at a line feed, and one carriage return right before that line feed
belongs to the ending. Nothing else ends a line. What follows the last line feed is
a line unless it is empty, and keeps a carriage return at its end.
-/

namespace PizzaLang.Text

/-- Takes the carriage return off a line that is held in reverse. -/
def dropReturn : List Char → List Char
  | '\r' :: line => line
  | line => line

/-- The lines of `rest`, where `line` holds, in reverse, what the first of them has so
far. -/
def linesFrom (line : List Char) : List Char → List (List Char)
  | [] => if line.isEmpty then [] else [line.reverse]
  | '\n' :: rest => (dropReturn line).reverse :: linesFrom [] rest
  | c :: rest => linesFrom (c :: line) rest

/-- **The lines of a text**, without their endings. -/
def lines (s : String) : List String :=
  (linesFrom [] s.toList).map String.ofList

end PizzaLang.Text
