/-!
# Paths

A path is kept as it was written, because it is shown that way, and compared by its
components, because `menus//basic.pf` and `menus/basic.pf` name one unit.

The text of a path has a *lead* (a slash for an absolute path, or a single dot that
starts a relative one) and a *body* of segments divided by slashes. Empty segments
and segments that are a single dot say nothing and are skipped; a leading dot is kept,
so `a` and `./a` differ, and so is `..`, which is never resolved here.

* `Path.components`: what a path means, and `Path.Same`: meaning the same;
* `Path.parent`, `Path.join`, `Path.sibling`, `Path.directory`: going up and down;
* `Path.fileName`, `Path.extension`: the last component and its ending.
-/

namespace PizzaLang

/-- **A path**, as written. -/
structure Path where
  /-- What was written. -/
  text : String
deriving DecidableEq, Inhabited

namespace Path

/-! ### Lead and body -/

/-- The parts of a text between the slashes. -/
def segmentsOf : List Char → List (List Char)
  | [] => [[]]
  | c :: rest =>
    if c = '/' then [] :: segmentsOf rest
    else match segmentsOf rest with
      | segment :: others => (c :: segment) :: others
      | [] => [[c]]

/-- Divides the text of a path into its lead and its body. -/
def divide : List Char → List Char × List Char
  | '/' :: body => (['/'], body)
  | ['.'] => (['.'], [])
  | '.' :: '/' :: body => (['.'], '/' :: body)
  | body => ([], body)

/-- The root or the current directory, if the path starts from one of them. -/
def lead (p : Path) : List Char := (divide p.text.toList).1

/-- The segments of the body, those that say nothing included. -/
def segments (p : Path) : List (List Char) := segmentsOf (divide p.text.toList).2

/-- Is the segment skipped: empty, or a single dot? -/
def isIdle (segment : List Char) : Bool := segment.isEmpty || segment == ['.']

/-- Does the path start from the root? -/
def isAbsolute (p : Path) : Bool := p.text.toList.head? == some '/'

/-- Is there a null character in the path? No disk has such a path. -/
def hasNull (p : Path) : Bool := p.text.toList.contains '\x00'

/-! ### Components -/

/-- One step of a path. -/
inductive Component
  /-- The root directory, first in an absolute path. -/
  | root
  /-- The current directory, written first. -/
  | here
  /-- The directory above. -/
  | up
  /-- An entry of a directory. -/
  | entry (name : String)
deriving DecidableEq

/-- The component that a segment of the body stands for. -/
def Component.ofSegment (segment : List Char) : Component :=
  if segment = ['.', '.'] then .up else .entry (String.ofList segment)

/-- **The components of a path**, in order. -/
def components (p : Path) : List Component :=
  let start := match p.lead with
    | ['/'] => [Component.root]
    | ['.'] => [Component.here]
    | _ => []
  start ++ (p.segments.filter (!isIdle ·)).map Component.ofSegment

/-- **Equality of paths**: two paths are the same if their components are. -/
def Same (p q : Path) : Prop := p.components = q.components

instance (p q : Path) : Decidable (p.Same q) :=
  inferInstanceAs (Decidable (p.components = q.components))

/-! ### Going up and down -/

/-- Writes segments with slashes between them. -/
def writeSegments (segments : List (List Char)) : List Char :=
  List.intercalate ['/'] segments

/-- **The path without its last component**, as far as it was written: what says
nothing at its new end goes too. The root and the empty path have no parent. -/
def parent (p : Path) : Option Path :=
  match p.segments.reverse.dropWhile isIdle with
  | _ :: above =>
    some ⟨String.ofList (p.lead ++ writeSegments (above.dropWhile isIdle).reverse)⟩
  | [] => if p.lead = ['.'] then some ⟨""⟩ else none

/-- **A path from a directory**: an absolute path stands for itself, any other is
written after the directory and a slash. -/
def join (dir reference : Path) : Path :=
  if reference.isAbsolute then reference
  else if dir.text.isEmpty || dir.text.toList.getLast? == some '/' then
    ⟨dir.text ++ reference.text⟩
  else ⟨dir.text ++ "/" ++ reference.text⟩

/-- The reference read from the directory that holds the path. -/
def sibling (p reference : Path) : Path :=
  match p.parent with
  | some dir => dir.join reference
  | none => reference

/-- The directory that holds the path; the current one if none is written. -/
def directory (p : Path) : Path :=
  match p.parent with
  | some dir => if dir.text.isEmpty then ⟨"."⟩ else dir
  | none => ⟨"."⟩

/-! ### Names -/

/-- The last component, if it is an entry. -/
def fileName (p : Path) : Option String :=
  match p.components.getLast? with
  | some (.entry name) => some name
  | _ => none

/-- What follows the last dot of a file name. A dot that starts the name does not
count. -/
def extensionOf (name : String) : Option String :=
  let reversed := name.toList.reverse
  match reversed.dropWhile (· ≠ '.') with
  | _ :: _ :: _ => some (String.ofList (reversed.takeWhile (· ≠ '.')).reverse)
  | _ => none

/-- What follows the last dot of the file name, if it has one. -/
def extension (p : Path) : Option String := p.fileName.bind extensionOf

end Path

end PizzaLang
