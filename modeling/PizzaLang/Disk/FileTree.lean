import PizzaLang.Disk.Basic

/-!
# Trees of files

A disk held in memory. A *place* is the list of names that leads from the root to a file
or a directory. A path is followed name by name: whatever a further step is taken from has
to be there and to be a directory, also for a step that leads nowhere, such as the one
after a final slash. Names and paths have a greatest length, in bytes; that of a path is
checked before the first step, that of a name when its step is taken.
-/

namespace PizzaLang

/-- The names from the root to a file or a directory. -/
abbrev Place := List String

/-- A file with its contents, or a directory. -/
inductive TreeEntry
  | file (content : ByteArray)
  | directory

/-- **Files and directories in memory.** Directories that hold something need not be
listed. -/
structure FileTree where
  /-- What there is, the latest first. -/
  entries : List (Place × TreeEntry)
  /-- Where relative paths start. -/
  workingDirectory : Place

namespace FileTree

/-- The path of a place. -/
def pathOf (place : Place) : Path := ⟨"/" ++ "/".intercalate place⟩

/-- What is at a place. -/
def find? (t : FileTree) (place : Place) : Option TreeEntry :=
  match t.entries.lookup place with
  | some entry => some entry
  | none =>
    if place.isEmpty || t.entries.any fun (p, _) => place.isPrefixOf p then some .directory
    else none

/-- How many bytes a name may have. -/
def longestName : Nat := 255

/-- How many bytes a path may have. -/
def longestPath : Nat := 4095

/-- Takes one step from a place, for one segment of a path. -/
def step (t : FileTree) (place : Place) (segment : String) : Except Look Place :=
  match t.find? place with
  | none => .error .missing
  | some (.file _) => .error .notDirectory
  | some .directory =>
    if segment = "" ∨ segment = "." then .ok place
    else if segment = ".." then .ok place.dropLast
    else if longestName < segment.utf8ByteSize then .error .nameTooLong
    else .ok (place ++ [segment])

/-- The place that a path leads to. The empty path leads nowhere, and a path with a null
character is not asked for. -/
def follow (t : FileTree) (path : Path) : Except Look Place :=
  if path.text.isEmpty then .error .missing
  else if path.hasNull then .error .badName
  else if longestPath < path.text.utf8ByteSize then .error .nameTooLong
  else
    let start := if path.isAbsolute then [] else t.workingDirectory
    (Path.segmentsOf path.text.toList).foldlM (fun place s => t.step place (String.ofList s)) start

/-- What stands at a path. -/
def look (t : FileTree) (path : Path) : Look :=
  match t.follow path with
  | .error look => look
  | .ok place =>
    match t.find? place with
    | some (.file content) => .file (pathOf place) content
    | some .directory => .directory
    | none => .missing

/-- **The tree as a disk.** -/
def disk (t : FileTree) : Disk := ⟨t.look, t.entries.length⟩

end FileTree

end PizzaLang
