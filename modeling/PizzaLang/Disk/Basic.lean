import PizzaLang.Resource.Basic

/-!
# Disks

What a compilation sees of a disk: for every path a `Look`, which is a file with its
contents and its canonical path, a directory, nothing, or a reason why there is no telling.
A text file has to be valid UTF-8.
-/

namespace PizzaLang

/-- **What stands at a path.** -/
inductive Look
  /-- A file, with its absolute path free of detours. -/
  | file (canonical : Path) (content : ByteArray)
  | directory
  /-- Nothing. -/
  | missing
  /-- Something that is no directory is used as one. -/
  | notDirectory
  /-- The path, or a name in it, is longer than a disk takes. -/
  | nameTooLong
  /-- The path has a null character in it. -/
  | badName
  /-- Nobody can tell, for this reason. -/
  | failed (reason : String)

/-- **A disk**: what stands at each path, and a bound on the number of files. -/
structure Disk where
  look : Path → Look
  size : Nat

namespace Disk

/-- Why a file cannot be read. -/
inductive ReadError
  | missing
  | directory
  | notDirectory
  | nameTooLong
  | badName
  | notText
  | failed (reason : String)
deriving DecidableEq

/-- The text of the error. -/
def ReadError.message : ReadError → String
  | missing => "No such file or directory (os error 2)"
  | directory => "Is a directory (os error 21)"
  | notDirectory => "Not a directory (os error 20)"
  | nameTooLong => "File name too long (os error 36)"
  | badName => "file name contained an unexpected NUL byte"
  | notText => "stream did not contain valid UTF-8"
  | failed reason => reason

/-- The contents of a file. -/
def contents (d : Disk) (path : Path) : Except ReadError ByteArray :=
  match d.look path with
  | .file _ content => .ok content
  | .directory => .error .directory
  | .missing => .error .missing
  | .notDirectory => .error .notDirectory
  | .nameTooLong => .error .nameTooLong
  | .badName => .error .badName
  | .failed reason => .error (.failed reason)

/-- **The text of a file.** -/
def text (d : Disk) (path : Path) : Except ReadError String := do
  match String.fromUTF8? (← d.contents path) with
  | some text => return text
  | none => .error .notText

/-- Is there a file at the path? -/
def isFile (d : Disk) (path : Path) : Bool :=
  match d.look path with
  | .file _ _ => true
  | _ => false

end Disk

end PizzaLang
