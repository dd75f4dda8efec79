import PizzaLang.Compile.Unit
import PizzaLang.Disk.Basic
import PizzaLang.Disk.ImageFile

/-!
# Units and images on a disk

A relative reference is looked for in the directory of the unit that makes it, and then in
directories that are given; an absolute one stands for itself. The first file that is found
counts. Units are known by their canonical paths, so that no detour hides a circle.

Images on other machines are not fetched.
-/

namespace PizzaLang

namespace Disk

/-- The paths that a reference may mean, in the order in which they are tried. -/
def candidates (first : Path) (dirs : List Path) (reference : Path) : List Path :=
  if reference.isAbsolute then [reference] else first :: dirs.map (·.join reference)

/-- The paths where a unit may be. -/
def unitCandidates (libraries : List Path) (reference : Path) (origin : Option Path) :
    List Path :=
  let first := match origin with
    | some origin => origin.directory.join reference
    | none => reference
  candidates first libraries reference

/-- The paths where an image may be. -/
def imageCandidates (assets : List Path) (reference origin : Path) : List Path :=
  candidates (origin.directory.join reference) assets reference

/-! ### Units -/

/-- The canonical path of the first candidate that is a file. -/
def firstFile (d : Disk) : List Path → Except LookupError Path
  | [] => .error .notFound
  | path :: rest =>
    match d.look path with
    | .file canonical _ => .ok canonical
    | _ => d.firstFile rest

/-- The text of a unit. -/
def load (d : Disk) (unit : Path) : Except LookupError String :=
  (d.text unit).mapError fun
    | .missing => .notFound
    | e => .unreadable e.message

/-- **The units on a disk.** -/
def sources (d : Disk) (libraries : List Path) : Sources :=
  ⟨fun reference origin => d.firstFile (unitCandidates libraries reference origin), d.load⟩

/-! ### Images -/

/-- Is the image on another machine? -/
def isRemote (reference : String) : Bool :=
  let lower := reference.toLower.toList
  ["http://", "https://", "ftp://"].any fun scheme => scheme.toList.isPrefixOf lower

/-- The size of the image in a file. -/
def imageSize (d : Disk) (file : Path) : Except LookupError ImageSize := do
  let content ← (d.contents file).mapError fun e => .unreadable e.message
  (ImageFile.size content).mapError fun fault => .unreadable fault.message

/-- The size of the image that a reference means. -/
def measure (d : Disk) (assets : List Path) (reference : String) (origin : Path) :
    Except LookupError Measurement :=
  if isRemote reference then
    .error (.unreadable "remote images are not fetched by the filesystem resolver")
  else
    match (imageCandidates assets ⟨reference⟩ origin).find? d.isFile with
    | none => .error .notFound
    | some file => (d.imageSize file).map fun size => ⟨size, some file⟩

/-- **The images on a disk.** -/
def images (d : Disk) (assets : List Path) : Images := ⟨d.measure assets⟩

end Disk

/-- **The compiler that takes everything from a disk.** -/
def Compiler.ofDisk (d : Disk) (libraries assets : List Path) : Compiler :=
  ⟨d.sources libraries, d.images assets, d.size + 1⟩

/-- The paths that an event of a compilation from a disk looks at. -/
def Event.consulted (libraries assets : List Path) : Event → List Path
  | located reference origin => Disk.unitCandidates libraries reference origin
  | loaded unit _ => [unit]
  | measured reference origin => Disk.imageCandidates assets ⟨reference⟩ origin
  | _ => []

end PizzaLang
