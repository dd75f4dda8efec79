import PizzaLang.Recipe.Image
import PizzaLang.Resource.Basic

/-!
# Where the sizes of images come from

An `Images` measures the image that a reference means. Where the image was a file, the
answer says which. A `Gallery` has its sizes in memory, by the exact text of references.
-/

namespace PizzaLang

/-- The size of an image, and the file that it was read from if there is one. -/
structure Measurement where
  size : ImageSize
  file : Option Path
deriving DecidableEq, Inhabited

/-- **A supply of image sizes.** -/
structure Images where
  /-- The size of the image that a reference means, seen from the unit that makes it. -/
  measure : (reference : String) → (origin : Path) → Except LookupError Measurement

/-- **Sizes in memory.** -/
structure Gallery where
  /-- The references with their sizes, the latest first. -/
  entries : List (String × Except LookupError ImageSize)

namespace Gallery

/-- The gallery without images. -/
def empty : Gallery := ⟨[]⟩

/-- Puts in an image, in place of one with the same reference. -/
def insert (g : Gallery) (reference : String) (size : Except LookupError ImageSize) : Gallery :=
  ⟨(reference, size) :: g.entries⟩

/-- The gallery of a list of images; of those with the same reference the last one
counts. -/
def ofList (entries : List (String × Except LookupError ImageSize)) : Gallery :=
  entries.foldl (fun g (reference, size) => g.insert reference size) empty

/-- The size of the image with this reference. -/
def size (g : Gallery) (reference : String) : Except LookupError ImageSize :=
  (g.entries.lookup reference).getD (.error .notFound)

/-- The gallery as a supply of image sizes. -/
def images (g : Gallery) : Images :=
  ⟨fun reference _ => (g.size reference).map fun size => ⟨size, none⟩⟩

end Gallery

end PizzaLang
