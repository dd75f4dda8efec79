import PizzaLang.Position
import PizzaLang.Text.Lines

/-!
# Resources

A compilation needs things from outside: the texts of units and the sizes of images.
Asking for one fails because it is not there or because it cannot be read; a
`ResourceError` says what a program loses by that, and where.

A unit has the extension `pf`, in letters of any case.
-/

namespace PizzaLang

/-- Why a resource is not available. -/
inductive LookupError
  | notFound
  | unreadable (reason : String)
deriving DecidableEq, Inhabited

/-- The text of the error. -/
def LookupError.message : LookupError → String
  | notFound => "not found"
  | unreadable reason => s!"not readable: {reason}"

/-- What in a program refers to a resource. -/
inductive Referrer
  | inclusion
  | ingredient (name : String)
deriving DecidableEq, Inhabited

/-- The referrer as messages give it. -/
def Referrer.render : Referrer → String
  | inclusion => "include"
  | ingredient name => s!"ingredient '{name}'"

/-- **What goes wrong with resources.** -/
inductive ResourceError
  /-- A reference leads nowhere. -/
  | invalid (reference : String) (referrer : Referrer) (position : Position)
  /-- A reference leads to something that cannot be read. -/
  | unreachable (reference : String) (referrer : Referrer) (reason : String)
      (position : Position)
  /-- An inclusion leads back to a unit that is being compiled. -/
  | recursiveInclude (reference : String) (unit : Path) (position : Position)
  /-- A unit has the wrong extension. -/
  | unsupportedExtension (path : Path) (extension : String)
  /-- The unit to compile is not there. -/
  | sourceNotFound (path : Path)
  /-- The unit to compile cannot be read. -/
  | sourceUnreadable (path : Path) (reason : String)
deriving DecidableEq

/-- The text of the error. -/
def ResourceError.message : ResourceError → String
  | invalid reference referrer position =>
    s!"The PATH, URL or URI '{reference}' provided by {referrer.render} located at " ++
      s!"{position.render} is incorrect or not valid"
  | unreachable reference referrer reason position =>
    s!"The PATH, URL or URI '{reference}' provided by {referrer.render} located at " ++
      s!"{position.render} is not accessible: {reason}"
  | recursiveInclude reference unit position =>
    s!"The PATH '{reference}' provided by include located at {position.render} leads back " ++
      s!"to '{unit.text}', which is already being compiled"
  | unsupportedExtension path extension =>
    s!"The source extension '{extension}' of '{path.text}' is not available. Use the 'pf' " ++
      "extension instead"
  | sourceNotFound path => s!"Pizza source '{path.text}' could not be found"
  | sourceUnreadable path reason => s!"Pizza source '{path.text}' could not be read: {reason}"

/-! ### Units -/

/-- The extension of units. -/
def sourceExtension : String := "pf"

/-- Refuses paths without the extension of units. -/
def checkExtension (path : Path) : Except ResourceError Unit :=
  let extension := path.extension.getD ""
  if extension.toLower = sourceExtension then .ok ()
  else .error (.unsupportedExtension path extension)

/-- **A unit**: its path and its lines. -/
structure SourceUnit where
  id : Path
  lines : List String
deriving DecidableEq, Inhabited

/-- The unit with this text. -/
def SourceUnit.ofText (id : Path) (text : String) : Except ResourceError SourceUnit := do
  checkExtension id
  return ⟨id, Text.lines text⟩

end PizzaLang
