import Estimation.Module
import Estimation.Module.Path

/-!
Where modules come from, apart from those that a project is given: what a specifier means, and
whether what was read is what was asked for.
-/

namespace Estimation

/-- Why a module cannot be had. -/
inductive LinkError where
  | notFound (name : String)
  | wrongHash (name expected actual : String)
  | invalidPath (specifier reason : String)
  | unreadable (name message : String)
  deriving DecidableEq, Repr

namespace LinkError

def message : LinkError → String
  | .notFound name => s!"Module {name} not found"
  | .wrongHash name expected actual => s!"Module {name} has hash {actual}, expected {expected}"
  | .invalidPath specifier reason => s!"Invalid import path '{specifier}': {reason}"
  | .unreadable name message => s!"Failed to read {name}: {message}"

end LinkError

/-- Which module a specifier means in the code of an importer. -/
abbrev Resolver : Type := (specifier importer : String) → Except LinkError String

namespace Resolver

/-- Specifiers are names of modules. -/
def byName : Resolver := fun specifier _ => .ok specifier

def extension : List Char := "gauge".toList

/-- Specifiers are paths from the importer's file; an extension is added where there is none. -/
def byPath : Resolver := fun specifier importer =>
  let path := specifier.toList
  if ['.', '/'].isPrefixOf path || ['.', '.', '/'].isPrefixOf path then
    let base := (ModulePath.ofText importer.toList).parent
    .ok ((base.append (ModulePath.ofText path).steps).withExtension extension).moduleName
  else
    .error (.invalidPath specifier "only relative imports ('./' or '../') are supported")

end Resolver

/-- What is loaded: a module by its name, and by its hash where it is pinned. -/
structure LoadKey where
  name : String
  pin : Option String
  deriving DecidableEq, Repr

/-- Why a file gives no text. -/
inductive ReadFault where
  | missing
  | other (message : String)
  deriving DecidableEq, Repr

namespace ReadFault

def message : ReadFault → String
  | .missing => "No such file or directory (os error 2)"
  | .other message => message

end ReadFault

namespace LoadKey

/-- Code for a key has to have the hash that is asked for. -/
def check (key : LoadKey) (code : String) : Except LinkError Module :=
  let m := Module.ofCode code
  match key.pin with
  | none => .ok m
  | some pin => if m.hash = pin then .ok m else .error (.wrongHash key.name pin m.hash)

/-- The module for a key, from what is in its file. -/
def fromFile (key : LoadKey) : Except ReadFault String → Except LinkError Module
  | .ok code => key.check code
  | .error .missing => .error (.notFound key.name)
  | .error (.other message) => .error (.unreadable key.name message)

/-- The module for a key among sources by name. -/
def fromSource (key : LoadKey) : Option String → Except LinkError Module
  | some code => key.check code
  | none => .error (.notFound key.name)

end LoadKey

end Estimation
