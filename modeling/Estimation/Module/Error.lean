import Estimation.Compilation
import Estimation.Link

/-!
Why a module has no values, and why a project cannot answer. A module whose import fails carries
the import's failure as it is.
-/

namespace Estimation

/-- What is wrong with the names of a project, whatever the code of its modules. -/
inductive GraphError where
  /-- Each name imports the next. -/
  | cycle (chain : List String)
  | unknownModule (hash : String)
  | unknownHead (name : String)
  /-- Nothing is being loaded, and yet a load is waited for. -/
  | stalled (name : String)
  deriving DecidableEq, Repr

namespace GraphError

def message : GraphError → String
  | .cycle chain => "Cyclic import: " ++ " -> ".intercalate chain
  | .unknownModule hash => s!"Unknown module {hash}"
  | .unknownHead name => s!"Unknown head {name}"
  | .stalled name => s!"Output of {name} is pending but nothing is loading"

end GraphError

inductive ModuleError where
  | source (e : SourceError)
  | run (e : RunError)
  /-- An imported module cannot be had. -/
  | notLoaded (i : Import) (cause : LinkError)
  /-- An imported module has failed itself. -/
  | failedImport (i : Import) (cause : ModuleError)
  | graph (e : GraphError)
  /-- The fault is not in the module. -/
  | internal (message : String)

namespace ModuleError

def message : ModuleError → String
  | .source e => e.message
  | .run e => e.message
  | .notLoaded i cause => s!"Failed to import {i.text}: {cause.message}"
  | .failedImport i cause => s!"Failed to import {i.text}: {cause.message}"
  | .graph e => e.message
  | .internal message => s!"Internal error: {message}"

/-- The message with the active calls of a failed run below it. -/
def messageWithTrace : ModuleError → String
  | .run e => e.messageWithTrace
  | .failedImport i cause => s!"Failed to import {i.text}: {cause.messageWithTrace}"
  | e => e.message

/-- A run that fails by malformed code is not the module's fault. -/
def ofRun (e : RunError) : ModuleError :=
  if e.failure.isInternal then .internal e.messageWithTrace else .run e

def isInternal : ModuleError → Bool
  | .internal _ => true
  | _ => false

/-- Where in the module's own code the error is. -/
def span? : ModuleError → Option Span
  | .source e => e.coordinate?.map Span.point
  | .run e => e.span?
  | .notLoaded i _ => i.span
  | .failedImport i _ => i.span
  | .graph _ => none
  | .internal _ => none

/-- The stage at which the module failed. -/
def phase : ModuleError → String
  | .source e => e.phase
  | .run _ => "runtime"
  | .notLoaded _ _ => "import"
  | .failedImport _ _ => "import"
  | .graph _ => "graph"
  | .internal _ => "internal"

/-- The failure that imports carry on: of a load, or of a module by itself. -/
def root : ModuleError → LinkError ⊕ ModuleError
  | .notLoaded _ cause => .inl cause
  | .failedImport _ cause => cause.root
  | e => .inr e

end ModuleError

/-- Why a request fails. -/
inductive ProjectError where
  | graph (e : GraphError)
  | module (e : ModuleError)
  | config (message : String)
  | io (message : String)

namespace ProjectError

def message : ProjectError → String
  | .graph e => e.message
  | .module e => e.message
  | .config message => s!"Config error: {message}"
  | .io message => s!"IO error: {message}"

def span? : ProjectError → Option Span
  | .module e => e.span?
  | _ => none

def phase : ProjectError → String
  | .graph _ => "graph"
  | .module e => e.phase
  | .config _ => "config"
  | .io _ => "io"

end ProjectError

end Estimation
