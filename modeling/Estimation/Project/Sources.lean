import Estimation.Graph
import Estimation.Module.Error
import Estimation.Settings
import Estimation.Table
import Estimation.Value

/-!
What a project is given: versions of modules, and for names the version that counts, the modules
that go on in it, and the pins of its imports.
-/

namespace Estimation

structure Sources where
  /-- Every version that was ever given, by its hash. -/
  modules : Table String Module
  /-- The hash of the version that a name stands for. -/
  heads : Bindings String
  /-- The names of modules that a module goes on from, without naming them in its code. -/
  continues : Table String (List String)
  /-- The hashes that imports of a module have to have, by specifier. -/
  pins : Table String (Bindings String)
  environment : Environment

namespace Sources

def empty (environment : Environment) : Sources := ⟨[], [], [], [], environment⟩

def head? (s : Sources) (name : String) : Option String := s.heads.get? name

def headModule? (s : Sources) (name : String) : Option Module := do
  s.modules.get? (← s.head? name)

/-- The names of modules, in order. -/
def names (s : Sources) : List String := s.heads.map Prod.fst

/-- The version that a key asks for: the pinned one, or the one that the name stands for. -/
def find? (s : Sources) (key : LoadKey) : Option Module :=
  match key.pin with
  | some pin => s.modules.get? pin
  | none => s.headModule? key.name

def continuesOf (s : Sources) (name : String) : List String := (s.continues.get? name).getD []

/-- The imports that a module has whatever its code says. -/
def continuedImports (s : Sources) (name : String) : List Import :=
  (s.continuesOf name).map Import.continues

/-- All imports of a module, those that its code names last, with their pins. -/
def importsOf (s : Sources) (name : String) (m : Module) : Except Syntax.Error (List Import) := do
  let imports := s.continuedImports name ++ (← m.namedImports)
  match s.pins.get? name with
  | some pins => return imports.map fun i => i.pinned (pins.get? i.specifier)
  | none => return imports

/-- The imports that are known of a module, also where its code is no program. -/
def knownImports (s : Sources) (name : String) (m : Module) : List Import :=
  match s.importsOf name m with
  | .ok imports => imports
  | .error _ => s.continuedImports name

/-- The name of the module that an import means. Continued modules are given by name. -/
def target (resolver : Option Resolver) (importer : String) (i : Import) : Except LinkError String :=
  match i.form, resolver with
  | .named _, some resolve => resolve i.specifier importer
  | _, _ => .ok i.specifier

/-- The names that a module depends on, each once. -/
def dependencies (s : Sources) (resolver : Option Resolver) (name : String) : List String :=
  match s.headModule? name with
  | none => []
  | some m => ((s.knownImports name m).filterMap fun i => (target resolver name i).toOption).eraseDups

def graph (s : Sources) (resolver : Option Resolver) : Graph :=
  ⟨s.names.map fun name => (name, s.dependencies resolver name)⟩

/-- An order of all that some names need, with the names that stand for nothing. -/
def fullOrder (s : Sources) (resolver : Option Resolver) (names : List String) :
    Except GraphError (List String) :=
  ((s.graph resolver).runOrder names).mapError .cycle

/-- An order to run all modules in that some names need. -/
def runOrder (s : Sources) (resolver : Option Resolver) (names : List String) :
    Except GraphError (List String) :=
  (s.fullOrder resolver names).map fun order => order.filter fun name => (s.head? name).isSome

/-- The names whose outputs may change with a module. -/
def affectedBy (s : Sources) (resolver : Option Resolver) (name : String) : List String :=
  (s.graph resolver).transitiveDependents name ++ [name]

/-- Whether nothing has to be loaded for a key. -/
def isPresent (s : Sources) (key : LoadKey) : Bool :=
  match key.pin with
  | some pin => (s.modules.get? pin).isSome
  | none => (s.head? key.name).isSome

/-- Why there is nothing for a key where nothing can be loaded. -/
def absence (s : Sources) (key : LoadKey) : LinkError :=
  match key.pin, s.head? key.name with
  | some pin, some head => .wrongHash key.name pin head
  | _, _ => .notFound key.name

/-- More names than these an output cannot depend on: those of modules, and those of pinned
imports, by their specifiers or as these are understood. -/
def reach (s : Sources) : Nat :=
  s.heads.length + 2 * s.pins.foldr (fun e n => e.2.length + n) 0

end Sources

end Estimation
