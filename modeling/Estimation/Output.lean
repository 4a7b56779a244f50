import Estimation.Evaluation
import Estimation.Module.Error
import Estimation.Output.Id
import Estimation.Value.Path

/-!
Outputs: what a module comes to in an environment, given what became of its imports. A module with
a failed import fails without being run.
-/

namespace Estimation

/-- What a module that has run offers. -/
structure Success where
  result : Value
  /-- The module's own definitions, not those that it goes on from. -/
  bindings : Bindings Value
  /-- The exports of named imports, each as one dictionary. -/
  imports : Bindings Value
  exports : Bindings Value
  profile : Option (List ProfileEntry)

structure Output where
  id : OutputId
  name : String
  module : Module
  environment : Environment
  result : Except ModuleError Success

/-- What became of an import. -/
inductive ImportOutcome where
  | ready (output : Output)
  | failed (e : LinkError)

namespace ImportOutcome

def key (specifier : String) : ImportOutcome → ImportKey
  | .ready output => .output output.id
  | .failed _ => .unresolved specifier

end ImportOutcome

/-- A module that can be run: its program with the values of the names that it does not define. -/
structure Runnable where
  program : Syntax.Program
  externals : Bindings Value
  imports : Bindings Value

namespace Module

/-- All that the output of a module depends on. -/
def outputKey (m : Module) (name : String) (e : Environment)
    (imports : List (Import × ImportOutcome)) : OutputKey :=
  ⟨name, m.hash, e.hash, imports.map fun (i, outcome) => outcome.key i.specifier⟩

/-- The values that an import brings, from what became of it. -/
def importedBy (i : Import) : ImportOutcome → Except ModuleError Success
  | .failed e => .error (.notLoaded i e)
  | .ready output => output.result.mapError (.failedImport i)

/-- The external names that imports bring, and the dictionaries of named ones. Later imports go
over earlier ones. -/
def gather : List (Import × ImportOutcome) → Bindings Value → Bindings Value →
    Except ModuleError (Bindings Value × Bindings Value)
  | [], externals, named => .ok (externals, named)
  | (i, outcome) :: rest, externals, named => do
    let success ← importedBy i outcome
    match i.form with
    | .continued => gather rest (externals.merge success.bindings) named
    | .named name =>
      let exports := ValueOf.dict success.exports
      gather rest (externals.insert name exports) (named.insert name exports)

/-- The first failed import counts, and only then an error in the code. -/
def runnable (m : Module) (imports : List (Import × ImportOutcome)) : Except ModuleError Runnable := do
  let (externals, named) ← gather imports [] []
  let program ← m.program.mapError fun e => .source (.syntactic e)
  return ⟨program, externals, named⟩

/-- Imports are part of the record of a run, behind its statements. -/
def importEntries (imports : List (Import × ImportOutcome)) : List ProfileEntry :=
  imports.filterMap fun (i, outcome) =>
    match outcome, i.span with
    | .ready _, some span => some ⟨i.text, span⟩
    | _, _ => none

end Module

namespace Runnable

/-- Compiles and runs a module. -/
def outcome (r : Runnable) (run : Run) : Except ModuleError Outcome := do
  let code ← (compile r.externals r.program).mapError fun e => .source (.unbound e)
  (Evaluation.runFresh run code).mapError .ofRun

def success (r : Runnable) (run : Run) (imports : List (Import × ImportOutcome)) :
    Except ModuleError Success :=
  (r.outcome run).map fun o =>
    ⟨o.result, o.bindings, r.imports, o.exports, o.profile.map (· ++ Module.importEntries imports)⟩

end Runnable

namespace Output

def isOk (o : Output) : Bool :=
  match o.result with
  | .ok _ => true
  | .error _ => false

/-- An output under the key of what it depends on. -/
def ofImports (name : String) (m : Module) (e : Environment) (imports : List (Import × ImportOutcome))
    (result : Except ModuleError Success) : Output :=
  ⟨(m.outputKey name e imports).id, name, m, e, result⟩

/-- Makes the output of a module whose imports are settled. -/
def make (name : String) (m : Module) (run : Run) (imports : List (Import × ImportOutcome)) : Output :=
  .ofImports name m run.environment imports do
    let runnable ← m.runnable imports
    runnable.success run imports

/-- What a module with an import that leads back to it fails with, under a key of its own. -/
def cyclic (name : String) (m : Module) (e : Environment) (i : Import) (error : ModuleError) : Output :=
  ⟨(⟨name, m.hash, e.hash, [.cyclic i.specifier]⟩ : OutputKey).id, name, m, e, .error error⟩

/-- The value that a path leads to. -/
def valueAt? (o : Output) (path : ValuePath) : Option Value :=
  match o.result with
  | .error _ => none
  | .ok s =>
    Value.part? path.edges <|
      match path.root with
      | .result => s.result
      | .bindings => .dict s.bindings
      | .imports => .dict s.imports
      | .exports => .dict s.exports

/-- Where the module's code writes the value that a path leads to. -/
def locate? (o : Output) (path : ValuePath) : Option Span :=
  match o.module.program with
  | .error _ => none
  | .ok p => p.locate? path

/-- The path to the smallest value that the module's code writes around an offset. -/
def pathAt? (o : Output) (offset : Nat) : Option ValuePath :=
  match o.module.program with
  | .error _ => none
  | .ok p => p.pathAt? offset

end Output

end Estimation
