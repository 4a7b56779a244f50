import Estimation.Output
import Estimation.Project.Sources

/-!
The state of a project, and the events that change it. An event says what becomes of each table, and
the tables do not look at each other. A batch of events makes one new version of the state.
-/

namespace Estimation

/-- An import: whose it is, and what it is called there. -/
structure ResolutionKey where
  importer : String
  specifier : String
  deriving DecidableEq, Repr

/-- What is known of an import. -/
inductive Resolution where
  | loading (target : String)
  | loaded (target hash : String)
  | failed (target : Option String) (e : LinkError)
  deriving DecidableEq, Repr

namespace Resolution

def target? : Resolution → Option String
  | .loading target => some target
  | .loaded target _ => some target
  | .failed target _ => target

def isLoading : Resolution → Bool
  | .loading _ => true
  | _ => false

end Resolution

/-- A load that has not brought a module. -/
inductive LoadState where
  | loading
  | failed (e : LinkError)
  deriving DecidableEq, Repr

inductive Event where
  | sourceSet (name : String) (m : Module)
  | sourceRemoved (name : String)
  | headMoved (name hash : String)
  | continuesSet (name : String) (names : List String)
  | pinsSet (name : String) (pins : Bindings String)
  | environmentSet (e : Environment)
  | resolutionSettled (key : ResolutionKey) (r : Resolution)
  | loadStarted (key : LoadKey)
  | loadFinished (key : LoadKey) (result : Except LinkError Module)
  | outputCommitted (o : Output)
  | outputsCleared (names : List String)

structure Store where
  sources : Sources
  resolutions : Table ResolutionKey Resolution
  loads : Table LoadKey LoadState
  outputs : Table OutputId Output
  version : Nat

namespace Event

/-- A version once stored stays. -/
def onModules (t : Table String Module) : Event → Table String Module
  | .sourceSet _ m => t.setNew m.hash m
  | .loadFinished _ (.ok m) => t.setNew m.hash m
  | _ => t

/-- A load that ends gives a name its version only where it has none. -/
def onHeads (heads : Bindings String) : Event → Bindings String
  | .sourceSet name m => heads.insert name m.hash
  | .sourceRemoved name => Table.erase name heads
  | .headMoved name hash => heads.insert name hash
  | .loadFinished key (.ok m) =>
    if (heads.get? key.name).isSome then heads else heads.insert key.name m.hash
  | _ => heads

def onContinues (t : Table String (List String)) : Event → Table String (List String)
  | .sourceRemoved name => t.erase name
  | .continuesSet name names => t.set name names
  | _ => t

def onPins (t : Table String (Bindings String)) : Event → Table String (Bindings String)
  | .sourceRemoved name => t.erase name
  | .pinsSet name pins => t.set name pins
  | _ => t

def onEnvironment (e : Environment) : Event → Environment
  | .environmentSet e => e
  | _ => e

def onSources (s : Sources) (event : Event) : Sources where
  modules := event.onModules s.modules
  heads := event.onHeads s.heads
  continues := event.onContinues s.continues
  pins := event.onPins s.pins
  environment := event.onEnvironment s.environment

def onResolutions (t : Table ResolutionKey Resolution) : Event → Table ResolutionKey Resolution
  | .sourceRemoved name => t.filter fun (key, _) => key.importer ≠ name
  | .resolutionSettled key r => t.set key r
  | _ => t

/-- A module that is given anew needs no load any more. -/
def onLoads (t : Table LoadKey LoadState) : Event → Table LoadKey LoadState
  | .sourceSet name _ => t.filter fun (key, _) => key.name ≠ name
  | .loadStarted key => t.set key .loading
  | .loadFinished key (.ok _) => t.erase key
  | .loadFinished key (.error e) => t.set key (.failed e)
  | _ => t

def without (names : List String) (t : Table OutputId Output) : Table OutputId Output :=
  t.filter fun (_, o) => o.name ∉ names

/-- What a name stands for is part of its outputs. -/
def onOutputs (t : Table OutputId Output) : Event → Table OutputId Output
  | .sourceSet name _ => without [name] t
  | .sourceRemoved name => without [name] t
  | .headMoved name _ => without [name] t
  | .continuesSet name _ => without [name] t
  | .pinsSet name _ => without [name] t
  | .outputCommitted o => t.set o.id o
  | .outputsCleared names => without names t
  | _ => t

end Event

namespace Store

def empty (environment : Environment) : Store := ⟨.empty environment, [], [], [], 0⟩

def step (s : Store) (event : Event) : Store where
  sources := event.onSources s.sources
  resolutions := event.onResolutions s.resolutions
  loads := event.onLoads s.loads
  outputs := event.onOutputs s.outputs
  version := s.version

/-- Applies a batch of events, an empty one too. -/
def apply (s : Store) (events : List Event) : Store :=
  let s := events.foldl step s
  { s with version := s.version + 1 }

/-- Applies a batch of events, if there are any. -/
def applyAny (s : Store) (events : List Event) : Store := if events.isEmpty then s else s.apply events

def isLoading (s : Store) : Bool := s.loads.any fun (_, state) => state = .loading

def outputsOf (s : Store) (name : String) : List Output :=
  (s.outputs.map Prod.snd).filter fun o => o.name = name

end Store

end Estimation
