import Estimation.Project

/-!
Outputs on demand. The output of a module needs those of its imports; what is not there is loaded,
and asked for again later. An output that is stored under its identity is not made again.
-/

namespace Estimation

/-- What a project answers when it is asked for an output. -/
inductive Poll where
  | ready (o : Output)
  /-- Something is being loaded for it. -/
  | pending

/-- What an import leads to. -/
inductive ImportTarget where
  | found (name : String) (m : Module)
  | pending
  | failed (e : LinkError)

/-- What became of the imports of a module. -/
inductive Gathered where
  | settled (outcomes : List (Import × ImportOutcome))
  | pending
  /-- An import leads back to the module; the chain says how. -/
  | cyclic (i : Import) (chain : List String)

namespace Gathered

/-- With the outcome of an import before the others. -/
def add (i : Import) (outcome : ImportOutcome) : Gathered → Gathered
  | .settled outcomes => .settled ((i, outcome) :: outcomes)
  | others => others

/-- With a pending import before the others. A cycle among them is known all the same. -/
def addPending : Gathered → Gathered
  | .cyclic i chain => .cyclic i chain
  | _ => .pending

end Gathered

namespace Project

/-- Steps that may change the project. -/
abbrev Work (α : Type) : Type := StateM Project α

/-- Notes what an import leads to, unless that is known. -/
def settle (key : ResolutionKey) (r : Resolution) : Work Unit :=
  modify fun p =>
    if p.store.resolutions.get? key = some r then p else p.apply [.resolutionSettled key r]

/-- Starts a load that is needed and not known. -/
def startLoad (key : LoadKey) (more : List Event) : Work Unit :=
  modify fun p =>
    if (p.store.loads.get? key).isSome || p.sources.isPresent key then p
    else { p.apply (.loadStarted key :: more) with inFlight := p.inFlight ++ [key] }

/-- Finds the module that an import means, or has it loaded. -/
def resolveImport (importer : String) (i : Import) : Work ImportTarget := do
  let p ← get
  let key : ResolutionKey := ⟨importer, i.specifier⟩
  match Sources.target p.resolver importer i with
  | .error e =>
    settle key (.failed none e)
    return .failed e
  | .ok target =>
    let load : LoadKey := ⟨target, i.pin⟩
    match p.sources.find? load, p.store.loads.get? load with
    | some m, _ =>
      settle key (.loaded target m.hash)
      return .found target m
    | none, some .loading => return .pending
    | none, some (.failed e) =>
      settle key (.failed (some target) e)
      return .failed e
    | none, none =>
      if p.resolver.isSome then
        startLoad load [.resolutionSettled key (.loading target)]
        return .pending
      else
        let e := p.sources.absence load
        settle key (.failed (some target) e)
        return .failed e

def commit (o : Output) : Work Unit :=
  modify fun p => (p.apply [.outputCommitted o]).note (.notice (.committed o.name o.id o.isOk))

/-- The output with an identity, made only if it is not there. -/
def stored (id : OutputId) (make : Work Output) : Work Output := do
  match (← get).store.outputs.get? id with
  | some o => return o
  | none =>
    let o ← make
    commit o
    return o

/-- Makes an output. The module is run if it can be. -/
def produce (name : String) (m : Module) (imports : List (Import × ImportOutcome)) : Work Output :=
  modifyGet fun p =>
    (.make name m ⟨p.runs, p.environment, p.limits⟩ imports,
      if (m.runnable imports).isOk then { p with runs := p.runs + 1 } else p)

/-- What becomes of imports, in their order. The names on the chain, the importer last, wait for
it. -/
def gather (output : List String → String → Module → Work Poll) (chain : List String)
    (importer : String) : List Import → Work Gathered
  | [] => return .settled []
  | i :: rest => do
    match ← resolveImport importer i with
    | .failed e => return (← gather output chain importer rest).add i (.failed e)
    | .pending => return (← gather output chain importer rest).addPending
    | .found target m =>
      if target ∈ chain then return .cyclic i (Graph.cycle chain target)
      else
        match ← output chain target m with
        | .ready o => return (← gather output chain importer rest).add i (.ready o)
        | .pending => return (← gather output chain importer rest).addPending

/-- The output of a module under a name. The names on the chain wait for it; so many more may join
them. -/
def compute : Nat → List String → String → Module → Work Poll
  | 0, _, _, _ => return .pending
  | depth + 1, chain, name, m => do
    let p ← get
    match ← gather (compute depth) (chain ++ [name]) name (p.sources.knownImports name m) with
    | .pending => return .pending
    | .settled outcomes =>
      return .ready (← stored (m.outputKey name p.environment outcomes).id (produce name m outcomes))
    | .cyclic i cycle =>
      modify (·.note (.cyclicImport cycle))
      let o := Output.cyclic name m p.environment i (.graph (.cycle cycle))
      return .ready (← stored o.id (pure o))

/-- Asks for the output of what a name stands for. A failed output is an answer too. -/
def poll (name : String) : Work (Except GraphError Poll) := do
  let p ← get
  match p.sources.headModule? name with
  | none => return .error (.unknownHead name)
  | some m => return .ok (← compute p.sources.reach [] name m)

end Project

end Estimation
