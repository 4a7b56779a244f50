import Estimation.Project.Computation

/-!
Loads that end, and requests that wait for them. Whoever drives a project says what each load
brings; all loads in flight end in one round, and a request waits for so many rounds.
-/

namespace Estimation

namespace Project

/-- Ends a load with what it brings. -/
def finishLoad (p : Project) (key : LoadKey) (result : Except LinkError Module) : Project :=
  let notice : Notice :=
    match result with
    | .ok _ => .loaded key.name
    | .error e => .loadFailed key.name e
  { (p.apply [.loadFinished key result]).note (.notice notice) with inFlight := p.inFlight.erase key }

section

variable {m : Type → Type} [Monad m] (load : LoadKey → m (Except LinkError Module))

/-- Ends all loads in flight. -/
def finishLoads (p : Project) : m Project :=
  p.inFlight.foldlM (fun p key => return p.finishLoad key (← load key)) p

/-- The output of what a name stands for, once all is loaded that it needs. -/
def run (rounds : Nat) (name : String) (p : Project) : m (Except GraphError Output × Project) :=
  match (poll name).run p with
  | (.error e, p) => return (.error e, p)
  | (.ok (.ready o), p) => return (.ok o, p)
  | (.ok .pending, p) =>
    match p.store.isLoading, rounds with
    | true, rounds + 1 => do
      let p ← finishLoads load p
      run rounds name p
    | _, _ => return (.error (.stalled name), p)

/-- The outputs of several names. -/
def runEach (rounds : Nat) : List String → Project → m (Except GraphError (List Output) × Project)
  | [], p => return (.ok [], p)
  | name :: names, p => do
    match ← run load rounds name p with
    | (.error e, p) => return (.error e, p)
    | (.ok o, p) =>
      let (others, p) ← runEach rounds names p
      return (others.map (o :: ·), p)

/-- The outputs of all modules, in the order to run them in. -/
def runAll (rounds : Nat) (p : Project) : m (Except GraphError (List Output) × Project) :=
  match p.runOrder with
  | .error e => return (.error e, p)
  | .ok names => runEach load rounds names p

/-- The names that have to be loaded for a name, as far as that is known. -/
def missing (p : Project) (name : String) : Except GraphError (List String) :=
  (p.sources.fullOrder p.resolver [name]).map fun order =>
    order.filter fun n =>
      (p.sources.head? n).isNone &&
        match p.store.loads.get? ⟨n, none⟩ with
        | some (.failed _) => false
        | _ => true

/-- Loads all that a name needs, without making outputs. Loads that fail do no harm here. -/
def loadImports (rounds : Nat) (name : String) (p : Project) : m (Except GraphError Unit × Project) :=
  if p.resolver.isNone then return (.ok (), p)
  else
    match p.missing name with
    | .error e => return (.error e, p)
    | .ok names =>
      if names.isEmpty && !p.store.isLoading then return (.ok (), p)
      else
        match rounds with
        | 0 => return (.error (.stalled name), p)
        | rounds + 1 => do
          let p := names.foldl (fun p n => ((startLoad ⟨n, none⟩ []).run p).2) p
          let p ← finishLoads load p
          loadImports rounds name p

end

end Project

end Estimation
