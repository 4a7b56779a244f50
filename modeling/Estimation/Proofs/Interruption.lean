import Estimation.Proofs.Repetition

/-!
Requests step by step. Each step sees the project as it is then and changes it at once; between two steps
loads may end, and others may change the project. A request that nothing comes between is answered as it
is at once.
-/

namespace Estimation

open List

/-- What is still to be done, and the answer that it comes to. A step goes on by what it has seen. -/
inductive Request (α : Type) where
  | done (a : α)
  | step (change : Project → Project) (next : Project → Request α)

namespace Request

variable {α β : Type}

def bind (f : α → Request β) : Request α → Request β
  | done a => f a
  | step change next => step change fun p => (next p).bind f

instance : Monad Request where
  pure := done
  bind r f := r.bind f

/-- With nothing between the steps. -/
def run : Request α → Project → α × Project
  | done a, p => (a, p)
  | step change next, p => (next p).run (change p)

variable {p : Project}

theorem run_pure (a : α) : (pure a : Request α).run p = (a, p) := rfl

theorem run_bind (r : Request α) (f : α → Request β) :
    (r >>= f).run p = (f (r.run p).1).run (r.run p).2 := by
  induction r generalizing p with
  | done a => rfl
  | step change next ih => exact ih p

/-! ### The steps of a request -/

def look : Request Project := step id done

def modify (change : Project → Project) : Request Unit := step change fun _ => done ()

def settle (key : ResolutionKey) (r : Resolution) : Request Unit :=
  modify fun p => ((Project.settle key r).run p).2

/-- Starts a load that is needed and not known, and says whether it was. -/
def startLoad (key : LoadKey) (more : List Event) : Request Bool :=
  step (fun p => ((Project.startLoad key more).run p).2) fun p =>
    done !((p.store.loads.get? key).isSome || p.sources.isPresent key)

/-- What an import leads to is looked for again where it came in meanwhile. -/
def resolveImport (importer : String) (i : Import) : Nat → Request ImportTarget
  | 0 => return .pending
  | rounds + 1 => do
    let p ← look
    let key : ResolutionKey := ⟨importer, i.specifier⟩
    match Sources.target p.resolver importer i with
    | .error e =>
      settle key (.failed none e)
      return .failed e
    | .ok target =>
      let load : LoadKey := ⟨target, i.pin⟩
      match p.sources.find? load, p.store.loads.get? load with
      | some m, _ =>
        settle key (.loaded target m.hash)
        return .found target m
      | none, some .loading => return .pending
      | none, some (.failed e) =>
        settle key (.failed (some target) e)
        return .failed e
      | none, none =>
        if p.resolver.isSome then
          if ← startLoad load [.resolutionSettled key (.loading target)] then return .pending
          else resolveImport importer i rounds
        else
          let e := p.sources.absence load
          settle key (.failed (some target) e)
          return .failed e

def commit (o : Output) : Request Unit := modify fun p => ((Project.commit o).run p).2

def stored (id : OutputId) (make : Request Output) : Request Output := do
  match (← look).store.outputs.get? id with
  | some o => return o
  | none =>
    let o ← make
    commit o
    return o

def produce (e : Environment) (name : String) (m : Module) (imports : List (Import × ImportOutcome)) :
    Request Output :=
  step (fun p => if (m.runnable imports).isOk then { p with runs := p.runs + 1 } else p) fun p =>
    done (.make name m ⟨p.runs, e, p.limits⟩ imports)

def gather (output : List String → String → Module → Request Poll) (chain : List String)
    (importer : String) : List Import → Request Gathered
  | [] => return .settled []
  | i :: rest => do
    match ← resolveImport importer i 2 with
    | .failed e => return (← gather output chain importer rest).add i (.failed e)
    | .pending => return (← gather output chain importer rest).addPending
    | .found target m =>
      if target ∈ chain then return .cyclic i (Graph.cycle chain target)
      else
        match ← output chain target m with
        | .ready o => return (← gather output chain importer rest).add i (.ready o)
        | .pending => return (← gather output chain importer rest).addPending

/-- The environment is the one in which the request was made. -/
def compute (e : Environment) : Nat → List String → String → Module → Request Poll
  | 0, _, _, _ => return .pending
  | depth + 1, chain, name, m => do
    let p ← look
    match ← gather (compute e depth) (chain ++ [name]) name (p.sources.knownImports name m) with
    | .pending => return .pending
    | .settled outcomes =>
      return .ready (← stored (m.outputKey name e outcomes).id (produce e name m outcomes))
    | .cyclic i cycle =>
      modify (·.note (.cyclicImport cycle))
      let o := Output.cyclic name m e i (.graph (.cycle cycle))
      return .ready (← stored o.id (return o))

/-- Asks for an output. So many names as `depth` says may wait for each other. -/
def poll (depth : Nat) (name : String) : Request (Except GraphError Poll) := do
  let p ← look
  match p.sources.headModule? name with
  | none => return .error (.unknownHead name)
  | some m => return .ok (← compute p.environment depth [] name m)

/-- The names are looked up first. -/
def cleanAll : Request Unit := do
  let p ← look
  modify (·.apply [.outputsCleared p.sources.names])

/-! ### A request with nothing between its steps -/

theorem run_look (f : Project → Request β) : (look >>= f).run p = (f p).run p := rfl

theorem run_modify (change : Project → Project) (f : Unit → Request β) :
    (modify change >>= f).run p = (f ()).run (change p) := rfl

theorem run_startLoad (key : LoadKey) (more : List Event) (f : Bool → Request β) :
    (startLoad key more >>= f).run p =
      (f !((p.store.loads.get? key).isSome || p.sources.isPresent key)).run
        ((Project.startLoad key more).run p).2 := rfl

variable {importer name target : String} {i : Import} {m : Module} {e : Environment}

theorem resolveImport_known (ht : Sources.target p.resolver importer i = .ok target)
    (hm : p.sources.find? ⟨target, i.pin⟩ = none) (hl : p.store.loads.get? ⟨target, i.pin⟩ = none)
    (hr : p.resolver.isSome) (hknown : p.Known ⟨target, i.pin⟩) (rounds : Nat) :
    (resolveImport importer i rounds).run p = (.pending, p) := by
  induction rounds with
  | zero => rfl
  | succ rounds ih =>
    rw [resolveImport, run_look]
    simp only [ht, hm, hl, hr, if_true]
    rw [run_startLoad, Project.startLoad_of_known hknown, Bool.or_eq_true_iff.2 hknown]
    exact ih

theorem run_resolveImport (importer : String) (i : Import) (rounds : Nat) :
    (resolveImport importer i (rounds + 1)).run p = (Project.resolveImport importer i).run p := by
  rw [resolveImport, run_look]
  simp only [Project.resolveImport, StateT.run_bind, StateT.run_get, pure_bind]
  cases ht : Sources.target p.resolver importer i with
  | error e => rfl
  | ok target =>
    dsimp only
    cases hm : p.sources.find? ⟨target, i.pin⟩ with
    | some m => rfl
    | none =>
      cases hl : p.store.loads.get? ⟨target, i.pin⟩ with
      | some state => cases state <;> rfl
      | none =>
        dsimp only
        split
        · rename_i hr
          change _ = (ImportTarget.pending, ((Project.startLoad ⟨target, i.pin⟩ _).run p).2)
          rw [run_startLoad]
          -- where a head has no version, nothing is found, and yet nothing is loaded for it
          by_cases hknown : p.Known ⟨target, i.pin⟩
          · rw [Bool.or_eq_true_iff.2 hknown, Project.startLoad_of_known hknown]
            exact resolveImport_known ht hm hl hr hknown rounds
          · rw [Bool.eq_false_iff.2 fun h => hknown (Bool.or_eq_true_iff.1 h)]
            rfl
        · rfl

theorem run_stored {id : OutputId} {make : Request Output} {make' : Project.Work Output}
    (h : make.run p = make'.run p) : (stored id make).run p = (Project.stored id make').run p := by
  rw [stored, run_look]
  cases ho : p.store.outputs.get? id with
  | some o => rw [Project.stored_of_get? ho, run_pure]
  | none =>
    rw [Project.stored_of_none ho, ← h, run_bind]
    rfl

theorem run_produce (hp : p.environment = e) (name : String) (m : Module)
    (outcomes : List (Import × ImportOutcome)) :
    (produce e name m outcomes).run p = (Project.produce name m outcomes).run p := by
  rw [← hp]
  rfl

theorem run_gather {answer : List String → String → Module → Request Poll}
    {answer' : List String → String → Module → Project.Work Poll}
    (hlater : ∀ chain target m q, Project.Later q ((answer' chain target m).run q).2)
    (h : ∀ chain target m q, q.environment = e →
      (answer chain target m).run q = (answer' chain target m).run q)
    (chain : List String) (importer : String) (is : List Import) (hp : p.environment = e) :
    (gather answer chain importer is).run p = (Project.gather answer' chain importer is).run p ∧
      ((Project.gather answer' chain importer is).run p).2.environment = e := by
  induction is generalizing p with
  | nil => exact ⟨rfl, hp⟩
  | cons i rest ih =>
    rw [gather, run_bind, run_resolveImport, Project.gather_cons]
    have hquiet := (Project.resolveImport_resolves (p := p) importer i).quiet
    generalize (Project.resolveImport importer i).run p = resolved at hquiet ⊢
    obtain ⟨target, q⟩ := resolved
    have hq : q.environment = e := (congrArg Sources.environment hquiet.sources).trans hp
    cases target with
    | failed error =>
      obtain ⟨hrest, henv⟩ := ih hq
      exact ⟨by rw [run_bind, hrest]; rfl, henv⟩
    | pending =>
      obtain ⟨hrest, henv⟩ := ih hq
      exact ⟨by rw [run_bind, hrest]; rfl, henv⟩
    | found target m =>
      dsimp only
      split
      · exact ⟨rfl, hq⟩
      · rw [run_bind, h chain target m q hq]
        have hlater := hlater chain target m q
        generalize (answer' chain target m).run q = answered at hlater ⊢
        obtain ⟨poll, r⟩ := answered
        obtain ⟨hrest, henv⟩ := ih ((congrArg Sources.environment hlater.sources).trans hq)
        cases poll <;> exact ⟨by rw [run_bind, hrest]; rfl, henv⟩

theorem run_compute (depth : Nat) (chain : List String) (name : String) (m : Module)
    (hp : p.environment = e) :
    (compute e depth chain name m).run p = (Project.compute depth chain name m).run p := by
  induction depth generalizing chain name m p with
  | zero => rfl
  | succ depth ih =>
    obtain ⟨hgather, henv⟩ := run_gather (Project.compute_later depth)
      (fun chain name m q hq => ih chain name m hq) (chain ++ [name]) name
      (p.sources.knownImports name m) hp
    rw [compute, run_look, run_bind, hgather, Project.compute_succ]
    generalize (Project.gather _ _ _ _).run p = gathered at henv ⊢
    obtain ⟨g, q⟩ := gathered
    replace henv : q.environment = e := henv
    cases g with
    | pending => rfl
    | settled outcomes =>
      dsimp only
      rw [run_bind, run_stored (run_produce henv name m outcomes), hp]
      rfl
    | cyclic i cycle =>
      dsimp only
      rw [run_modify, run_bind, run_stored (run_pure _), hp]
      rfl

theorem run_poll (p : Project) (name : String) :
    (poll p.sources.reach name).run p = (Project.poll name).run p := by
  rw [poll, run_look]
  cases hm : p.sources.headModule? name with
  | none => rw [Project.poll_of_none hm, run_pure]
  | some m =>
    rw [Project.poll_of_head hm, run_bind, run_compute _ _ _ _ rfl]
    rfl

theorem run_cleanAll (p : Project) : cleanAll.run p = ((), p.cleanAll) := rfl

end Request

end Estimation
