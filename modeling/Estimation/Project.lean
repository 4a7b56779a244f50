import Estimation.Project.Store

/-!
Projects: modules that import each other, with the outputs that were made of them. Whatever changes
a module drops the outputs that may depend on it.
-/

namespace Estimation

/-- What those who watch a project are told. -/
inductive Notice where
  | committed (name : String) (id : OutputId) (ok : Bool)
  | loaded (name : String)
  | loadFailed (name : String) (e : LinkError)

/-- What a project writes down while it works. -/
inductive LogEntry where
  | notice (n : Notice)
  | cyclicImport (chain : List String)

namespace LogEntry

def notice? : LogEntry → Option Notice
  | .notice n => some n
  | .cyclicImport _ => none

end LogEntry

structure Project where
  store : Store
  /-- What specifiers mean, if modules can be loaded. -/
  resolver : Option Resolver
  limits : Limits
  /-- How many modules have been run. -/
  runs : Nat
  /-- The loads that have been started and not ended, also those that nobody waits for. -/
  inFlight : List LoadKey
  log : List LogEntry

namespace Project

def start (environment : Environment) (limits : Limits) (resolver : Option Resolver) : Project :=
  ⟨.empty environment, resolver, limits, 0, [], []⟩

def ofSettings (settings : RunSettings) (resolver : Option Resolver) : Project :=
  start settings.environment settings.limits resolver

def sources (p : Project) : Sources := p.store.sources

def environment (p : Project) : Environment := p.sources.environment

def notices (p : Project) : List Notice := p.log.filterMap LogEntry.notice?

def apply (p : Project) (events : List Event) : Project := { p with store := p.store.apply events }

def note (p : Project) (entry : LogEntry) : Project := { p with log := p.log ++ [entry] }

/-- The names whose outputs may change with a module. -/
def affectedBy (p : Project) (name : String) : List String := p.sources.affectedBy p.resolver name

/-- Changes what a name stands for. -/
def edit (p : Project) (name : String) (event : Event) : Project :=
  p.apply [event, .outputsCleared (p.affectedBy name)]

def setSource (p : Project) (name code : String) : Project :=
  p.edit name (.sourceSet name (.ofCode code))

def removeSource (p : Project) (name : String) : Project :=
  p.apply [.outputsCleared (p.affectedBy name), .sourceRemoved name]

/-- Lets a name stand for another version that is known. -/
def moveHead (p : Project) (name hash : String) : Except GraphError Project :=
  match p.sources.modules.get? hash with
  | some _ => .ok (p.edit name (.headMoved name hash))
  | none => .error (.unknownModule hash)

def setContinues (p : Project) (name : String) (names : List String) : Project :=
  p.edit name (.continuesSet name names)

def setPins (p : Project) (name : String) (pins : Bindings String) : Project :=
  p.edit name (.pinsSet name pins)

/-- Outputs of another environment are kept, for they have other identities. -/
def setEnvironment (p : Project) (e : Environment) : Project := p.apply [.environmentSet e]

def clean (p : Project) (name : String) : Project := p.apply [.outputsCleared [name]]

def cleanAll (p : Project) : Project := p.apply [.outputsCleared p.sources.names]

def dependencies (p : Project) (name : String) : List String := p.sources.dependencies p.resolver name

def dependents (p : Project) (name : String) : List String :=
  (p.sources.graph p.resolver).dependents name

/-- An order to run all modules in. -/
def runOrder (p : Project) : Except GraphError (List String) :=
  p.sources.runOrder p.resolver p.sources.names

def runOrderFor (p : Project) (name : String) : Except GraphError (List String) :=
  p.sources.runOrder p.resolver [name]

end Project

end Estimation
