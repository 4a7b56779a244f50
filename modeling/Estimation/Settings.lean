/-!
Settings of a run: what the numbers depend on, how far a run may go, and who drives it.
-/

namespace Estimation

/-- What the numbers of a run depend on, the program apart. -/
structure Environment where
  /-- How many samples a distribution has. -/
  sampleCount : Nat
  pointLength : Nat
  /-- Without a seed, the usual one is taken. -/
  seed : Option String
  /-- Whether statements are recorded as they are run. -/
  profile : Bool
  deriving DecidableEq, Repr

namespace Environment

def usualSeed : String := "default-seed"

def default : Environment := ⟨1000, 1000, some usualSeed, false⟩

instance : Inhabited Environment := ⟨default⟩

def effectiveSeed (e : Environment) : String := e.seed.getD usualSeed

end Environment

/-- How far a run may go. -/
structure Limits where
  callDepth : Nat
  stackSize : Nat
  deriving DecidableEq, Repr

namespace Limits

def default : Limits := ⟨256, 1 <<< 20⟩

instance : Inhabited Limits := ⟨default⟩

end Limits

inductive RunnerKind where
  | embedded
  | thread
  deriving DecidableEq, Repr

namespace RunnerKind

def name : RunnerKind → String
  | .embedded => "embedded"
  | .thread => "thread"

/-- Runners are named in letters of either case. -/
def ofName? (name : String) : Option RunnerKind :=
  match name.map Char.toLower with
  | "embedded" => some .embedded
  | "thread" => some .thread
  | "threads" => some .thread
  | _ => none

def unknownMessage (name : String) : String := s!"Unknown runner: {name}"

end RunnerKind

structure RunnerSettings where
  kind : RunnerKind
  threads : Nat
  timeout : Option Nat
  deriving DecidableEq, Repr

namespace RunnerSettings

def default : RunnerSettings := ⟨.embedded, 2, none⟩

end RunnerSettings

structure RunSettings where
  environment : Environment
  limits : Limits
  runner : RunnerSettings
  logEvents : Bool
  deriving DecidableEq, Repr

namespace RunSettings

def default : RunSettings := ⟨.default, .default, .default, false⟩

instance : Inhabited RunSettings := ⟨default⟩

end RunSettings

/-- The parts of the program that write to the log. -/
inductive Phase where
  | lexer
  | parser
  | compiler
  | interpreter
  | project
  | runner
  deriving DecidableEq, Repr

namespace Phase

def all : List Phase := [.lexer, .parser, .compiler, .interpreter, .project, .runner]

def name : Phase → String
  | .lexer => "lexer"
  | .parser => "parser"
  | .compiler => "compiler"
  | .interpreter => "interpreter"
  | .project => "project"
  | .runner => "runner"

/-- Log lines carry the target of the part that writes them. -/
def target (p : Phase) : String := "gauge::" ++ p.name

end Phase

end Estimation
