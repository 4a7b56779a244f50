import Estimation.Command.Options
import Estimation.Settings.Json

/-!
Settings of a run from a file and from the command line, and what of the log is shown. What the
command line says goes over what the file says.
-/

namespace Estimation.Command

/-- The part of a configuration file about the log. -/
structure LogSection where
  level : Option String
  format : Option String
  /-- Levels of parts of the program. -/
  phases : List (Phase × Option String)
  deriving DecidableEq

structure ConfigFile where
  /-- The file to run, from the directory of the configuration file. -/
  entry : Option String
  environment : Option Environment
  limits : Option Limits
  runner : Option RunnerSettings
  logEvents : Option Bool
  log : Option LogSection
  deriving DecidableEq

/-- A field that may be missing or null. -/
def optional? {α : Type} (read : Json → Option α) (field : Option Json) : Option (Option α) :=
  Json.fieldOr? none (Json.nullable? read) field

namespace LogSection

def ofJson? (j : Json) : Option LogSection := do
  let fields ← j.fields? ("level" :: "format" :: Phase.all.map Phase.name)
  let values ← fields.mapM (optional? Json.string?)
  match values with
  | level :: format :: phases => return ⟨level, format, Phase.all.zip phases⟩
  | _ => none

end LogSection

namespace ConfigFile

def ofJson? (j : Json) : Option ConfigFile := do
  let [entry, environment, limits, runner, logEvents, log] ←
    j.fields? ["entry", "environment", "limits", "runner", "logEvents", "log"] | none
  return {
    entry := ← optional? Json.string? entry
    environment := ← optional? Environment.ofJson? environment
    limits := ← optional? Limits.ofJson? limits
    runner := ← optional? RunnerSettings.ofJson? runner
    logEvents := ← optional? Json.bool? logEvents
    log := ← optional? LogSection.ofJson? log }

end ConfigFile

/-- Why a command fails before the program is run. -/
inductive Fault where
  | zeroSamples
  | unknownRunner (name : String)
  | unknownLevel (name : String)
  | unknownFormat (name : String)
  | noEntry
  | unparsable (path : String)
  | unreadable (path message : String)
  deriving DecidableEq, Repr

namespace Fault

def message : Fault → String
  | .zeroSamples => "--sample-count must be at least 1"
  | .unknownRunner name => RunnerKind.unknownMessage name
  | .unknownLevel name => s!"Unknown log level: {name}"
  | .unknownFormat name => s!"Unknown log format: {name}"
  | .noEntry => "Provide a FILE, -e CODE, or a config with an 'entry'"
  | .unparsable path => s!"Config error: Failed to parse '{path}'"
  | .unreadable path message => s!"Cannot read '{path}': {message}"

/-- Files that are no good are told apart from a command line that is none. -/
def exitCode : Fault → Nat
  | .unparsable _ => 1
  | .unreadable _ _ => 1
  | _ => 2

end Fault

/-- How much a part of the program writes to the log. -/
inductive LogLevel where
  | off
  | error
  | warn
  | info
  | debug
  | trace
  deriving DecidableEq, Repr

namespace LogLevel

/-- Levels are named in letters of either case. -/
def ofName (name : String) : Except Fault LogLevel :=
  match name.map Char.toLower with
  | "silent" => .ok .off
  | "off" => .ok .off
  | "error" => .ok .error
  | "warn" => .ok .warn
  | "info" => .ok .info
  | "debug" => .ok .debug
  | "trace" => .ok .trace
  | _ => .error (.unknownLevel name)

/-- Whether warnings are shown. -/
def warns : LogLevel → Bool
  | .off => false
  | .error => false
  | _ => true

end LogLevel

inductive LogFormat where
  | pretty
  | compact
  | json
  deriving DecidableEq, Repr

namespace LogFormat

def ofName (name : String) : Except Fault LogFormat :=
  match name.map Char.toLower with
  | "pretty" => .ok .pretty
  | "compact" => .ok .compact
  | "json" => .ok .json
  | _ => .error (.unknownFormat name)

end LogFormat

/-- What is shown of the log, by the part that writes it. -/
structure LogSettings where
  general : LogLevel
  phases : List (Phase × LogLevel)
  format : LogFormat
  deriving DecidableEq, Repr

namespace LogSettings

def level (l : LogSettings) (phase : Phase) : LogLevel := (l.phases.lookup phase).getD l.general

/-- Levels by part, where they are given. -/
def phaseLevels : List (Phase × Option String) → Except Fault (List (Phase × LogLevel))
  | [] => .ok []
  | (phase, some name) :: rest => do
    let level ← LogLevel.ofName name
    return (phase, level) :: (← phaseLevels rest)
  | (_, none) :: rest => phaseLevels rest

/-- Warnings are shown unless something else is said. Names in the file have to be good even where
the command line goes over them, but for that of the format. -/
def of (section? : Option LogSection) (o : Options) : Except Fault LogSettings := do
  let inFile ←
    match section?.bind LogSection.level with
    | some name => LogLevel.ofName name
    | none => pure .warn
  let phases ← phaseLevels ((section?.map LogSection.phases).getD [])
  let general ←
    match o.logLevel with
    | some name => LogLevel.ofName name
    | none => pure inFile
  let format ←
    match o.logFormat.or (section?.bind LogSection.format) with
    | some name => LogFormat.ofName name
    | none => pure .compact
  return ⟨general, phases, format⟩

end LogSettings

/-- The settings that a configuration file makes, by whole groups. -/
def ConfigFile.settings (file : ConfigFile) : RunSettings where
  environment := file.environment.getD .default
  limits := file.limits.getD .default
  runner := file.runner.getD .default
  logEvents := file.logEvents.getD false

namespace Options

def runnerKind (o : Options) (usual : RunnerKind) : Except Fault RunnerKind :=
  match o.runner with
  | none => .ok usual
  | some name =>
    match RunnerKind.ofName? name with
    | some kind => .ok kind
    | none => .error (.unknownRunner name)

/-- The settings of a run: what the command line says, else what the file says, else what is
usual. -/
def settings (o : Options) (file : Option ConfigFile) : Except Fault RunSettings := do
  let base := (file.map ConfigFile.settings).getD .default
  if o.sampleCount = some 0 then throw .zeroSamples
  let kind ← o.runnerKind base.runner.kind
  return {
    environment :=
      { base.environment with
        sampleCount := o.sampleCount.getD base.environment.sampleCount
        seed := o.seed.or base.environment.seed
        profile := base.environment.profile || o.profile }
    limits := base.limits
    runner := ⟨kind, o.runnerThreads.getD base.runner.threads, o.timeout.or base.runner.timeout⟩
    logEvents := base.logEvents || o.logEvents }

end Options

end Estimation.Command
