import Estimation.Command.Display
import Estimation.Command.Settings
import Estimation.Json.Reader
import Estimation.Project.Loading

/-!
Runs from the command line. Whoever runs a command reads files for it, so that what it answers is a
matter of what is in them.
-/

namespace Estimation.Command

def versionText : String := "gauge 0.1.0"

structure Answer where
  exitCode : Nat
  output : List String
  errors : List Line

/-- What is run: code, and the name of its module. -/
structure Entry where
  name : String
  code : String

/-- More rounds of loads than a run waits for. -/
def rounds : Nat := 1 <<< 32

def Options.display (o : Options) : Display :=
  if o.quiet then .nothing else if o.showBindings then .both else .oneOfBoth

/-- The file that a configuration file names. -/
def entryPath (config entry : String) : String :=
  String.ofList (ModulePath.joinText (ModulePath.directoryText config.toList) entry.toList)

section

variable {m : Type → Type} [Monad m] (read : String → m (Except ReadFault String))

def readFile (path : String) : ExceptT Fault m String := do
  match ← ExceptT.lift (read path) with
  | .ok text => return text
  | .error e => throw (.unreadable path e.message)

def readConfig (path : String) : ExceptT Fault m ConfigFile := do
  match (Json.ofText? (← readFile read path)).bind ConfigFile.ofJson? with
  | some file => return file
  | none => throw (.unparsable path)

/-- Code on the command line goes before a file there, and this before one that is configured. -/
def readEntry (o : Options) (config : Option ConfigFile) : ExceptT Fault m Entry := do
  match o.eval with
  | some code => return ⟨"main", code⟩
  | none =>
    let path ←
      match o.file, o.config, config.bind ConfigFile.entry with
      | some file, _, _ => pure file
      | none, some configPath, some entry => pure (entryPath configPath entry)
      | none, _, _ => throw .noEntry
    return ⟨(ModulePath.ofText path.toList).moduleName, ← readFile read path⟩

/-- All that a run needs, in the order in which it is looked at. -/
def prepare (o : Options) : ExceptT Fault m (LogSettings × RunSettings × Entry) := do
  let config ←
    match o.config with
    | some path => some <$> readConfig read path
    | none => pure none
  let log ← ExceptT.mk (pure (LogSettings.of (config.bind ConfigFile.log) o))
  let settings ← ExceptT.mk (pure (o.settings config))
  return (log, settings, ← readEntry read o config)

/-- Runs a module that imports files, and answers with what came of it. -/
def answer (o : Options) (log : LogSettings) (settings : RunSettings) (entry : Entry) : m Answer := do
  let p := (Project.ofSettings settings (some .byPath)).setSource entry.name entry.code
  let load (key : LoadKey) : m (Except LinkError Module) := key.fromFile <$> read key.name
  let (r, p) ← p.run load rounds entry.name
  let logged := (logLines (log.level .project).warns settings.logEvents p.log).map Line.text
  let failed (e : ProjectError) : Answer :=
    ⟨1, [], logged ++ (errorLines e entry.code).map Line.text⟩
  match r with
  | .error e => return failed (.graph e)
  | .ok output =>
    match output.result with
    | .error e => return failed (.module e)
    | .ok success =>
      return ⟨0, o.display.lines success,
        logged ++ profileLines success.profile ++ if o.time then [.timed "Time: " ""] else []⟩

def run (o : Options) : m Answer := do
  match ← (prepare read o).run with
  | .ok (log, settings, entry) => answer read o log settings entry
  | .error fault => return ⟨fault.exitCode, [], [.text s!"Error: {fault.message}"]⟩

end

end Estimation.Command
