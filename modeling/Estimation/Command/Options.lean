import Estimation.Settings
import Estimation.Table

/-!
The command line: its options, in long and in short form, and the requests that it can make.
-/

namespace Estimation.Command

/-- Options without a value. -/
inductive Flag where
  | profile
  | quiet
  | showBindings
  | time
  | logEvents
  deriving DecidableEq, Repr

/-- Options with a value. -/
inductive Setting where
  | eval
  | config
  | sampleCount
  | seed
  | runner
  | runnerThreads
  | timeout
  | logLevel
  | logFormat
  deriving DecidableEq, Repr

inductive OptionName where
  | flag (f : Flag)
  | setting (s : Setting)
  | help
  deriving DecidableEq, Repr

namespace OptionName

def ofLong? : String → Option OptionName
  | "profile" => some (.flag .profile)
  | "quiet" => some (.flag .quiet)
  | "show-bindings" => some (.flag .showBindings)
  | "time" => some (.flag .time)
  | "log-events" => some (.flag .logEvents)
  | "eval" => some (.setting .eval)
  | "config" => some (.setting .config)
  | "sample-count" => some (.setting .sampleCount)
  | "seed" => some (.setting .seed)
  | "runner" => some (.setting .runner)
  | "runner-threads" => some (.setting .runnerThreads)
  | "timeout-ms" => some (.setting .timeout)
  | "log-level" => some (.setting .logLevel)
  | "log-format" => some (.setting .logFormat)
  | "help" => some .help
  | _ => none

def ofShort? : Char → Option OptionName
  | 'q' => some (.flag .quiet)
  | 'b' => some (.flag .showBindings)
  | 't' => some (.flag .time)
  | 'e' => some (.setting .eval)
  | 'h' => some .help
  | _ => none

end OptionName

/-- A whole number of sixty-four bits, in decimal digits behind a plus sign or none. -/
def natural? (text : String) : Option Nat :=
  let digits :=
    match text.toList with
    | '+' :: rest => rest
    | digits => digits
  if digits.isEmpty ∨ digits.any fun c => !c.isDigit then none
  else
    let n := digits.foldl (fun n c => 10 * n + (c.toNat - '0'.toNat)) 0
    if n < 1 <<< 64 then some n else none

/-- Why a command line is not followed any further. -/
inductive Halt where
  | usage
  | help
  deriving DecidableEq, Repr

/-- What a command line has given so far. -/
structure Given where
  flags : List Flag
  settings : Table Setting String
  file : Option String

namespace Given

def nothing : Given := ⟨[], [], none⟩

/-- Whether a text can be the value of an option. -/
def accepts (s : Setting) (value : String) : Bool :=
  match s with
  | .sampleCount => (natural? value).isSome
  | .runnerThreads => (natural? value).isSome
  | .timeout => (natural? value).isSome
  | .config => !value.isEmpty
  | _ => true

/-- Nothing can be given twice. -/
def addFlag (f : Flag) (g : Given) : Except Halt Given :=
  if f ∈ g.flags then .error .usage else .ok { g with flags := f :: g.flags }

def addSetting (s : Setting) (value : String) (g : Given) : Except Halt Given :=
  if (g.settings.get? s).isSome || !accepts s value then .error .usage
  else .ok { g with settings := g.settings.set s value }

def addFile (file : String) (g : Given) : Except Halt Given :=
  if g.file.isSome || file.isEmpty then .error .usage else .ok { g with file := some file }

/-- Short options in one argument. The first one with a value takes all that is left, or, where
nothing is, the next argument. -/
def addShort : List Char → Given → Except Halt (Given × Option Setting)
  | [], g => .ok (g, none)
  | c :: rest, g =>
    match OptionName.ofShort? c with
    | none => .error .usage
    | some .help => .error .help
    | some (.flag f) => do addShort rest (← g.addFlag f)
    | some (.setting s) =>
      match rest with
      | [] => .ok (g, some s)
      | '=' :: value => do return (← g.addSetting s (String.ofList value), none)
      | value => do return (← g.addSetting s (String.ofList value), none)

end Given

/-- What an argument looks like. -/
inductive Shape where
  /-- Behind two dashes there are only files. -/
  | separator
  | long (name : List Char) (value : Option (List Char))
  | short (letters : List Char)
  | word
  deriving DecidableEq, Repr

namespace Shape

def ofText : List Char → Shape
  | ['-', '-'] => .separator
  | '-' :: '-' :: rest =>
    .long (rest.takeWhile (· ≠ '=')) (if '=' ∈ rest then some ((rest.dropWhile (· ≠ '=')).drop 1) else none)
  | '-' :: c :: rest => .short (c :: rest)
  | _ => .word

end Shape

namespace Given

/-- Follows arguments. An option that waits for its value takes a word, and nothing else. -/
def addAll (g : Given) (waiting : Option Setting) (onlyFiles : Bool) :
    List String → Except Halt Given
  | [] => if waiting.isSome then .error .usage else .ok g
  | arg :: rest =>
    if onlyFiles then do (← g.addFile arg).addAll none true rest
    else
      match waiting, Shape.ofText arg.toList with
      | some s, .word => do (← g.addSetting s arg).addAll none false rest
      | some _, _ => .error .usage
      | none, .separator => g.addAll none true rest
      | none, .word => do (← g.addFile arg).addAll none false rest
      | none, .short letters => do
        let (g, waiting) ← g.addShort letters
        g.addAll waiting false rest
      | none, .long name value =>
        match OptionName.ofLong? (String.ofList name), value with
        | some .help, none => .error .help
        | some (.flag f), none => do (← g.addFlag f).addAll none false rest
        | some (.setting s), some value => do
          (← g.addSetting s (String.ofList value)).addAll none false rest
        | some (.setting s), none => g.addAll (some s) false rest
        | _, _ => .error .usage

end Given

/-- The options of a run. -/
structure Options where
  file : Option String
  eval : Option String
  config : Option String
  sampleCount : Option Nat
  seed : Option String
  runner : Option String
  runnerThreads : Option Nat
  timeout : Option Nat
  logLevel : Option String
  logFormat : Option String
  profile : Bool
  quiet : Bool
  showBindings : Bool
  time : Bool
  logEvents : Bool
  deriving DecidableEq, Repr

namespace Options

def ofGiven (g : Given) : Options where
  file := g.file
  eval := g.settings.get? .eval
  config := g.settings.get? .config
  sampleCount := (g.settings.get? .sampleCount).bind natural?
  seed := g.settings.get? .seed
  runner := g.settings.get? .runner
  runnerThreads := (g.settings.get? .runnerThreads).bind natural?
  timeout := (g.settings.get? .timeout).bind natural?
  logLevel := g.settings.get? .logLevel
  logFormat := g.settings.get? .logFormat
  profile := .profile ∈ g.flags
  quiet := .quiet ∈ g.flags
  showBindings := .showBindings ∈ g.flags
  time := .time ∈ g.flags
  logEvents := .logEvents ∈ g.flags

/-- Code comes from one place, and what is shown is either less than usual or more. -/
def isConsistent (o : Options) : Bool :=
  !(o.file.isSome && o.eval.isSome) && !(o.quiet && o.showBindings)

/-- The options of a run. A sample count that is not given may stand in the environment. -/
def ofArguments (sampleCountVariable : Option String) (args : List String) : Except Halt Options := do
  let g ← Given.nothing.addAll none false args
  let g ←
    match g.settings.get? .sampleCount, sampleCountVariable with
    | none, some value => g.addSetting .sampleCount value
    | _, _ => pure g
  let o := ofGiven g
  if o.isConsistent then return o else throw .usage

end Options

/-- What a command line asks for. -/
inductive Request where
  | run (o : Options)
  | version
  | help
  /-- The command line cannot be understood. -/
  | usage

namespace Request

def ofArguments (sampleCountVariable : Option String) : List String → Request
  | "run" :: args =>
    match Options.ofArguments sampleCountVariable args with
    | .ok o => .run o
    | .error .help => .help
    | .error .usage => .usage
  | ["help"] => .help
  | ["help", "run"] => .help
  | ["help", "help"] => .help
  | "--help" :: _ => .help
  | "--version" :: _ => .version
  | arg :: _ =>
    match Shape.ofText arg.toList with
    | .short ('h' :: _) => .help
    | .short ('V' :: _) => .version
    | _ => .usage
  | [] => .usage

end Request

end Estimation.Command
