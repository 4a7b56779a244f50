import Estimation.Project
import Estimation.Report
import Estimation.Text.Pieces

/-!
What a command writes, in lines. Times differ from run to run, so a line only says where one
belongs.
-/

namespace Estimation.Command

inductive Line where
  | text (s : String)
  /-- A time stands between two texts. -/
  | timed (before after : String)
  deriving DecidableEq, Repr

namespace Line

def render (time : String) : Line → String
  | .text s => s
  | .timed before after => before ++ time ++ after

end Line

/-- What is written for a module that has run. -/
inductive Display where
  | nothing
  /-- The result, or the bindings where there is no result. -/
  | oneOfBoth
  | both
  deriving DecidableEq, Repr

namespace Display

def lines (d : Display) (s : Success) : List String :=
  let bindings := (ValueOf.dict s.bindings).text
  match d with
  | .nothing => []
  | .oneOfBoth =>
    match s.result with
    | .void => [bindings]
    | v => [v.text]
  | .both => [s!"Result: {s.result.text}", s!"Bindings: {bindings}"]

end Display

def profileLine (entry : ProfileEntry) : Line :=
  let place := entry.span.start
  .timed s!"{Text.padLeft 4 (toString place.line)}:{place.column} " s!"  {entry.label}"

def profileLines (profile : Option (List ProfileEntry)) : List Line :=
  match profile with
  | none => []
  | some entries => .text "[Profile]" :: entries.map profileLine

def noticeText : Notice → String
  | .committed name id true => s!"[event] output {name} {id.short} ok"
  | .committed name id false => s!"[event] output {name} {id.short} failed"
  | .loaded name => s!"[event] loaded {name}"
  | .loadFailed name e => s!"[event] load failed {name}: {e.message}"

/-- The warning that goes with a log entry. -/
def warning? : LogEntry → Option String
  | .cyclicImport chain => some (" WARN Cyclic import chain=" ++ " -> ".intercalate chain)
  | .notice (.loadFailed name e) =>
    some s!" WARN Module load failed module={name} error={e.message}"
  | .notice _ => none

/-- Warnings and notices, as far as they are asked for. -/
def logLines (warns events : Bool) (log : List LogEntry) : List String :=
  log.flatMap fun entry =>
    (if warns then (warning? entry).toList else []) ++
      if events then (entry.notice?.map noticeText).toList else []

/-- How many lines are shown before and behind a line. -/
def contextSize : Nat := 3

/-- A line of the source, with a mark below it where it is the line of the place. -/
def contextLine (width : Nat) (place : Coordinate) (number : Nat) (line : List Char) : List String :=
  let shown := s!"{Text.padLeft width (toString number)} | {String.ofList line}"
  if number = place.line then
    [shown, s!"{Text.blanks width} | {Text.blanks (place.column - 1)}^"]
  else [shown]

/-- The lines of a source around a place. -/
def contextLines (source : String) (place : Coordinate) : List String :=
  let all := Text.lines source.toList
  if place.line = 0 ∨ all.length < place.line then []
  else
    let first := max (place.line - contextSize) 1
    let last := min (place.line + contextSize) all.length
    let width := (toString last).length
    let rule := String.ofList (List.replicate (width + 1) '-') ++ "|--"
    let numbered := (all.zip (List.range' 1 all.length)).take last |>.drop (first - 1)
    rule :: numbered.flatMap (fun (line, number) => contextLine width place number line) ++ [rule]

/-- A report on an error, with the source around it. -/
def errorLines (e : ProjectError) (source : String) : List String :=
  let report := e.report
  s!"❌ {report.text}" ::
    match report.place with
    | some place => contextLines source place
    | none => []

end Estimation.Command
