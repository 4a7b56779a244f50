import Estimation.Json
import Estimation.Report.Kind

/-!
Reports of errors, for people and for programs.
-/

namespace Estimation

structure Report where
  phase : String
  /-- Where the error is, if it is in the code that was asked about. -/
  place : Option Coordinate
  kind : ErrorKind
  message : String
  deriving DecidableEq, Repr

namespace Report

/-- A report on one line, unless the message has more. -/
def text (r : Report) : String :=
  match r.place with
  | some place => s!"[{place.text}] {r.phase} error: {r.message}"
  | none => s!"[{r.phase}] {r.phase} error: {r.message}"

def short (r : Report) : String := s!"{r.phase}: {r.message}"

def json (r : Report) : Json :=
  .object [("phase", .string r.phase), ("line", .optional .ofNat (r.place.map Coordinate.line)),
    ("column", .optional .ofNat (r.place.map Coordinate.column)), ("error_kind", .string r.kind.text),
    ("message", .string r.message)]

end Report

namespace ProjectError

/-- The message of a report, which shows the active calls of a failed run. -/
def fullMessage : ProjectError → String
  | .module e => e.messageWithTrace
  | e => e.message

def report (e : ProjectError) : Report :=
  ⟨e.phase, e.span?.map Span.start, e.kind, e.fullMessage⟩

end ProjectError

end Estimation
