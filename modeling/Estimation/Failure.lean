import Estimation.Native
import Estimation.Number.Notation

/-!
Why a run fails: the causes, and their wording.
-/

namespace Estimation

/-- The numbers from `low` to `high`, both included. -/
structure Range where
  low : Float
  high : Float

namespace Range

def Contains (r : Range) (x : Float) : Prop := r.low ≤ x ∧ x ≤ r.high

instance (r : Range) (x : Float) : Decidable (r.Contains x) := inferInstanceAs (Decidable (_ ∧ _))

def text (r : Range) : String := s!"[{Number.text r.low}, {Number.text r.high}]"

end Range

namespace Failure

/-- A number or a set of samples is not among those that make sense. -/
inductive OutOfDomain where
  | noSamples
  | notANumberAmongSamples
  | quantile (p : Float)
  | negative (what : String) (x : Float)
  | highBelowLow (low high : Float)
  | lowNotBelowHigh
  | squareRoot
  | logarithm
  | notARange (shown : String)
  | reversedRange (low high : Float)
  | boundsNotNumbers (shown : String)

namespace OutOfDomain

def message : OutOfDomain → String
  | .noSamples => "A sample set needs at least one sample"
  | .notANumberAmongSamples => "Sample set contains NaN"
  | .quantile p => s!"Quantile must be between 0 and 1, got {Number.text p}"
  | .negative what x => s!"{what} must be non-negative, got {Number.text x}"
  | .highBelowLow low high =>
    s!"High must be at least low, got low {Number.text low} and high {Number.text high}"
  | .lowNotBelowHigh => "Low value must be less than high value"
  | .squareRoot => "Cannot take the square root of a negative number"
  | .logarithm => "Logarithm requires a positive number"
  | .notARange shown => s!"Expected a [min, max] range but got: {shown}"
  | .reversedRange low high =>
    s!"Range minimum {Number.text low} is larger than maximum {Number.text high}"
  | .boundsNotNumbers shown => s!"Range bounds must be numbers, got: {shown}"

end OutOfDomain

/-- An argument has the right type and is of no use. -/
inductive BadArgument where
  | notWhole (x : Float)
  | comparedNotANumber
  | listIndex (x : Float)
  | negativeCount (n : Int)
  | reversedBounds (low high : Int)
  | elementCount (x : Float)
  | emptyList

namespace BadArgument

def message : BadArgument → String
  | .notWhole x => s!"Expected an integer but got {Number.text x}"
  | .comparedNotANumber => "Cannot compare NaN"
  | .listIndex x => s!"Invalid list index {Number.text x}"
  | .negativeCount n => s!"Sample count must be non-negative, got {n}"
  | .reversedBounds low high => s!"Low value {low} must not be greater than high value {high}"
  | .elementCount x =>
    s!"Number of elements must be a non-negative integer, got {Number.text x}"
  | .emptyList => "List must not be empty"

end BadArgument

/-- Nothing is found under an index or a key. -/
inductive NoAccess where
  | outOfBounds (x : Float) (length : Nat)
  | noKey (key : String)
  | wrongKey (target key : String)

namespace NoAccess

def message : NoAccess → String
  | .outOfBounds x length =>
    s!"Index {Number.text x} is out of bounds for a list of length {length}"
  | .noKey key => s!"Dict has no key named {key}"
  | .wrongKey target key => s!"Can't access {target} with a {key} key"

end NoAccess

/-- The code itself is malformed. -/
inductive Malformed where
  | slot (n : Nat)
  | capture (n : Nat)
  | capturedSlot (n : Nat)
  | capturedCapture (n : Nat)
  | binding (name : String) (slot : Nat)
  | missingArgument (index : Nat)
  deriving DecidableEq, Repr

namespace Malformed

def message : Malformed → String
  | .slot n => s!"stack slot {n} is out of range"
  | .capture n => s!"capture index {n} is out of range"
  | .capturedSlot n => s!"invalid capture source Slot({n})"
  | .capturedCapture n => s!"invalid capture source Capture({n})"
  | .binding name place => s!"binding {name} has no stack slot {place}"
  | .missingArgument index => s!"missing argument {index}"

end Malformed

end Failure

inductive Failure where
  | arity (expected : Arity) (got : Nat)
  | wrongType (expected got : String)
  | notAFunction (shown : String)
  | outOfDomain (cause : Failure.OutOfDomain)
  | outOfRange (index : Nat) (range : Range)
  | badArgument (cause : Failure.BadArgument)
  | callDepth (limit : Nat)
  | stackSize (limit : Nat)
  | thrown (message : String)
  | noAccess (cause : Failure.NoAccess)
  | malformed (cause : Failure.Malformed)

namespace Failure

def message : Failure → String
  | .arity expected got =>
    s!"{expected.text} arguments expected. Instead {got} argument(s) were passed."
  | .wrongType expected got => s!"Expected type: {expected} but got: {got}"
  | .notAFunction shown => s!"{shown} is not a function"
  | .outOfDomain cause => s!"Domain Error: {cause.message}"
  | .outOfRange index range => s!"Parameter {index + 1} must be in domain {range.text}"
  | .badArgument cause => s!"Argument Error: {cause.message}"
  | .callDepth limit => s!"Maximum call depth of {limit} exceeded"
  | .stackSize limit => s!"Stack overflow: more than {limit} live values"
  | .thrown message => message
  | .noAccess cause => s!"Error: {cause.message}"
  | .malformed cause => s!"Internal error: {cause.message}"

/-- Only malformed code fails by a fault that is not the program's. -/
def isInternal : Failure → Bool
  | .malformed _ => true
  | _ => false

end Failure

/-- A call that was active, and the place in it that was being run. -/
structure TraceFrame where
  name : String
  span : Span
  deriving DecidableEq, Repr

/-- A failure with the calls that were active, the innermost first. -/
structure RunError where
  failure : Failure
  trace : List TraceFrame

namespace RunError

def message (e : RunError) : String := e.failure.message

def span? (e : RunError) : Option Span := e.trace.head?.map TraceFrame.span

def traceText (trace : List TraceFrame) : String :=
  "\n".intercalate (trace.map fun frame => s!"  at {frame.name} ({frame.span.start.text})")

/-- The message with the active calls below it. -/
def messageWithTrace (e : RunError) : String :=
  if e.trace.isEmpty then e.message else e.message ++ "\nStack trace:\n" ++ traceText e.trace

end RunError

end Estimation
