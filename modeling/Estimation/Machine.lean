import Estimation.Random
import Estimation.Settings
import Estimation.Value

/-!
The state of a run: the slots, the random numbers to come, how many closures there are, and the
record of statements. What belongs to one call, its frame, is not part of the state.
-/

namespace Estimation

structure ProfileEntry where
  label : String
  span : Span
  deriving DecidableEq, Repr

structure MachineOf (β : Type) where
  stack : Array (ValueOf β)
  random : Random
  /-- How many closures the run has made. -/
  closures : Nat
  /-- The statements that have been run, the last first; nothing unless they are recorded. -/
  profile : Option (List ProfileEntry)

abbrev Machine : Type := MachineOf Code

/-- What is the same all through a run. -/
structure Run where
  /-- Marks the closures that the run makes. -/
  origin : Nat
  environment : Environment
  limits : Limits

namespace MachineOf

def start {β : Type} (environment : Environment) : MachineOf β :=
  ⟨#[], .ofSeed environment.effectiveSeed, 0, if environment.profile then some [] else none⟩

end MachineOf

/-- An active call: what is called, and from where. -/
structure Frame where
  name : String
  callSpan : Span
  deriving DecidableEq, Repr

/-- What a call's code sees apart from the state: the active calls, its first slot, and the values
that were captured for it. -/
structure Context (β : Type) where
  frames : List Frame
  base : Nat
  captures : List (ValueOf β)

namespace Context

/-- Outside of all calls. -/
def top {β : Type} : Context β := ⟨[], 0, []⟩

end Context

/-- Steps of a run. What a failing step did to the state stays done. -/
abbrev Eval (β α : Type) : Type := ExceptT RunError (StateM (MachineOf β)) α

/-- The active calls with the place in each that is being run, `span` in the innermost. -/
def traceFrom : List Frame → Span → List TraceFrame
  | [], span => [⟨"<top>", span⟩]
  | frame :: frames, span => ⟨frame.name, span⟩ :: traceFrom frames frame.callSpan

namespace Eval

variable {β α : Type}

/-- Fails at a place in the innermost of the active calls. -/
def fail (frames : List Frame) (span : Span) (failure : Failure) : Eval β α :=
  throw ⟨failure, traceFrom frames span⟩

/-- A result that needs no state. -/
def ofExcept (frames : List Frame) (span : Span) : Except Failure α → Eval β α
  | .ok a => pure a
  | .error failure => fail frames span failure

/-- Drops the slots from `size` on when a step ends, also when it fails. -/
def shrinkingTo (size : Nat) (step : Eval β α) : Eval β α := fun m =>
  let (r, m) := step m
  (r, { m with stack := m.stack.shrink size })

/-- Puts a value on top of the slots. -/
def push (run : Run) (frames : List Frame) (span : Span) (v : ValueOf β) : Eval β Unit := do
  if run.limits.stackSize ≤ (← get).stack.size then
    fail frames span (.stackSize run.limits.stackSize)
  else modify fun m => { m with stack := m.stack.push v }

def pushAll (run : Run) (frames : List Frame) (span : Span) : List (ValueOf β) → Eval β Unit
  | [] => return ()
  | v :: vs => do
    push run frames span v
    pushAll run frames span vs

/-- Adds a statement to the record, where there is one. -/
def record (label : String) (span : Span) : Eval β Unit :=
  modify fun m => { m with profile := m.profile.map (⟨label, span⟩ :: ·) }

end Eval

/-- Steps that draw random numbers. -/
abbrev Draw (α : Type) : Type := ExceptT Failure (StateM Random) α

namespace Eval

/-- Draws from the run's random numbers. -/
def draw {β α : Type} (frames : List Frame) (span : Span) (step : Draw α) :
    Eval β α := fun m =>
  let (r, random) := step m.random
  let m := { m with random }
  match r with
  | .ok a => (.ok a, m)
  | .error failure => (.error ⟨failure, traceFrom frames span⟩, m)

end Eval

end Estimation
