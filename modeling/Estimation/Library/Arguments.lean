import Estimation.Value

/-!
Taking arguments of a wanted type.
-/

namespace Estimation.Library

variable {β : Type}

/-- How functions without access to the run end. -/
abbrev Result (α : Type) : Type := Except Failure α

def argument (args : List (ValueOf β)) (index : Nat) : Result (ValueOf β) :=
  match args[index]? with
  | some v => .ok v
  | none => .error (.malformed (.missingArgument index))

def wrongType {α : Type} (expected : String) (v : ValueOf β) : Result α :=
  .error (.wrongType expected v.typeName)

def asNumber : ValueOf β → Result Float
  | .number x => .ok x
  | v => wrongType "Number" v

def asBool : ValueOf β → Result Bool
  | .bool b => .ok b
  | v => wrongType "Bool" v

def number (args : List (ValueOf β)) (index : Nat) : Result Float := do
  asNumber (← argument args index)

def bool (args : List (ValueOf β)) (index : Nat) : Result Bool := do
  asBool (← argument args index)

def string (args : List (ValueOf β)) (index : Nat) : Result String := do
  match ← argument args index with
  | .string s => return s
  | v => wrongType "String" v

def list (args : List (ValueOf β)) (index : Nat) : Result (List (ValueOf β)) := do
  match ← argument args index with
  | .list items => return items
  | v => wrongType "List" v

def dict (args : List (ValueOf β)) (index : Nat) : Result (Bindings (ValueOf β)) := do
  match ← argument args index with
  | .dict entries => return entries
  | v => wrongType "Dict" v

def lambda (args : List (ValueOf β)) (index : Nat) : Result (LambdaOf β) := do
  match ← argument args index with
  | .lambda f => return f
  | v => wrongType "Lambda" v

/-- A set of samples; a number counts as a set of one. -/
def samples (args : List (ValueOf β)) (index : Nat) : Result Samples := do
  match ← argument args index with
  | .samples s => return s
  | .number x => Samples.ofList [x]
  | v => wrongType "Distribution" v

def isWhole (x : Float) : Bool := x.isFinite && (Number.Binary.ofFloat x).isWhole

/-- The nearest whole number of sixty-four bits. -/
def clamped (k : Int) : Int := max (-(1 <<< 63)) (min k ((1 <<< 63) - 1))

/-- A whole number, the nearest of sixty-four bits where it lies beyond them. -/
def integer (args : List (ValueOf β)) (index : Nat) : Result Int := do
  let x ← number args index
  if isWhole x then return clamped (Number.integral x) else .error (.badArgument (.notWhole x))

end Estimation.Library
