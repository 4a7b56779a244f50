import Estimation.Library.Arguments

/-!
Functions of numbers.
-/

namespace Estimation.Library

variable {β : Type}

def function (f : Float → Float) (args : List (ValueOf β)) : Result (ValueOf β) := do
  return .number (f (← number args 0))

def squareRoot (args : List (ValueOf β)) : Result (ValueOf β) := do
  let x ← number args 0
  if x < 0 then .error (.outOfDomain .squareRoot) else return .number x.sqrt

/-- Logarithms are of positive numbers; what is not a number has none. -/
def logarithm (f : Float → Float) (args : List (ValueOf β)) : Result (ValueOf β) := do
  let x ← number args 0
  if x ≤ 0 then .error (.outOfDomain .logarithm) else return .number (f x)

/-- The lesser number, the second of two equal ones; a number goes before what is not one. -/
def lesser (x y : Float) : Float := if x < y || y.isNaN then x else y

def greater (x y : Float) : Float := if y < x || y.isNaN then x else y

def extremumOf (pick : Float → Float → Float) (best : Option Float) :
    List (ValueOf β) → Result (ValueOf β)
  | [] =>
    match best with
    | some x => return .number x
    | none => .error (.badArgument .emptyList)
  | v :: vs => do
    let x ← asNumber v
    extremumOf pick (some (best.elim x (pick · x))) vs

/-- Of two numbers, or of the numbers in a list. -/
def extremum (pick : Float → Float → Float) (args : List (ValueOf β)) : Result (ValueOf β) := do
  if args.length = 2 then
    let x ← number args 0
    return .number (pick x (← number args 1))
  else extremumOf pick none (← list args 0)

end Estimation.Library
