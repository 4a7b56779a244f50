import Estimation.Library.Arguments

/-!
Operators, and what every value has: type and text.
-/

namespace Estimation.Library

variable {β : Type}

/-- Numbers with numbers, sets of samples sample by sample, and one with the other. -/
def arithmetic (op : Float → Float → Float) (args : List (ValueOf β)) : Result (ValueOf β) := do
  match ← argument args 0, ← argument args 1 with
  | .number x, .number y => return .number (op x y)
  | .samples s, .samples t => return .samples (← s.zipWith op t)
  | .samples s, .number y => return .samples (← s.map (op · y))
  | .number x, .samples t => return .samples (← t.map (op x))
  | v, w =>
    .error (.wrongType "Number or Distribution" s!"({v.typeName}, {w.typeName})")

/-- Joins texts where one side is a string, adds otherwise. -/
def add (args : List (ValueOf β)) : Result (ValueOf β) := do
  match ← argument args 0, ← argument args 1 with
  | .string s, w => return .string (s ++ w.plainText)
  | v, .string t => return .string (v.plainText ++ t)
  | _, _ => arithmetic (· + ·) args

def negate (args : List (ValueOf β)) : Result (ValueOf β) := do
  match ← argument args 0 with
  | .number x => return .number (-x)
  | .samples s => return .samples (← s.map (- ·))
  | v => wrongType "Number or Distribution" v

/-- The order of two numbers or two strings. -/
def order (args : List (ValueOf β)) : Result Ordering := do
  match ← argument args 0, ← argument args 1 with
  | .number x, .number y =>
    if x < y then return .lt
    else if y < x then return .gt
    else if x == y then return .eq
    else .error (.badArgument .comparedNotANumber)
  | .string s, .string t => return if s < t then .lt else if t < s then .gt else .eq
  | v, w => .error (.wrongType "two Numbers or two Strings" s!"({v.typeName}, {w.typeName})")

def comparison (holds : Ordering → Bool) (args : List (ValueOf β)) : Result (ValueOf β) := do
  return .bool (holds (← order args))

def equal (args : List (ValueOf β)) : Result Bool := do
  return (← argument args 0).equal (← argument args 1)

/-- The second operand matters only where the first does not decide. -/
def both (args : List (ValueOf β)) : Result (ValueOf β) := do
  if ← bool args 0 then return .bool (← bool args 1) else return .bool false

def either (args : List (ValueOf β)) : Result (ValueOf β) := do
  if ← bool args 0 then return .bool true else return .bool (← bool args 1)

def not (args : List (ValueOf β)) : Result (ValueOf β) := do return .bool (!(← bool args 0))

/-- An item of a list by its place, or an entry of a dictionary by its key. -/
def atIndex (args : List (ValueOf β)) : Result (ValueOf β) := do
  match ← argument args 0, ← argument args 1 with
  | .list items, .number x =>
    if isWhole x ∧ 0 ≤ x then
      match items[x.toUInt64.toNat]? with
      | some item => return item
      | none => .error (.noAccess (.outOfBounds x items.length))
    else .error (.badArgument (.listIndex x))
  | .dict entries, .string key =>
    match Bindings.get? key entries with
    | some v => return v
    | none => .error (.noAccess (.noKey key))
  | v, w => .error (.noAccess (.wrongKey v.typeName w.typeName))

def typeOf (args : List (ValueOf β)) : Result (ValueOf β) := do
  return .string (← argument args 0).typeName

def toText (args : List (ValueOf β)) : Result (ValueOf β) := do
  return .string (← argument args 0).plainText

def throw (args : List (ValueOf β)) : Result (ValueOf β) :=
  .error (.thrown ((args.head?.map ValueOf.plainText).getD "Common error"))

end Estimation.Library
