import Estimation.Library.Arguments
import Estimation.Machine

/-!
Lists. Functions that take a function call it item by item, from the first on.
-/

namespace Estimation.Library

variable {β : Type}

def listLength (args : List (ValueOf β)) : Result (ValueOf β) := do
  return .number (.ofNat (← list args 0).length)

def listFirst (args : List (ValueOf β)) : Result (ValueOf β) := do
  match (← list args 0).head? with
  | some v => return v
  | none => .error (.badArgument .emptyList)

def listLast (args : List (ValueOf β)) : Result (ValueOf β) := do
  match (← list args 0).getLast? with
  | some v => return v
  | none => .error (.badArgument .emptyList)

def listReverse (args : List (ValueOf β)) : Result (ValueOf β) := do
  return .list (← list args 0).reverse

def sumFrom (total : Float) : List (ValueOf β) → Result Float
  | [] => return total
  | v :: vs => do sumFrom (total + (← asNumber v)) vs

def listSum (args : List (ValueOf β)) : Result (ValueOf β) := do
  return .number (← sumFrom 0 (← list args 0))

def listConcat (args : List (ValueOf β)) : Result (ValueOf β) := do
  let first ← list args 0
  return .list (first ++ (← list args 1))

/-- The whole numbers from `low` to `high`, both included. -/
def listUpTo (args : List (ValueOf β)) : Result (ValueOf β) := do
  let low ← integer args 0
  let high ← integer args 1
  if high < low then .error (.badArgument (.reversedBounds low high))
  else
    let count := (high - low).toNat + 1
    return .list ((List.range count).map fun (n : Nat) => .number (Number.ofInteger (low + n)))

/-! ### With functions -/

/-- Calls a function of the program. -/
abbrev Callback (β : Type) : Type := LambdaOf β → List (ValueOf β) → Eval β (ValueOf β)

section

variable {M : Type → Type} [Monad M]

/-- Gives up with the failure of a step without access to the run. -/
def orFail {α : Type} (fail : Failure → M α) : Result α → M α
  | .ok a => return a
  | .error failure => fail failure

variable (call : LambdaOf β → List (ValueOf β) → M (ValueOf β))
  (fail : {α : Type} → Failure → M α)

/-- `done` holds the results so far, the last first. -/
def mapFrom (f : LambdaOf β) (withIndex : Bool) (done : List (ValueOf β)) :
    Nat → List (ValueOf β) → M (ValueOf β)
  | _, [] => return .list done.reverse
  | n, v :: vs => do
    let w ← call f (if withIndex then [v, .number (.ofNat n)] else [v])
    mapFrom f withIndex (w :: done) (n + 1) vs

/-- A function of two arguments is given the place of the item too. -/
def listMap (args : List (ValueOf β)) : M (ValueOf β) := do
  let items ← orFail fail (list args 0)
  let f ← orFail fail (lambda args 1)
  mapFrom call f (f.parameterCount? == some 2) [] 0 items

def filterFrom (f : LambdaOf β) (kept : List (ValueOf β)) :
    List (ValueOf β) → M (ValueOf β)
  | [] => return .list kept.reverse
  | v :: vs => do
    match ← call f [v] with
    | .bool true => filterFrom f (v :: kept) vs
    | .bool false => filterFrom f kept vs
    | w => fail (.wrongType "Bool" w.typeName)

def listFilter (args : List (ValueOf β)) : M (ValueOf β) := do
  let items ← orFail fail (list args 0)
  let f ← orFail fail (lambda args 1)
  filterFrom call fail f [] items

def reduceFrom (f : LambdaOf β) (v : ValueOf β) : List (ValueOf β) → M (ValueOf β)
  | [] => return v
  | item :: items => do reduceFrom f (← call f [v, item]) items

def listReduce (args : List (ValueOf β)) : M (ValueOf β) := do
  let items ← orFail fail (list args 0)
  let start ← orFail fail (argument args 1)
  let f ← orFail fail (lambda args 2)
  reduceFrom call f start items

/-- `left` more items behind `done`, the last of which comes first. -/
def makeFrom (f : LambdaOf β) (withIndex : Bool) (done : List (ValueOf β)) :
    Nat → M (ValueOf β)
  | 0 => return .list done.reverse
  | left + 1 => do
    let v ← call f (if withIndex then [.number (.ofNat done.length)] else [])
    makeFrom f withIndex (v :: done) left

/-- So many times one value, or the results of a function, which may take the place of the item. -/
def listMake (args : List (ValueOf β)) : M (ValueOf β) := do
  let count ← orFail fail (number args 0)
  if isWhole count ∧ 0 ≤ count then
    let count := count.toUInt64.toNat
    match ← orFail fail (argument args 1) with
    | .lambda f => makeFrom call f (f.parameterCount? == some 1) [] count
    | v => return .list (List.replicate count v)
  else fail (.badArgument (.elementCount count))

end

end Estimation.Library
