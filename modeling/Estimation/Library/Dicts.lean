import Estimation.Library.Arguments

/-!
Dictionaries. Their entries are in order of the keys; a changed dictionary is another one.
-/

namespace Estimation.Library

variable {β : Type}

def dictKeys (args : List (ValueOf β)) : Result (ValueOf β) := do
  return .list ((← dict args 0).map fun (key, _) => .string key)

def dictValues (args : List (ValueOf β)) : Result (ValueOf β) := do
  return .list ((← dict args 0).map fun (_, v) => v)

def dictHas (args : List (ValueOf β)) : Result (ValueOf β) := do
  let entries ← dict args 0
  return .bool (entries.get? (← string args 1)).isSome

def dictSet (args : List (ValueOf β)) : Result (ValueOf β) := do
  let entries ← dict args 0
  let key ← string args 1
  return .dict (entries.insert key (← argument args 2))

/-- Entries of the second dictionary go before those of the first. -/
def dictMerge (args : List (ValueOf β)) : Result (ValueOf β) := do
  let entries ← dict args 0
  return .dict (entries.merge (← dict args 1))

end Estimation.Library
