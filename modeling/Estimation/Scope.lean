import Estimation.Value

/-!
Which names are visible where code is made, and where the running code finds their values. Each
function that is open has its own slots; a name of a function further out is captured by every
function on the way to it.
-/

namespace Estimation

/-- The names of an open function by their slots, and what it captures. -/
structure FunctionScope where
  locals : List String
  captures : List Variable
  deriving DecidableEq, Repr

namespace FunctionScope

def empty : FunctionScope := ⟨[], []⟩

/-- The slot of the latest definition of a name. -/
def slot? (name : String) (scope : FunctionScope) : Option Nat :=
  latest name 0 scope.locals
where
  latest (name : String) (n : Nat) : List String → Option Nat
    | [] => none
    | first :: rest => (latest name (n + 1) rest).or (if first = name then some n else none)

/-- The index of a source among the captures; each source is captured once. -/
def capture (source : Variable) (scope : FunctionScope) : Nat × FunctionScope :=
  match scope.captures.idxOf? source with
  | some index => (index, scope)
  | none => (scope.captures.length, { scope with captures := scope.captures ++ [source] })

end FunctionScope

/-- The open functions, the innermost first; the program itself is the last. -/
structure Scopes where
  current : FunctionScope
  outer : List FunctionScope
  deriving DecidableEq, Repr

namespace Scopes

def start : Scopes := ⟨.empty, []⟩

/-- Defines a name in the innermost function. -/
def define (name : String) (scopes : Scopes) : Nat × Scopes :=
  (scopes.current.locals.length,
    { scopes with current.locals := scopes.current.locals ++ [name] })

def localCount (scopes : Scopes) : Nat := scopes.current.locals.length

/-- Forgets the names of the innermost function from the slot `count` on. -/
def truncate (count : Nat) (scopes : Scopes) : Scopes :=
  { scopes with current.locals := scopes.current.locals.take count }

def openFunction (parameters : List String) (scopes : Scopes) : Scopes :=
  ⟨⟨parameters, []⟩, scopes.current :: scopes.outer⟩

/-- Closes the innermost function, unless it is the program. -/
def closeFunction? (scopes : Scopes) : Option (List Variable × Scopes) :=
  match scopes.outer with
  | [] => none
  | next :: rest => some (scopes.current.captures, ⟨next, rest⟩)

/-- Finds a name in the functions from the innermost on, and captures it on the way back. -/
def resolveIn (name : String) (scope : FunctionScope) :
    List FunctionScope → Option (Variable × FunctionScope × List FunctionScope)
  | [] => (scope.slot? name).map fun n => (.slot n, scope, [])
  | next :: rest =>
    match scope.slot? name with
    | some n => some (.slot n, scope, next :: rest)
    | none =>
      match resolveIn name next rest with
      | none => none
      | some (source, next, rest) =>
        let (index, scope) := scope.capture source
        some (.capture index, scope, next :: rest)

/-- Where the value of a name is, if it is a name of an open function. -/
def resolve (name : String) (scopes : Scopes) : Option (Variable × Scopes) :=
  (resolveIn name scopes.current scopes.outer).map fun (source, current, outer) =>
    (source, ⟨current, outer⟩)

end Scopes

end Estimation
