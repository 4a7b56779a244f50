/-!
Dependencies between names: an order in which every name comes after what it depends on, and the
names that depend on a name. The graph is finite, and a search goes no deeper than it has names.
-/

namespace Estimation

/-- What each name depends on. A name without an entry depends on nothing. -/
structure Graph where
  entries : List (String × List String)

namespace Graph

def names (g : Graph) : List String := g.entries.map Prod.fst

def dependencies (g : Graph) (name : String) : List String := (g.entries.lookup name).getD []

/-- A way from a name back to it, at the end of a chain of names. -/
def cycle (chain : List String) (name : String) : List String :=
  chain.dropWhile (· ≠ name) ++ [name]

/-- Puts a name, behind all that it depends on, into an order. The names on the chain wait for it;
where `depth` is zero all names with dependencies do. -/
def visit (g : Graph) (depth : Nat) (chain order : List String) (name : String) :
    Except (List String) (List String) :=
  if name ∈ chain then .error (cycle chain name)
  else if name ∈ order then .ok order
  else
    match depth with
    | 0 => .ok (order ++ [name])
    | depth + 1 => do
      let order ← (g.dependencies name).foldlM (visit g depth (chain ++ [name])) order
      return order ++ [name]

/-- An order of all that some names need, or a cycle among it. -/
def runOrder (g : Graph) (names : List String) : Except (List String) (List String) :=
  names.foldlM (g.visit g.names.length []) []

/-- Adds a name to others in order, unless it is there. -/
def insertName (name : String) : List String → List String
  | [] => [name]
  | n :: rest =>
    if name < n then name :: n :: rest
    else if name = n then n :: rest
    else n :: insertName name rest

def sorted (names : List String) : List String := names.foldr insertName []

/-- The names, other than `name`, that depend on one of `targets`. -/
def dependingOn (g : Graph) (name : String) (targets : List String) : List String :=
  g.names.filter fun n => n ≠ name ∧ (g.dependencies n).any (· ∈ targets)

def dependents (g : Graph) (name : String) : List String := sorted (g.dependingOn name [name])

/-- The names that depend on a name in so many steps. -/
def dependentsWithin (g : Graph) (name : String) : Nat → List String
  | 0 => []
  | steps + 1 => g.dependingOn name (name :: g.dependentsWithin name steps)

def transitiveDependents (g : Graph) (name : String) : List String :=
  sorted (g.dependentsWithin name g.names.length)

end Graph

end Estimation
