import Estimation.Syntax
import Estimation.Value

/-!
Paths to the parts of values, and the places in a program that write those parts. A path goes
through lists and dictionaries; in a program it can be followed as far as these are written out.
-/

namespace Estimation

namespace ValuePath

/-- Where a path starts: in the result of a program, or among the values that have names. -/
inductive Root where
  | result
  | bindings
  | imports
  | exports
  deriving DecidableEq, Repr

namespace Root

def name : Root → String
  | .result => "result"
  | .bindings => "bindings"
  | .imports => "imports"
  | .exports => "exports"

def all : List Root := [.result, .bindings, .imports, .exports]

def ofName? (name : String) : Option Root := all.find? fun root => root.name = name

end Root

/-- One step into a value. -/
inductive Edge where
  | key (name : String)
  | index (n : Nat)
  deriving DecidableEq, Repr

namespace Edge

def text : Edge → String
  | .key name => s!".{name}"
  | .index n => s!"[{n}]"

end Edge

end ValuePath

structure ValuePath where
  root : ValuePath.Root
  edges : List ValuePath.Edge
  deriving DecidableEq, Repr

namespace ValuePath

def text (path : ValuePath) : String := path.root.name ++ String.join (path.edges.map Edge.text)

end ValuePath

namespace Value

open ValuePath

def child? : Edge → Value → Option Value
  | .key name, .dict entries => Bindings.get? name entries
  | .index n, .list items => items[n]?
  | _, _ => none

/-- The part of a value that edges lead to. -/
def part? : List Edge → Value → Option Value
  | [], v => some v
  | edge :: edges, v =>
    match v.child? edge with
    | some w => part? edges w
    | none => none

end Value

namespace Syntax

open ValuePath

namespace Expr

/-- The value of a block is that of its result. -/
def unblocked : Expr → Expr
  | .block _ result _ => unblocked result
  | e => e

/-- The expression of a part. Of entries with the same key, the last one counts. -/
def child? : Edge → Expr → Option Expr
  | .key name, .dict entries _ =>
    (entries.reverse.find? fun entry => entry.key = name).map Entry.value
  | .index n, .list items _ => items[n]?
  | _, _ => none

/-- The expression that edges lead to, or the last one before the part is not written out. -/
def deepest : List Edge → Expr → Expr
  | [], e => e.unblocked
  | edge :: edges, e =>
    match e.unblocked.child? edge with
    | some part => deepest edges part
    | none => e.unblocked

mutual

/-- The edges to the smallest part that covers an offset. -/
def edgesAt (offset : Nat) : Expr → List Edge
  | .block _ result _ => edgesAt offset result
  | .list items _ => itemEdgesAt offset 0 items
  | .dict entries _ => entriesEdgesAt offset entries
  | _ => []

def itemEdgesAt (offset : Nat) (n : Nat) : List Expr → List Edge
  | [] => []
  | e :: es =>
    if e.span.Covers offset then .index n :: edgesAt offset e else itemEdgesAt offset (n + 1) es

def entriesEdgesAt (offset : Nat) : List (Entry Expr) → List Edge
  | [] => []
  | entry :: entries =>
    let edges := entryEdgesAt offset entry
    if edges.isEmpty then entriesEdgesAt offset entries else edges

/-- No edges, unless the entry covers the offset. -/
def entryEdgesAt (offset : Nat) : Entry Expr → List Edge
  | ⟨key, keySpan, value⟩ =>
    if (keySpan.through value.span).Covers offset then .key key :: edgesAt offset value else []

end

end Expr

namespace Program

/-- Where a program writes the values below a name: whole, its statement; in parts, those of its
value. -/
def locateIn (p : Program) (edges : List Edge) (counts : Statement Expr → Bool) : Option Span :=
  match edges with
  | .key name :: edges =>
    (p.statements.reverse.find? fun s => s.name = name && counts s).map fun s =>
      if edges.isEmpty then s.span else (s.value.deepest edges).span
  | _ => some p.span

/-- Where a program writes the part of a value that a path leads to, or the smallest part around it
that is written out. -/
def locate? (p : Program) (path : ValuePath) : Option Span :=
  match path.root with
  | .result => p.result.map fun e => (e.deepest path.edges).span
  | .bindings => p.locateIn path.edges fun _ => true
  | .exports => p.locateIn path.edges Statement.exported
  | .imports =>
    match path.edges with
    | .key name :: _ => (p.imports.find? fun i => i.name = name).map Import.span
    | _ => some p.span

/-- The path to the smallest part of a value that is written around an offset. -/
def pathAt? (p : Program) (offset : Nat) : Option ValuePath :=
  match p.imports.find? fun i => i.span.Covers offset with
  | some i => some ⟨.imports, [.key i.name]⟩
  | none =>
    match p.statements.find? fun s => s.span.Covers offset with
    | some s => some ⟨.bindings, .key s.name :: s.value.edgesAt offset⟩
    | none =>
      match p.result with
      | some e => if e.span.Covers offset then some ⟨.result, e.edgesAt offset⟩ else none
      | none => none

end Program

end Syntax

end Estimation
