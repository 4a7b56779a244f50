import Estimation.Scope
import Estimation.Syntax.Grammar

/-!
From programs to code. Names become variables or values: those of the program come before the
external ones, and these before the standard library. Operators, keys and indexes become calls of
library functions, whatever the program defines under their names.
-/

namespace Estimation

/-- A name that nothing visible has. -/
structure UnboundName where
  name : String
  span : Span
  deriving DecidableEq, Repr

namespace UnboundName

def message (e : UnboundName) : String := s!"[{e.span.start.text}] {e.name} is not defined"

end UnboundName

namespace Compilation

/-- What the standard library has under a name. -/
def libraryValue? {β : Type} (name : String) : Option (ValueOf β) :=
  ((Native.ofName? name).map fun f => .lambda (.native f)) <|>
    ((Constant.ofName? name).map fun c => .number c.value)

abbrev Compile := StateT Scopes (Except UnboundName)

def nativeCall (f : Native) (args : List Code) (span : Span) : Code :=
  .call (.value (.lambda (.native f)) span) args span

section

variable (externals : Bindings Value)

def identifier (name : String) (span : Span) : Compile Code := do
  match (← get).resolve name with
  | some (source, scopes) =>
    set scopes
    return .read source span
  | none =>
    match (externals.get? name).or (libraryValue? name) with
    | some v => return .value v span
    | none => throw ⟨name, span⟩

mutual

def expr : Syntax.Expr → Compile Code
  | .number value span => return .value (.number value) span
  | .string content span => return .value (.string content) span
  | .bool value span => return .value (.bool value) span
  | .identifier name span => identifier externals name span
  | .list items span => return .list (← exprs items) span
  | .dict entries span => return .dict (← dictEntries entries) span
  | .block statements result span => do
    let count := (← get).localCount
    let statements ← block statements
    let result ← expr result
    modify (·.truncate count)
    return .block statements result span
  | .lambda name ps body span => do
    let codeParameters ← parameters ps
    modify (·.openFunction (ps.map fun p => p.name))
    let body ← expr body
    match (← get).closeFunction? with
    | some (captures, scopes) =>
      set scopes
      return .lambda name codeParameters captures body span
    | none => return .lambda name codeParameters [] body span
  | .call callee args span => do
    let callee ← expr callee
    return .call callee (← exprs args) span
  | .binary op left right span => do
    let left ← expr left
    let right ← expr right
    return nativeCall (.ofBinary op) [left, right] span
  | .unary op operand span => do
    let operand ← expr operand
    return nativeCall (.ofUnary op) [operand] span
  | .pipe left callee args span => do
    let left ← expr left
    let args ← exprs args
    return .call (← expr callee) (left :: args) span
  | .member target key span => do
    let target ← expr target
    return nativeCall .atIndex [target, .value (.string key) span] span
  | .lookup target index span => do
    let target ← expr target
    let index ← expr index
    return nativeCall .atIndex [target, index] span
  | .choice condition ifTrue ifFalse span => do
    let condition ← expr condition
    let ifTrue ← expr ifTrue
    return .choice condition ifTrue (← expr ifFalse) span

def exprs : List Syntax.Expr → Compile (List Code)
  | [] => return []
  | e :: es => do
    let code ← expr e
    return code :: (← exprs es)

def dictEntries : List (Syntax.Entry Syntax.Expr) → Compile (List (Code × Code))
  | [] => return []
  | entry :: entries => do
    let pair ← dictEntry entry
    return pair :: (← dictEntries entries)

def dictEntry : Syntax.Entry Syntax.Expr → Compile (Code × Code)
  | ⟨key, keySpan, value⟩ => return (.value (.string key) keySpan, ← expr value)

/-- A parameter's range is looked up outside of the function. -/
def parameters : List (Syntax.Parameter Syntax.Expr) → Compile (List (CodeParameter Code))
  | [] => return []
  | p :: ps => do
    let parameter ← parameter p
    return parameter :: (← parameters ps)

def parameter : Syntax.Parameter Syntax.Expr → Compile (CodeParameter Code)
  | ⟨name, _, range⟩ => return ⟨name, ← optional range⟩

def optional : Option Syntax.Expr → Compile (Option Code)
  | none => return none
  | some e => return some (← expr e)

/-- The name of a definition is visible behind it only. -/
def definition : Syntax.Statement Syntax.Expr → Compile (Code × Nat)
  | ⟨name, _, value, _, span⟩ => do
    let right ← expr value
    let slot ← modifyGet (·.define name)
    return (.assign name right span, slot)

def block : List (Syntax.Statement Syntax.Expr) → Compile (List Code)
  | [] => return []
  | s :: ss => do
    let (code, _) ← definition s
    return code :: (← block ss)

end

/-- Puts a binding in the place of one with its name, or behind all others. -/
def rebind (binding : TopBinding) : List TopBinding → List TopBinding
  | [] => [binding]
  | first :: rest => if first.name = binding.name then binding :: rest else first :: rebind binding rest

/-- The definitions of a program, with the bindings that they leave. -/
def definitions : List (Syntax.Statement Syntax.Expr) → List TopBinding →
    Compile (List Code × List TopBinding)
  | [], bindings => return ([], bindings)
  | s :: ss, bindings => do
    let (code, slot) ← definition externals s
    let (codes, bindings) ← definitions ss (rebind ⟨s.name, slot, s.exported, s.span⟩ bindings)
    return (code :: codes, bindings)

end

end Compilation

/-- The code of a program whose unbound names have the values `externals`. -/
def compile (externals : Bindings Value) (program : Syntax.Program) : Except UnboundName Code := do
  let step : Compilation.Compile Code := do
    let (statements, bindings) ← Compilation.definitions externals program.statements []
    let result ← Compilation.optional externals program.result
    return .program statements result bindings program.span
  return (← step.run .start).1

/-- Why a text does not compile. -/
inductive SourceError where
  | syntactic (e : Syntax.Error)
  | unbound (e : UnboundName)
  deriving DecidableEq, Repr

namespace SourceError

def message : SourceError → String
  | .syntactic e => e.message
  | .unbound e => e.message

def coordinate? : SourceError → Option Coordinate
  | .syntactic (.lexical e) => some e.place
  | .syntactic (.grammatical e) => e.location.coordinate?
  | .unbound e => some e.span.start

/-- The stage that found the error. -/
def phase : SourceError → String
  | .syntactic (.lexical _) => "lexer"
  | .syntactic (.grammatical _) => "parser"
  | .unbound _ => "compiler"

end SourceError

end Estimation
