import Estimation.Compilation
import Estimation.Evaluation

/-!
What programs mean by their names, without slots and captures. An expression is evaluated among the
values that names have, the innermost and latest first; behind them stand the external names, and
behind these the standard library.
-/

namespace Estimation

/-- What a closure runs: an expression that was found among names, the values of which the closure
keeps, or the code of another program. -/
inductive Source where
  | expr (names : List String) (body : Syntax.Expr)
  | code (c : Code)

mutual

def ValueOf.mapBody {β γ : Type} (f : β → γ) : ValueOf β → ValueOf γ
  | .void => .void
  | .number x => .number x
  | .string s => .string s
  | .bool b => .bool b
  | .list vs => .list (mapBodies f vs)
  | .dict es => .dict (mapEntries f es)
  | .lambda g => .lambda (LambdaOf.mapBody f g)
  | .samples s => .samples s

def mapBodies {β γ : Type} (f : β → γ) : List (ValueOf β) → List (ValueOf γ)
  | [] => []
  | v :: vs => v.mapBody f :: mapBodies f vs

def mapEntries {β γ : Type} (f : β → γ) : List (String × ValueOf β) → List (String × ValueOf γ)
  | [] => []
  | (key, v) :: es => (key, v.mapBody f) :: mapEntries f es

def LambdaOf.mapBody {β γ : Type} (f : β → γ) : LambdaOf β → LambdaOf γ
  | .closure i name parameters captures body span =>
    .closure i name parameters (mapBodies f captures) (f body) span
  | .native g => .native g

end

namespace Bindings

variable {α : Type}

def erase (name : String) (bindings : Bindings α) : Bindings α :=
  bindings.filter fun entry => entry.1 ≠ name

end Bindings

namespace Naming

open Evaluation

/-- The values that names have, the first of a name. -/
abbrev Names : Type := List (String × ValueOf Source)

def value? (names : Names) (name : String) : Option (ValueOf Source) :=
  (Bindings.get? name names).or (Compilation.libraryValue? name)

def host : Host Source := ⟨ValueOf.mapBody .code, .code⟩

section

variable (run : Run) (call : Caller Source) (frames : List Frame)

mutual

def eval (names : Names) : Syntax.Expr → Eval Source (ValueOf Source)
  | .number x _ => return .number x
  | .string s _ => return .string s
  | .bool b _ => return .bool b
  | .identifier name span =>
    match value? names name with
    | some v => return v
    | none => Eval.fail frames span (.thrown s!"{name} is not defined")
  | .list items _ => return .list (← evalAll names items)
  | .dict entries _ => return .dict (← evalEntries names [] entries)
  | .block statements result _ => do
    let names ← evalDefinitions names statements
    eval names result
  | .lambda name ps body span => do
    let ps ← evalParameters names ps
    return .lambda (.closure (← newIdentity run) name ps (names.map Prod.snd)
      (.expr (names.map Prod.fst) body) span)
  | .call callee args span => do
    match ← eval names callee with
    | .lambda f => call frames span (args.map Syntax.Expr.span) f (← evalAll names args)
    | v => Eval.fail frames callee.span (.notAFunction v.text)
  | .binary op left right span => do
    let v ← eval names left
    let w ← eval names right
    call frames span [left.span, right.span] (.native (.ofBinary op)) [v, w]
  | .unary op operand span => do
    let v ← eval names operand
    call frames span [operand.span] (.native (.ofUnary op)) [v]
  | .pipe left callee args span => do
    match ← eval names callee with
    | .lambda f =>
      let v ← eval names left
      let vs ← evalAll names args
      call frames span (left.span :: args.map Syntax.Expr.span) f (v :: vs)
    | v => Eval.fail frames callee.span (.notAFunction v.text)
  | .member target key span => do
    let v ← eval names target
    call frames span [target.span, span] (.native .atIndex) [v, .string key]
  | .lookup target index span => do
    let v ← eval names target
    let w ← eval names index
    call frames span [target.span, index.span] (.native .atIndex) [v, w]
  | .choice condition ifTrue ifFalse _ => do
    match ← eval names condition with
    | .bool true => eval names ifTrue
    | .bool false => eval names ifFalse
    | v => Eval.fail frames condition.span (.wrongType "Bool" v.typeName)

def evalAll (names : Names) : List Syntax.Expr → Eval Source (List (ValueOf Source))
  | [] => return []
  | e :: es => do
    let v ← eval names e
    return v :: (← evalAll names es)

def evalEntries (names : Names) (done : Bindings (ValueOf Source)) :
    List (Syntax.Entry Syntax.Expr) → Eval Source (Bindings (ValueOf Source))
  | [] => return done
  | entry :: entries => do
    let (key, v) ← evalEntry names entry
    evalEntries names (done.insert key v) entries

def evalEntry (names : Names) : Syntax.Entry Syntax.Expr → Eval Source (String × ValueOf Source)
  | ⟨key, _, value⟩ => return (key, ← eval names value)

def evalParameters (names : Names) :
    List (Syntax.Parameter Syntax.Expr) → Eval Source (List Parameter)
  | [] => return []
  | p :: ps => do
    let parameter ← evalParameter names p
    return parameter :: (← evalParameters names ps)

def evalParameter (names : Names) : Syntax.Parameter Syntax.Expr → Eval Source Parameter
  | ⟨name, _, range⟩ => return ⟨name, ← evalRange names range⟩

def evalRange (names : Names) : Option Syntax.Expr → Eval Source (Option Range)
  | none => return none
  | some e => do
    let v ← eval names e
    return some (← Eval.ofExcept frames e.span (Range.ofValue v))

/-- A definition is visible to the statements behind it and to the result. -/
def evalDefinitions (names : Names) : List (Syntax.Statement Syntax.Expr) → Eval Source Names
  | [] => return names
  | s :: ss => do
    let definition ← evalDefinition names s
    evalDefinitions (definition :: names) ss

def evalDefinition (names : Names) :
    Syntax.Statement Syntax.Expr → Eval Source (String × ValueOf Source)
  | ⟨name, _, value, _, _⟩ => return (name, ← eval names value)

end

end

/-- Runs a body among its parameters and the names that its closure kept. -/
def runBody (run : Run) : BodyRunner Source
  | call, frames, ps, captures, .expr names body, args =>
    eval run call frames (((ps.map Parameter.name).zip args).reverse ++ names.zip captures) body
  | call, frames, _, captures, .code c, args => runCode host run call frames captures c args

def apply (run : Run) : Caller Source := callWith (runBody run) run run.limits.callDepth

structure Outcome where
  result : ValueOf Source
  bindings : Bindings (ValueOf Source)
  exports : Bindings (ValueOf Source)
  profile : Option (List ProfileEntry)

def evalResult (run : Run) (names : Names) : Option Syntax.Expr → Eval Source (ValueOf Source)
  | none => return .void
  | some e => do
    let v ← eval run (apply run) [] names e
    Eval.record "<result>" e.span
    return v

/-- The last definition of a name is the one that counts, also for whether the name is exported. -/
def evalProgram (run : Run) (result : Option Syntax.Expr) (names : Names)
    (bindings exports : Bindings (ValueOf Source)) :
    List (Syntax.Statement Syntax.Expr) → Eval Source Outcome
  | [] => do
    let v ← evalResult run names result
    return ⟨v, bindings, exports, ← takeProfile⟩
  | s :: ss => do
    let v ← eval run (apply run) [] names s.value
    Eval.record s.name s.span
    evalProgram run result ((s.name, v) :: names) (bindings.insert s.name v)
      (if s.exported then exports.insert s.name v else exports.erase s.name) ss

def runFresh (run : Run) (externals : Names) (program : Syntax.Program) : Except RunError Outcome :=
  (evalProgram run program.result externals [] [] program.statements (.start run.environment)).1

end Naming

end Estimation
