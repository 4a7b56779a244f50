import Estimation.Proofs.Course

/-!
An interpreter that keeps the frame of a call among all else that it holds, and takes every task on
from itself. What it does for one task is given for any way to do others. The knot is tied by
recursion on how large tasks are: a task that is not smaller than the one that it is done for has no
end here.
-/

namespace Estimation

open List

namespace Code

mutual

/-- How many pieces code has. -/
def size : Code → Nat
  | .value _ _ => 1
  | .read _ _ => 1
  | .block statements result _ => sizeAll statements + size result + 1
  | .program statements result _ _ => sizeAll statements + sizeOption result + 1
  | .assign _ right _ => size right + 1
  | .list items _ => sizeAll items + 1
  | .dict entries _ => sizeEntries entries + 1
  | .choice condition ifTrue ifFalse _ => size condition + size ifTrue + size ifFalse + 1
  | .lambda _ parameters _ body _ => sizeParameters parameters + size body + 1
  | .call callee args _ => size callee + sizeAll args + 1

def sizeAll : List Code → Nat
  | [] => 0
  | code :: rest => size code + sizeAll rest

def sizeEntries : List (Code × Code) → Nat
  | [] => 0
  | entry :: rest => sizeEntry entry + sizeEntries rest

def sizeEntry : Code × Code → Nat
  | (k, v) => size k + size v

def sizeParameters : List (CodeParameter Code) → Nat
  | [] => 0
  | p :: ps => sizeParameter p + sizeParameters ps

def sizeParameter : CodeParameter Code → Nat
  | ⟨_, range⟩ => sizeOption range

def sizeOption : Option Code → Nat
  | none => 0
  | some code => size code

end

theorem size_pos (code : Code) : 0 < code.size := by
  cases code <;> simp [size]

end Code

/-- What an interpreter may have to do. -/
inductive Task where
  | evaluate (code : Code)
  | call (f : Lambda) (args : List Value) (span : Span) (argSpans : List Span)

namespace Task

def size : Task → Nat
  | .evaluate code => code.size
  | .call _ _ _ _ => 0

/-- How many calls may still nest, and how large the task is. -/
def extent (limits : Limits) (frames : List Frame) (t : Task) : Nat × Nat :=
  (limits.callDepth - frames.length, t.size)

/-- Fewer calls may still nest, or as many, and less is to be done. -/
def Smaller : Nat × Nat → Nat × Nat → Prop := Prod.Lex (· < ·) (· < ·)

instance (m n : Nat × Nat) : Decidable (Smaller m n) := inferInstanceAs (Decidable (Prod.Lex _ _ m n))

end Task

namespace Interpreter

open Steps

section

variable (run : Run) (perform : Task → Steps Value)

def evaluateAll : List Code → Steps (List Value)
  | [] => return []
  | code :: rest => do
    let v ← perform (.evaluate code)
    return v :: (← evaluateAll rest)

def evaluateStatements : List Code → Steps Unit
  | [] => return ()
  | code :: rest => do
    let _ ← perform (.evaluate code)
    evaluateStatements rest

def evaluateEntry : Code × Code → Steps (String × Value)
  | (key, value) => do
    match ← perform (.evaluate key) with
    | .string s => return (s, ← perform (.evaluate value))
    | v => fail key.span (.wrongType "String" v.typeName)

def evaluateEntries (done : Bindings Value) : List (Code × Code) → Steps (Bindings Value)
  | [] => return done
  | entry :: rest => do
    let (key, v) ← evaluateEntry perform entry
    evaluateEntries (done.insert key v) rest

def evaluateRange : Option Code → Steps (Option Range)
  | none => return none
  | some code => do
    let v ← perform (.evaluate code)
    return some (← ofExcept code.span (Range.ofValue v))

def evaluateParameters : List (CodeParameter Code) → Steps (List Parameter)
  | [] => return []
  | ⟨name, range⟩ :: ps => do
    let range ← evaluateRange perform range
    return ⟨name, range⟩ :: (← evaluateParameters ps)

def evaluateRecorded : List Code → Steps Unit
  | [] => return ()
  | code :: rest => do
    let _ ← perform (.evaluate code)
    onMachine (Eval.record (Evaluation.label code) code.span)
    evaluateRecorded rest

def evaluateResult : Option Code → Steps Value
  | none => return .void
  | some code => do
    let v ← perform (.evaluate code)
    onMachine (Eval.record "<result>" code.span)
    return v

def captured (span : Span) : List Variable → Steps (List Value)
  | [] => return []
  | source :: sources => do
    let r ← held
    match Evaluation.lookup? r.context r.machine source with
    | some v => return v :: (← captured span sources)
    | none => fail span (Evaluation.captureFault source)

def evaluate : Code → Steps Value
  | .value v _ => return v
  | .read source span => do
    let r ← held
    match Evaluation.lookup? r.context r.machine source with
    | some v => return v
    | none => fail span (Evaluation.variableFault source)
  | .block statements result _ =>
    keepingStack do
      evaluateStatements perform statements
      perform (.evaluate result)
  | .program statements result _ _ => do
    evaluateRecorded perform statements
    evaluateResult perform result
  | .assign _ right span => do
    let v ← perform (.evaluate right)
    push run.limits span v
    return .void
  | .list items _ => return .list (← evaluateAll perform items)
  | .dict entries _ => return .dict (← evaluateEntries perform [] entries)
  | .choice condition ifTrue ifFalse _ => do
    match ← perform (.evaluate condition) with
    | .bool true => perform (.evaluate ifTrue)
    | .bool false => perform (.evaluate ifFalse)
    | v => fail condition.span (.wrongType "Bool" v.typeName)
  | .lambda name parameters captures body span => do
    let values ← captured span captures
    let parameters ← evaluateParameters perform parameters
    let identity ← onMachine (Evaluation.newIdentity run)
    return .lambda (.closure identity name parameters values body span)
  | .call callee args span => do
    match ← perform (.evaluate callee) with
    | .lambda f =>
      let values ← evaluateAll perform args
      perform (.call f values span (args.map Code.span))
    | v => fail callee.span (.notAFunction v.text)

def checkRanges (span : Span) (argSpans : List Span) (index : Nat) :
    List Parameter → List Value → Steps Unit
  | p :: ps, v :: vs => do
    if let some range := p.range then
      let contained := match v with
        | .number x => decide (range.Contains x)
        | _ => false
      unless contained do
        fail (argSpans.getD index span) (.outOfRange index range)
    checkRanges span argSpans (index + 1) ps vs
  | _, _ => return ()

/-- Runs the body of a closure on slots of its own. -/
def callClosure (captures : List Value) (body : Code) (args : List Value) : Steps Value := do
  let r ← held
  let size := r.machine.stack.size
  change fun s => { s with base := size, captures }
  ending (fun s =>
      { s.withStack (s.machine.stack.shrink size) with base := r.base, captures := r.captures }) do
    pushAll run.limits body.span args
    perform (.evaluate body)

/-- Native functions call functions from where they are called themselves. -/
def callNative (g : Native) (args : List Value) (span : Span) : Steps Value := do
  let r ← held
  change fun s => { s with callSite := span }
  ending (fun s => { s with callSite := r.callSite }) do
    g.steps run.environment (fun f args => do perform (.call f args (← held).callSite []))
      (fail span) (ofExcept span) (draw span) args

/-- Calls a function when one more call may nest. -/
def enter (args : List Value) (span : Span) (argSpans : List Span) : Lambda → Steps Value
  | .closure _ name parameters captures body _ => do
    unless args.length = parameters.length do
      fail span (.arity (.exactly parameters.length) args.length)
    checkRanges span argSpans 0 parameters args
    change (Registers.pushFrame ⟨name.getD "<anonymous>", span⟩)
    ending Registers.popFrame (callClosure run perform captures body args)
  | .native g => do
    unless g.arity.Accepts args.length do
      fail span (.arity g.arity args.length)
    change (Registers.pushFrame ⟨g.name, span⟩)
    ending Registers.popFrame (callNative run perform g args span)

def call (f : Lambda) (args : List Value) (span : Span) (argSpans : List Span) : Steps Value := do
  if run.limits.callDepth ≤ (← held).frames.length then fail span (.callDepth run.limits.callDepth)
  else enter run perform args span argSpans f

/-- Does a task, where others can be done. -/
def act : Task → Steps Value
  | .evaluate code => evaluate run perform code
  | .call f args span argSpans => call run perform f args span argSpans

end

/-- Does a task that is smaller than `bound`. There is no end to any other. -/
def performBelow (run : Run) (bound : Nat × Nat) (t : Task) : Steps Value := fun c =>
  if _h : Task.Smaller (t.extent run.limits c.now.frames) bound then
    act run (performBelow run (t.extent run.limits c.now.frames)) t c
  else none
  termination_by bound
  decreasing_by exact _h

def perform (run : Run) (t : Task) : Steps Value := fun c =>
  act run (performBelow run (t.extent run.limits c.now.frames)) t c

/-- Runs code outside of all calls. -/
def runProgram (run : Run) (code : Code) : Steps Outcome := do
  let result ← perform run (.evaluate code)
  let (bindings, exports) ←
    match code with
    | .program _ _ bindings _ => onMachine (Evaluation.bindingValues bindings [] [])
    | _ => pure ([], [])
  return ⟨result, bindings, exports, ← onMachine Evaluation.takeProfile⟩

end Interpreter

end Estimation
