import Estimation.Library

/-!
Running code. Calls may nest as deep as the limits allow, and the code of one call is run by
recursion on it, so that every run ends.
-/

namespace Estimation

/-- The numbers that a parameter takes, from the value of its range. -/
def Range.ofValue {β : Type} : ValueOf β → Except Failure Range
  | .list [.number low, .number high] =>
    if low ≤ high then .ok ⟨low, high⟩ else .error (.outOfDomain (.reversedRange low high))
  | .list [v, w] => .error (.outOfDomain (.boundsNotNumbers (ValueOf.list [v, w]).text))
  | v => .error (.outOfDomain (.notARange v.text))

namespace Evaluation

/-- Calls a function with arguments from a place, with the places of the arguments where they are
known, inside of the active calls. -/
abbrev Caller (β : Type) : Type :=
  List Frame → Span → List Span → LambdaOf β → List (ValueOf β) → Eval β (ValueOf β)

/-- Runs the body of a closure inside of the active calls, with the names of its parameters, the
values that were captured for it, and its arguments. -/
abbrev BodyRunner (β : Type) : Type :=
  Caller β → List Frame → List Parameter → List (ValueOf β) → β → List (ValueOf β) →
    Eval β (ValueOf β)

/-- What code means among values whose closures have other bodies. -/
structure Host (β : Type) where
  value : Value → ValueOf β
  body : Code → β

namespace Host

/-- Where bodies are code. -/
def code : Host Code := ⟨id, id⟩

end Host

section

variable {β : Type}

/-- The value of a variable, if it is where the code looks for it. -/
def lookup? (ctx : Context β) (m : MachineOf β) : Variable → Option (ValueOf β)
  | .slot n => m.stack[ctx.base + n]?
  | .capture n => ctx.captures[n]?

def variableFault : Variable → Failure
  | .slot n => .malformed (.slot n)
  | .capture n => .malformed (.capture n)

def captureFault : Variable → Failure
  | .slot n => .malformed (.capturedSlot n)
  | .capture n => .malformed (.capturedCapture n)

/-- The values that a lambda captures where it stands. -/
def captured (ctx : Context β) (span : Span) : List Variable → Eval β (List (ValueOf β))
  | [] => return []
  | source :: sources => do
    match lookup? ctx (← get) source with
    | some v => return v :: (← captured ctx span sources)
    | none => Eval.fail ctx.frames span (captureFault source)

/-- Marks a closure as another one than all before. -/
def newIdentity (run : Run) : Eval β Identity :=
  modifyGet fun m => (⟨run.origin, m.closures⟩, { m with closures := m.closures + 1 })

/-- The label of a statement in the record. -/
def label : Code → String
  | .assign name _ _ => name
  | _ => "<statement>"

section

variable (host : Host β) (run : Run) (call : Caller β) (ctx : Context β)

mutual

/-- Runs the code of one call. -/
def eval : Code → Eval β (ValueOf β)
  | .value v _ => return host.value v
  | .read source span => do
    match lookup? ctx (← get) source with
    | some v => return v
    | none => Eval.fail ctx.frames span (variableFault source)
  | .block statements result _ => do
    let size := (← get).stack.size
    Eval.shrinkingTo size do
      evalStatements statements
      eval result
  | .program statements result _ _ => do
    evalRecorded statements
    evalResult result
  | .assign _ right span => do
    let v ← eval right
    Eval.push run ctx.frames span v
    return .void
  | .list items _ => return .list (← evalAll items)
  | .dict entries _ => return .dict (← evalEntries [] entries)
  | .choice condition ifTrue ifFalse _ => do
    match ← eval condition with
    | .bool true => eval ifTrue
    | .bool false => eval ifFalse
    | v => Eval.fail ctx.frames condition.span (.wrongType "Bool" v.typeName)
  | .lambda name parameters captures body span => do
    let values ← captured ctx span captures
    let parameters ← evalParameters parameters
    return .lambda (.closure (← newIdentity run) name parameters values (host.body body) span)
  | .call callee args span => do
    match ← eval callee with
    | .lambda f =>
      let values ← evalAll args
      call ctx.frames span (args.map Code.span) f values
    | v => Eval.fail ctx.frames callee.span (.notAFunction v.text)

def evalAll : List Code → Eval β (List (ValueOf β))
  | [] => return []
  | code :: rest => do
    let v ← eval code
    return v :: (← evalAll rest)

def evalStatements : List Code → Eval β Unit
  | [] => return ()
  | code :: rest => do
    let _ ← eval code
    evalStatements rest

/-- Entries go over those with the same key before them. -/
def evalEntries (done : Bindings (ValueOf β)) :
    List (Code × Code) → Eval β (Bindings (ValueOf β))
  | [] => return done
  | entry :: rest => do
    let (key, v) ← evalEntry entry
    evalEntries (done.insert key v) rest

def evalEntry : Code × Code → Eval β (String × ValueOf β)
  | (key, value) => do
    match ← eval key with
    | .string s => return (s, ← eval value)
    | v => Eval.fail ctx.frames key.span (.wrongType "String" v.typeName)

def evalParameters : List (CodeParameter Code) → Eval β (List Parameter)
  | [] => return []
  | p :: ps => do
    let parameter ← evalParameter p
    return parameter :: (← evalParameters ps)

def evalParameter : CodeParameter Code → Eval β Parameter
  | ⟨name, range⟩ => return ⟨name, ← evalRange range⟩

def evalRange : Option Code → Eval β (Option Range)
  | none => return none
  | some code => do
    let v ← eval code
    return some (← Eval.ofExcept ctx.frames code.span (Range.ofValue v))

/-- Statements of a program are recorded as they are run. -/
def evalRecorded : List Code → Eval β Unit
  | [] => return ()
  | code :: rest => do
    let _ ← eval code
    Eval.record (label code) code.span
    evalRecorded rest

def evalResult : Option Code → Eval β (ValueOf β)
  | none => return .void
  | some code => do
    let v ← eval code
    Eval.record "<result>" code.span
    return v

end

end

/-- Every argument has to be in the range of its parameter. -/
def checkRanges (frames : List Frame) (span : Span) (argSpans : List Span) (index : Nat) :
    List Parameter → List (ValueOf β) → Eval β Unit
  | p :: ps, v :: vs => do
    if let some range := p.range then
      let contained := match v with
        | .number x => decide (range.Contains x)
        | _ => false
      unless contained do
        Eval.fail frames (argSpans.getD index span) (.outOfRange index range)
    checkRanges frames span argSpans (index + 1) ps vs
  | _, _ => return ()

/-- Runs the code of a closure: its arguments are its first slots. -/
def runCode (host : Host β) (run : Run) (call : Caller β) (frames : List Frame)
    (captures : List (ValueOf β)) (body : Code) (args : List (ValueOf β)) :
    Eval β (ValueOf β) := do
  let size := (← get).stack.size
  Eval.shrinkingTo size do
    Eval.pushAll run frames body.span args
    eval host run call ⟨frames, size, captures⟩ body

/-- Calls a function when so many more calls may nest. -/
def callWith (runBody : BodyRunner β) (run : Run) : Nat → Caller β
  | 0, frames, span, _, _, _ => Eval.fail frames span (.callDepth run.limits.callDepth)
  | depth + 1, frames, span, argSpans, f, args =>
    let inner := ⟨f.name, span⟩ :: frames
    match f with
    | .closure _ _ parameters captures body _ => do
      unless args.length = parameters.length do
        Eval.fail frames span (.arity (.exactly parameters.length) args.length)
      checkRanges frames span argSpans 0 parameters args
      runBody (callWith runBody run depth) inner parameters captures body args
    | .native g => do
      unless g.arity.Accepts args.length do
        Eval.fail frames span (.arity g.arity args.length)
      g.run run (callWith runBody run depth inner span []) inner span args

end

/-- Calls functions whose bodies are code. -/
def apply (run : Run) : Nat → Caller Code :=
  callWith (fun call frames _ => runCode .code run call frames) run

def topLevel (run : Run) : Code → Eval Code Value :=
  eval .code run (apply run run.limits.callDepth) .top

end Evaluation

/-- What a program leaves: its result, its definitions, and those of them for other programs. -/
structure Outcome where
  result : Value
  bindings : Bindings Value
  exports : Bindings Value
  profile : Option (List ProfileEntry)

namespace Evaluation

/-- The values that the bindings of a program have at its end. -/
def bindingValues : List TopBinding → Bindings Value → Bindings Value →
    Eval Code (Bindings Value × Bindings Value)
  | [], bindings, exports => return (bindings, exports)
  | b :: bs, bindings, exports => do
    match (← get).stack[b.slot]? with
    | some v =>
      bindingValues bs (bindings.insert b.name v)
        (if b.exported then exports.insert b.name v else exports)
    | none => Eval.fail [] b.span (.malformed (.binding b.name b.slot))

/-- Takes the record of statements away. -/
def takeProfile {β : Type} : Eval β (Option (List ProfileEntry)) :=
  modifyGet fun m => (m.profile.map List.reverse, { m with profile := none })

/-- Runs code outside of all calls. Only a program leaves bindings. -/
def runProgram (run : Run) (code : Code) : Eval Code Outcome := do
  let result ← topLevel run code
  let (bindings, exports) ←
    match code with
    | .program _ _ bindings _ => bindingValues bindings [] []
    | _ => pure ([], [])
  return ⟨result, bindings, exports, ← takeProfile⟩

/-- Runs code on a machine that has not run any. -/
def runFresh (run : Run) (code : Code) : Except RunError Outcome :=
  (runProgram run code (.start run.environment)).1

end Evaluation

end Estimation
