import Estimation.Proofs.Natives
import Estimation.Proofs.Parts
import Estimation.Proofs.Steps
import Mathlib.Logic.Relation

/-!
The calls that are active while a program runs. A run comes from point to point: from code to the pieces of
it, from a call expression to the call, from the call into what is called, and from a native function to the
functions that it is given. Each point has the calls that are active there, with the place that each was
made from.
-/

namespace Estimation

open List

/-- What a native function does, step by step, with what comes back from the steps. -/
inductive Script (α : Type) where
  | done (a : α)
  | fail (failure : Failure)
  | draw (step : Draw Value) (next : Value → Script α)
  | call (f : Lambda) (args : List Value) (next : Value → Script α)

namespace Script

variable {α δ : Type}

def bind : Script α → (α → Script δ) → Script δ
  | done a, k => k a
  | fail failure, _ => fail failure
  | draw step next, k => draw step fun v => bind (next v) k
  | call f args next, k => call f args fun v => bind (next v) k

instance : Monad Script where
  pure := done
  bind := bind

def ofResult : Library.Result α → Script α
  | .ok a => done a
  | .error failure => fail failure

/-- Does what a script says, as the innermost of the active calls. -/
def play (call : Library.Callback Code) (frames : List Frame) (span : Span) :
    Script α → Eval Code α
  | done a => return a
  | fail failure => Eval.fail frames span failure
  | draw step next => do play call frames span (next (← Eval.draw frames span step))
  | .call f args next => do play call frames span (next (← call f args))

variable {call : Library.Callback Code} {frames : List Frame} {span : Span}

theorem play_bind (x : Script α) (k : α → Script δ) :
    (x >>= k).play call frames span = x.play call frames span >>= fun a => (k a).play call frames span := by
  change (bind x k).play call frames span = _
  induction x with
  | done a => rfl
  | fail failure => rfl
  | draw step next ih => simp only [bind, play, ih, bind_assoc]
  | call f args next ih => simp only [bind, play, ih, bind_assoc]

end Script

namespace Native

def script (environment : Environment) (f : Native) (args : List Value) : Script Value :=
  f.steps environment (fun g vs => .call g vs .done) .fail .ofResult (fun step => .draw step .done) args

/-- Native functions do what their scripts say. -/
theorem play_script (run : Run) (call : Library.Callback Code) (frames : List Frame) (span : Span)
    (f : Native) (args : List Value) :
    (f.script run.environment args).play call frames span = f.run run call frames span args := by
  have hcongruence : Congruence fun α (x : Script α) (y : Eval Code α) => x.play call frames span = y :=
    ⟨fun _ => rfl, fun hx hk => by
      subst hx
      rw [Script.play_bind]
      congr 1
      exact funext hk⟩
  refine steps_related hcongruence (fun g vs => ?_) (fun _ => rfl) (fun x => ?_) (fun step => ?_) _ f args
  · simp only [Script.play, bind_pure]
  · cases x <;> rfl
  · simp only [Script.play, bind_pure]

end Native

/-- A call that has not ended: what was called, and from where. -/
structure Activation where
  function : Lambda
  site : Span

namespace Activation

def frame (a : Activation) : Frame := ⟨a.function.name, a.site⟩

end Activation

/-- Where code is run: inside of the active calls, the innermost first, with its first slot and the values
that were captured for it. -/
structure Scene where
  calls : List Activation
  base : Nat
  captures : List Value

/-- What a run comes to: code, a call, the body of a closure that has been entered with its arguments, or
what is left of a native function. The latter two are the innermost of the active calls. -/
inductive Point where
  | code (scene : Scene) (c : Code) (m : Machine)
  | call (calls : List Activation) (site : Span) (argSpans : List Span) (f : Lambda) (args : List Value)
      (m : Machine)
  | body (calls : List Activation) (captures : List Value) (c : Code) (args : List Value) (m : Machine)
  | native (calls : List Activation) (site : Span) (rest : Script Value) (m : Machine)

namespace Point

def calls : Point → List Activation
  | code scene _ _ => scene.calls
  | call calls _ _ _ _ _ => calls
  | body calls _ _ _ _ => calls
  | native calls _ _ _ => calls

/-- The start of a program. -/
def start (run : Run) (c : Code) : Point := .code ⟨[], 0, []⟩ c (.start run.environment)

end Point

section

variable (run : Run)

/-- Calls functions inside of the active calls. -/
def caller (calls : List Activation) : Evaluation.Caller Code :=
  Evaluation.apply run (run.limits.callDepth - calls.length)

/-- Calls functions for a native function, which is the innermost of the active calls. -/
def callback (calls : List Activation) (site : Span) : Library.Callback Code :=
  caller run calls (calls.map Activation.frame) site []

namespace Scene

variable (scene : Scene)

def context : Context Code := ⟨scene.calls.map Activation.frame, scene.base, scene.captures⟩

abbrev eval (c : Code) : Eval Code Value :=
  Evaluation.eval .code run (caller run scene.calls) scene.context c

abbrev evalAll (cs : List Code) : Eval Code (List Value) :=
  Evaluation.evalAll .code run (caller run scene.calls) scene.context cs

abbrev evalStatements (cs : List Code) : Eval Code Unit :=
  Evaluation.evalStatements .code run (caller run scene.calls) scene.context cs

abbrev evalRecorded (cs : List Code) : Eval Code Unit :=
  Evaluation.evalRecorded .code run (caller run scene.calls) scene.context cs

abbrev evalEntries (entries : List (Code × Code)) : Eval Code (Bindings Value) :=
  Evaluation.evalEntries .code run (caller run scene.calls) scene.context [] entries

abbrev evalParameters (ps : List (CodeParameter Code)) : Eval Code (List Parameter) :=
  Evaluation.evalParameters .code run (caller run scene.calls) scene.context ps

end Scene

end

def Range.Takes (range : Range) : Value → Prop
  | .number x => range.Contains x
  | _ => False

def Parameter.Takes (p : Parameter) (v : Value) : Prop := ∀ range, p.range = some range → range.Takes v

open Evaluation

/-- What is to be done at a point ends with an error. -/
def Point.Fails (run : Run) (e : RunError) : Point → Prop
  | .code scene c m => (scene.eval run c m).1 = .error e
  | .call calls site argSpans f args m =>
    (caller run calls (calls.map Activation.frame) site argSpans f args m).1 = .error e
  | .body calls captures c args m =>
    (runCode .code run (caller run calls) (calls.map Activation.frame) captures c args m).1 = .error e
  | .native calls site rest m =>
    (rest.play (callback run calls site) (calls.map Activation.frame) site m).1 = .error e

/-- How a run goes on from one point to another, if what lies between them ends well. -/
inductive Next (run : Run) : Point → Point → Prop
  | statement {scene pre c post result span m m'} : scene.evalStatements run pre m = (.ok (), m') →
      Next run (.code scene (.block (pre ++ c :: post) result span) m) (.code scene c m')
  | blockResult {scene statements c span m m'} : scene.evalStatements run statements m = (.ok (), m') →
      Next run (.code scene (.block statements c span) m) (.code scene c m')
  | recorded {scene pre c post result bindings span m m'} : scene.evalRecorded run pre m = (.ok (), m') →
      Next run (.code scene (.program (pre ++ c :: post) result bindings span) m) (.code scene c m')
  | result {scene statements c bindings span m m'} : scene.evalRecorded run statements m = (.ok (), m') →
      Next run (.code scene (.program statements (some c) bindings span) m) (.code scene c m')
  | right {scene name c span m} : Next run (.code scene (.assign name c span) m) (.code scene c m)
  | item {scene pre c post span m vs m'} : scene.evalAll run pre m = (.ok vs, m') →
      Next run (.code scene (.list (pre ++ c :: post) span) m) (.code scene c m')
  | key {scene pre c d post span m es m'} : scene.evalEntries run pre m = (.ok es, m') →
      Next run (.code scene (.dict (pre ++ (c, d) :: post) span) m) (.code scene c m')
  | value {scene pre c d post span m es m₁ s m₂} : scene.evalEntries run pre m = (.ok es, m₁) →
      scene.eval run c m₁ = (.ok (.string s), m₂) →
      Next run (.code scene (.dict (pre ++ (c, d) :: post) span) m) (.code scene d m₂)
  | condition {scene c d e span m} : Next run (.code scene (.choice c d e span) m) (.code scene c m)
  | ifTrue {scene c d e span m m'} : scene.eval run c m = (.ok (.bool true), m') →
      Next run (.code scene (.choice c d e span) m) (.code scene d m')
  | ifFalse {scene c d e span m m'} : scene.eval run c m = (.ok (.bool false), m') →
      Next run (.code scene (.choice c d e span) m) (.code scene e m')
  | range {scene name pre p c post sources body span m vs m₁ ps m₂} :
      captured scene.context span sources m = (.ok vs, m₁) →
      scene.evalParameters run pre m₁ = (.ok ps, m₂) →
      Next run (.code scene (.lambda name (pre ++ ⟨p, some c⟩ :: post) sources body span) m)
        (.code scene c m₂)
  | callee {scene c args span m} : Next run (.code scene (.call c args span) m) (.code scene c m)
  | argument {scene callee pre c post span m f m₁ vs m₂} :
      scene.eval run callee m = (.ok (.lambda f), m₁) → scene.evalAll run pre m₁ = (.ok vs, m₂) →
      Next run (.code scene (.call callee (pre ++ c :: post) span) m) (.code scene c m₂)
  | call {scene callee args span m f m₁ vs m₂} : scene.eval run callee m = (.ok (.lambda f), m₁) →
      scene.evalAll run args m₁ = (.ok vs, m₂) →
      Next run (.code scene (.call callee args span) m)
        (.call scene.calls span (args.map Code.span) f vs m₂)
  | enter {calls site argSpans i name parameters captures c span args m} :
      length calls < run.limits.callDepth → Forall₂ Parameter.Takes parameters args →
      Next run (.call calls site argSpans (.closure i name parameters captures c span) args m)
        (.body (⟨.closure i name parameters captures c span, site⟩ :: calls) captures c args m)
  | body {calls captures c args m m'} :
      Eval.pushAll run (calls.map Activation.frame) (Code.span c) args m = (.ok (), m') →
      Next run (.body calls captures c args m) (.code ⟨calls, m.stack.size, captures⟩ c m')
  | native {calls site argSpans f args m} : length calls < run.limits.callDepth →
      Arity.Accepts (Native.arity f) (length args) →
      Next run (.call calls site argSpans (.native f) args m)
        (.native (⟨.native f, site⟩ :: calls) site (f.script run.environment args) m)
  | callback {calls site f args next m} :
      Next run (.native calls site (.call f args next) m) (.call calls site [] f args m)
  | returned {calls site f args next m v m'} : callback run calls site f args m = (.ok v, m') →
      Next run (.native calls site (.call f args next) m) (.native calls site (next v) m')
  | drawn {calls site step next m v m'} :
      Eval.draw (calls.map Activation.frame) site step m = (.ok v, m') →
      Next run (.native calls site (.draw step next) m) (.native calls site (next v) m')

/-- Where a run fails, by itself and not by what it comes to from there: at a place in the innermost of the
active calls. -/
inductive Stops (run : Run) : Point → Span → Failure → Prop
  | slots {scene name c span m v m'} : scene.eval run c m = (.ok v, m') →
      run.limits.stackSize ≤ m'.stack.size →
      Stops run (.code scene (.assign name c span) m) span (.stackSize run.limits.stackSize)
  | key {scene pre c d post span m es m₁ v m₂} : scene.evalEntries run pre m = (.ok es, m₁) →
      scene.eval run c m₁ = (.ok v, m₂) → (∀ s, v ≠ .string s) →
      Stops run (.code scene (.dict (pre ++ (c, d) :: post) span) m) c.span (.wrongType "String" v.typeName)
  | condition {scene c d e span m v m'} : scene.eval run c m = (.ok v, m') → (∀ b, v ≠ .bool b) →
      Stops run (.code scene (.choice c d e span) m) c.span (.wrongType "Bool" v.typeName)
  | range {scene name pre p c post sources body span m vs m₁ ps m₂ v m₃ failure} :
      captured scene.context span sources m = (.ok vs, m₁) →
      scene.evalParameters run pre m₁ = (.ok ps, m₂) → scene.eval run c m₂ = (.ok v, m₃) →
      Range.ofValue v = .error failure →
      Stops run (.code scene (.lambda name (pre ++ ⟨p, some c⟩ :: post) sources body span) m) c.span
        failure
  | callee {scene c args span m v m'} : scene.eval run c m = (.ok v, m') → (∀ f, v ≠ .lambda f) →
      Stops run (.code scene (.call c args span) m) c.span (.notAFunction v.text)
  | depth {calls site argSpans f args m} : run.limits.callDepth ≤ length calls →
      Stops run (.call calls site argSpans f args m) site (.callDepth run.limits.callDepth)
  | arity {calls site argSpans i name parameters captures c span args m} :
      length calls < run.limits.callDepth → length args ≠ length parameters →
      Stops run (.call calls site argSpans (.closure i name parameters captures c span) args m) site
        (.arity (.exactly (length parameters)) (length args))
  | nativeArity {calls site argSpans f args m} : length calls < run.limits.callDepth →
      ¬ Arity.Accepts (Native.arity f) (length args) →
      Stops run (.call calls site argSpans (.native f) args m) site
        (.arity (Native.arity f) (length args))
  | argument {calls site argSpans i name pre p post captures c span vs v ws m range} :
      length calls < run.limits.callDepth → length (vs ++ v :: ws) = length (pre ++ p :: post) →
      Forall₂ Parameter.Takes pre vs → Parameter.range p = some range → ¬ Range.Takes range v →
      Stops run (.call calls site argSpans (.closure i name (pre ++ p :: post) captures c span)
        (vs ++ v :: ws) m) (List.getD argSpans (length pre) site) (.outOfRange (length pre) range)
  | arguments {calls captures c v vs m} : run.limits.stackSize ≤ m.stack.size + length vs →
      Stops run (.body calls captures c (v :: vs) m) (Code.span c) (.stackSize run.limits.stackSize)
  | fail {calls site failure m} : Stops run (.native calls site (.fail failure) m) site failure
  | draw {calls site next m failure} {step : Draw Value} : (step m.random).1 = .error failure →
      Stops run (.native calls site (.draw step next) m) site failure

end Estimation
