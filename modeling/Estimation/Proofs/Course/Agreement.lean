import Estimation.Proofs.Course.Interpreter
import Estimation.Proofs.Natives

/-!
The interpreter does what evaluation does, comes to an end each time, and holds afterwards what it held
before, the machine apart: by induction on how large a task is.
-/

namespace Estimation

open List

theorem Follows.congruence (limits : Limits) (ctx : Context Code) (site : Span) :
    Congruence fun α (step : Eval Code α) steps => Follows limits ctx site step steps :=
  ⟨.pure, fun h hk => h.bind hk⟩

theorem Native.run_follows {run : Run} {ctx : Context Code} {site span : Span}
    {call : Library.Callback Code} {call' : Lambda → List Value → Steps Value}
    (hcall : ∀ f args, Follows run.limits ctx site (call f args) (call' f args)) (g : Native)
    (args : List Value) : Follows run.limits ctx site (g.run run call ctx.frames span args)
      (g.steps run.environment call' (Steps.fail span) (Steps.ofExcept span) (Steps.draw span) args) :=
  Native.steps_related (Follows.congruence run.limits ctx site) hcall (fun _ => .fail) .ofExcept .draw
    run.environment g args

/-! ### Code and calls -/

/-- What a task comes to, inside of a call. -/
def Task.meaning (run : Run) (ctx : Context Code) : Task → Eval Code Value
  | .evaluate code =>
    Evaluation.eval .code run (Evaluation.apply run (run.limits.callDepth - ctx.frames.length)) ctx code
  | .call f args span argSpans =>
    Evaluation.apply run (run.limits.callDepth - ctx.frames.length) ctx.frames span argSpans f args

namespace Interpreter

open Evaluation

section

variable {run : Run} {perform : Task → Steps Value} {ctx : Context Code} {site : Span} {bound : Nat}
  {apply : Caller Code}

/-- Pieces of code below a size are done as they are evaluated. -/
def EvaluatesBelow (run : Run) (apply : Caller Code) (ctx : Context Code) (site : Span)
    (perform : Task → Steps Value) (bound : Nat) : Prop :=
  ∀ code : Code, code.size < bound → Follows run.limits ctx site (eval .code run apply ctx code)
    (perform (.evaluate code))

section

variable (h : EvaluatesBelow run apply ctx site perform bound)

include h

theorem evaluateAll_follows {codes : List Code} (hs : Code.sizeAll codes < bound) :
    Follows run.limits ctx site (evalAll .code run apply ctx codes) (evaluateAll perform codes) := by
  induction codes with
  | nil =>
    simp only [evalAll]
    exact .pure _
  | cons code rest ih =>
    rw [Code.sizeAll] at hs
    simp only [evalAll]
    exact (h code (by omega)).bind fun _ => (ih (by omega)).bind fun _ => .pure _

theorem evaluateStatements_follows {codes : List Code} (hs : Code.sizeAll codes < bound) :
    Follows run.limits ctx site (evalStatements .code run apply ctx codes)
      (evaluateStatements perform codes) := by
  induction codes with
  | nil =>
    simp only [evalStatements]
    exact .pure _
  | cons code rest ih =>
    rw [Code.sizeAll] at hs
    simp only [evalStatements]
    exact (h code (by omega)).bind fun _ => ih (by omega)

theorem evaluateEntry_follows {entry : Code × Code} (hs : Code.sizeEntry entry < bound) :
    Follows run.limits ctx site (evalEntry .code run apply ctx entry) (evaluateEntry perform entry) := by
  obtain ⟨key, value⟩ := entry
  rw [Code.sizeEntry] at hs
  simp only [evalEntry]
  refine (h key (by omega)).bind fun v => ?_
  cases v with
  | string s => exact (h value (by omega)).bind fun _ => .pure _
  | _ => exact .fail

theorem evaluateEntries_follows {entries : List (Code × Code)}
    (hs : Code.sizeEntries entries < bound) (done : Bindings Value) :
    Follows run.limits ctx site (evalEntries .code run apply ctx done entries)
      (evaluateEntries perform done entries) := by
  induction entries generalizing done with
  | nil =>
    simp only [evalEntries]
    exact .pure _
  | cons entry rest ih =>
    rw [Code.sizeEntries] at hs
    simp only [evalEntries]
    exact (evaluateEntry_follows h (by omega)).bind fun _ => ih (by omega) _

theorem evaluateRange_follows {range : Option Code} (hs : Code.sizeOption range < bound) :
    Follows run.limits ctx site (evalRange .code run apply ctx range) (evaluateRange perform range) := by
  cases range with
  | none =>
    simp only [evalRange]
    exact .pure _
  | some code =>
    rw [Code.sizeOption] at hs
    simp only [evalRange]
    exact (h code hs).bind fun _ => (Follows.ofExcept _).bind fun _ => .pure _

theorem evaluateParameters_follows {parameters : List (CodeParameter Code)}
    (hs : Code.sizeParameters parameters < bound) :
    Follows run.limits ctx site (evalParameters .code run apply ctx parameters)
      (evaluateParameters perform parameters) := by
  induction parameters with
  | nil =>
    simp only [evalParameters]
    exact .pure _
  | cons p ps ih =>
    obtain ⟨name, range⟩ := p
    rw [Code.sizeParameters, Code.sizeParameter] at hs
    simp only [evalParameters, evalParameter, bind_assoc, pure_bind]
    exact (evaluateRange_follows h (by omega)).bind fun _ => (ih (by omega)).bind fun _ => .pure _

theorem evaluateRecorded_follows {codes : List Code} (hs : Code.sizeAll codes < bound) :
    Follows run.limits ctx site (evalRecorded .code run apply ctx codes)
      (evaluateRecorded perform codes) := by
  induction codes with
  | nil =>
    simp only [evalRecorded]
    exact .pure _
  | cons code rest ih =>
    rw [Code.sizeAll] at hs
    simp only [evalRecorded]
    exact (h code (by omega)).bind fun _ => (Follows.onMachine fun _ => rfl).bind fun _ => ih (by omega)

theorem evaluateResult_follows {result : Option Code} (hs : Code.sizeOption result < bound) :
    Follows run.limits ctx site (evalResult .code run apply ctx result)
      (evaluateResult perform result) := by
  cases result with
  | none =>
    simp only [evalResult]
    exact .pure _
  | some code =>
    rw [Code.sizeOption] at hs
    simp only [evalResult]
    exact (h code hs).bind fun _ => (Follows.onMachine fun _ => rfl).bind fun _ => .pure _

end

theorem captured_follows (span : Span) (sources : List Variable) : Follows run.limits ctx site
    (Evaluation.captured ctx span sources) (captured span sources) := by
  induction sources with
  | nil => exact .pure _
  | cons source sources ih =>
    rintro c rfl hsite
    refine .get ?_
    cases lookup? c.now.context c.now.machine source with
    | none => exact Follows.fail c rfl hsite
    | some v => exact (ih.bind fun _ => .pure _) c rfl hsite

theorem evaluate_follows (code : Code) (h : EvaluatesBelow run apply ctx site perform code.size)
    (hcall : ∀ f args span argSpans, Follows run.limits ctx site
      (apply ctx.frames span argSpans f args) (perform (.call f args span argSpans))) :
    Follows run.limits ctx site (eval .code run apply ctx code) (evaluate run perform code) := by
  cases code with
  | value v span =>
    simp only [eval]
    exact .pure v
  | read source span =>
    simp only [eval]
    rintro c rfl hsite
    refine .get ?_
    cases lookup? c.now.context c.now.machine source with
    | none => exact Follows.fail c rfl hsite
    | some v => exact Follows.pure v c rfl hsite
  | block statements result span =>
    rw [Code.size] at h
    simp only [eval]
    exact ((evaluateStatements_follows h (by omega)).bind fun _ => h result (by omega)).keepingStack
  | program statements result bindings span =>
    rw [Code.size] at h
    simp only [eval]
    exact (evaluateRecorded_follows h (by omega)).bind fun _ => evaluateResult_follows h (by omega)
  | assign name right span =>
    rw [Code.size] at h
    simp only [eval]
    exact (h right (by omega)).bind fun _ => Follows.push.bind fun _ => .pure _
  | list items span =>
    rw [Code.size] at h
    simp only [eval]
    exact (evaluateAll_follows h (by omega)).bind fun _ => .pure _
  | dict entries span =>
    rw [Code.size] at h
    simp only [eval]
    exact (evaluateEntries_follows h (by omega) []).bind fun _ => .pure _
  | choice condition ifTrue ifFalse span =>
    rw [Code.size] at h
    simp only [eval]
    refine (h condition (by omega)).bind fun v => ?_
    cases v with
    | bool b =>
      cases b with
      | true => exact h ifTrue (by omega)
      | false => exact h ifFalse (by omega)
    | _ => exact .fail
  | lambda name parameters captures body span =>
    rw [Code.size] at h
    simp only [eval]
    exact (captured_follows span captures).bind fun _ =>
      (evaluateParameters_follows h (by omega)).bind fun _ =>
        (Follows.onMachine fun _ => rfl).bind fun _ => .pure _
  | call callee args span =>
    rw [Code.size] at h
    simp only [eval]
    refine (h callee (by omega)).bind fun v => ?_
    cases v with
    | lambda f => exact (evaluateAll_follows h (by omega)).bind fun _ => hcall _ _ _ _
    | _ => exact .fail

theorem checkRanges_follows (span : Span) (argSpans : List Span) (index : Nat)
    (parameters : List Parameter) (args : List Value) : Follows run.limits ctx site
      (Evaluation.checkRanges ctx.frames span argSpans index parameters args)
      (checkRanges span argSpans index parameters args) := by
  induction parameters generalizing index args with
  | nil => exact .pure _
  | cons p parameters ih =>
    cases args with
    | nil => exact .pure _
    | cons v args =>
      unfold Evaluation.checkRanges checkRanges
      cases p.range with
      | none => exact ih _ _
      | some range =>
        cases v with
        | number x =>
          by_cases hx : range.Contains x
          · simp only [hx, decide_true, ↓reduceIte]
            exact ih _ _
          · simp only [hx, decide_false]
            exact Follows.fail.bind fun _ => ih _ _
        | _ => exact Follows.fail.bind fun _ => ih _ _

/-- A call that begins and ends. -/
theorem framed_follows {α : Type} {step : Eval Code α} {steps : Steps α} {frame : Frame}
    (hdepth : ctx.frames.length < run.limits.callDepth)
    (h : Follows run.limits ⟨frame :: ctx.frames, ctx.base, ctx.captures⟩ site step steps) :
    Follows run.limits ctx site step (do
      Steps.change (Registers.pushFrame frame)
      Steps.ending Registers.popFrame steps) := by
  rintro c rfl hsite
  exact (h (c.change (Registers.pushFrame frame)) rfl hsite).inside rfl (f := id) (fun _ => rfl)
    (fun _ => rfl) (fun hc => ⟨hdepth, hc.stack⟩) fun _ => Nat.le_refl _

theorem callClosure_follows {captures : List Value} {body : Code}
    (h : ∀ size, Follows run.limits ⟨ctx.frames, size, captures⟩ site
      (eval .code run apply ⟨ctx.frames, size, captures⟩ body) (perform (.evaluate body)))
    (args : List Value) : Follows run.limits ctx site
      (runCode .code run apply ctx.frames captures body args)
      (callClosure run perform captures body args) := by
  rintro c rfl hsite
  refine .get ?_
  let size := c.now.machine.stack.size
  have hbody : Follows run.limits ⟨c.now.frames, size, captures⟩ site
      (do Eval.pushAll run c.now.frames body.span args
          eval .code run apply ⟨c.now.frames, size, captures⟩ body)
      (do Steps.pushAll run.limits body.span args
          perform (.evaluate body)) := (Follows.pushAll args).bind fun _ => h size
  exact (hbody (c.change fun r => { r with base := size, captures }) rfl hsite).inside rfl
    (fun _ => rfl) (fun _ => rfl) (fun hc => ⟨hc.frames, hc.stack⟩) fun m => Follows.size_shrink_le m _

theorem callNative_follows {g : Native} {span : Span}
    (h : ∀ f args, Follows run.limits ctx span (apply ctx.frames span [] f args)
      (perform (.call f args span [])))
    (args : List Value) : Follows run.limits ctx site
      (g.run run (apply ctx.frames span []) ctx.frames span args)
      (callNative run perform g args span) := by
  rintro c rfl -
  refine .held ?_
  have hcall : ∀ f args, Follows run.limits c.now.context span
      (apply c.now.context.frames span [] f args)
      (do perform (.call f args (← Steps.held).callSite [])) := by
    rintro f args c' hctx rfl
    exact .held (h f args c' hctx rfl)
  exact (Native.run_follows hcall g args (c.change fun r => { r with callSite := span }) rfl rfl).inside
    rfl (f := id) (fun _ => rfl) (fun _ => rfl) (fun hc => ⟨hc.frames, hc.stack⟩)
    fun _ => Nat.le_refl _

/-- Tasks below a bound are done as they are meant to be. -/
def PerformsBelow (run : Run) (perform : Task → Steps Value) (bound : Nat × Nat) : Prop :=
  ∀ t ctx site, Task.Smaller (t.extent run.limits ctx.frames) bound →
    Follows run.limits ctx site (t.meaning run ctx) (perform t)

/-- In a call fewer calls may nest than outside of it. -/
theorem smaller_inside (t u : Task) (frame : Frame) {frames : List Frame}
    (h : frames.length < run.limits.callDepth) :
    Task.Smaller (t.extent run.limits (frame :: frames)) (u.extent run.limits frames) := by
  refine .left _ _ ?_
  rw [length_cons]
  omega

theorem enter_follows {f : Lambda} {args : List Value} {span : Span} {argSpans : List Span}
    (hmore : ctx.frames.length < run.limits.callDepth)
    (h : PerformsBelow run perform ((Task.call f args span argSpans).extent run.limits ctx.frames)) :
    Follows run.limits ctx site ((Task.call f args span argSpans).meaning run ctx)
      (enter run perform args span argSpans f) := by
  -- One more call is active inside, so one less may nest there.
  have hdepth : ∀ frame : Frame, run.limits.callDepth - ctx.frames.length =
      run.limits.callDepth - (frame :: ctx.frames).length + 1 := by
    intro frame
    rw [length_cons]
    omega
  simp only [Task.meaning, hdepth ⟨f.name, span⟩, Evaluation.apply, callWith]
  cases f with
  | closure identity name parameters captures body place =>
    let inner : Context Code := ⟨⟨name.getD "<anonymous>", span⟩ :: ctx.frames, ctx.base, ctx.captures⟩
    have hinner : Follows run.limits inner site
        (runCode .code run (Evaluation.apply run (run.limits.callDepth - inner.frames.length))
          inner.frames captures body args) (callClosure run perform captures body args) :=
      callClosure_follows (fun _ => h (.evaluate body) _ _ (smaller_inside _ _ _ hmore)) args
    have hranges := (checkRanges_follows span argSpans 0 parameters args).bind
      fun _ => framed_follows hmore hinner
    simp only [enter]
    by_cases hn : args.length = parameters.length
    · simp only [hn, ↓reduceIte]
      exact hranges
    · simp only [hn, ↓reduceIte]
      exact Follows.fail.bind fun _ => hranges
  | native g =>
    let inner : Context Code := ⟨⟨g.name, span⟩ :: ctx.frames, ctx.base, ctx.captures⟩
    have hinner : Follows run.limits inner site
        (g.run run (Evaluation.apply run (run.limits.callDepth - inner.frames.length) inner.frames span [])
          inner.frames span args) (callNative run perform g args span) :=
      callNative_follows (fun f args => h (.call f args span []) _ _ (smaller_inside _ _ _ hmore)) args
    have hbody := framed_follows hmore hinner
    simp only [enter]
    by_cases hn : g.arity.Accepts args.length
    · simp only [hn, ↓reduceIte]
      exact hbody
    · simp only [hn, ↓reduceIte]
      exact Follows.fail.bind fun _ => hbody

theorem call_follows {f : Lambda} {args : List Value} {span : Span} {argSpans : List Span}
    (h : PerformsBelow run perform ((Task.call f args span argSpans).extent run.limits ctx.frames)) :
    Follows run.limits ctx site ((Task.call f args span argSpans).meaning run ctx)
      (call run perform f args span argSpans) := by
  rintro c rfl hsite
  refine .held ?_
  by_cases hfull : run.limits.callDepth ≤ c.now.frames.length
  · have hzero : run.limits.callDepth - c.now.context.frames.length = 0 := Nat.sub_eq_zero_of_le hfull
    simp only [Task.meaning, hzero, Evaluation.apply, callWith, hfull, ↓reduceIte]
    exact Follows.fail c rfl hsite
  · rw [if_neg hfull]
    exact enter_follows (Nat.lt_of_not_le hfull) h c rfl hsite

theorem act_follows {t : Task} (h : PerformsBelow run perform (t.extent run.limits ctx.frames)) :
    Follows run.limits ctx site (t.meaning run ctx) (act run perform t) := by
  cases t with
  | evaluate code =>
    exact evaluate_follows code (fun piece hpiece => h (.evaluate piece) ctx site (.right _ hpiece))
      fun f args span argSpans => h (.call f args span argSpans) ctx site (.right _ code.size_pos)
  | call f args span argSpans => exact call_follows h

end

theorem performBelow_follows (run : Run) (bound : Nat × Nat) :
    PerformsBelow run (performBelow run bound) bound := by
  intro t ctx site hsmall c hctx hsite
  have hframes : c.now.frames = ctx.frames := congrArg Context.frames hctx
  have h := act_follows (performBelow_follows run (t.extent run.limits ctx.frames)) c hctx hsite
  unfold FollowsAt at h ⊢
  rw [performBelow, hframes, dif_pos hsmall]
  exact h
  termination_by bound
  decreasing_by assumption

theorem perform_follows {run : Run} {ctx : Context Code} {site : Span} (t : Task) :
    Follows run.limits ctx site (t.meaning run ctx) (perform run t) := by
  rintro c rfl hsite
  -- Stated without the goal, against which the machine would be unfolded.
  have h := act_follows (t := t) (performBelow_follows run _) c rfl hsite
  exact h

end Interpreter

end Estimation
