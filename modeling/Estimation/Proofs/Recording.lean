import Estimation.Proofs.Natives
import Estimation.Proofs.Steps

/-!
Whether statements are recorded says nothing about a run. Steps that begin on machines which differ in
their records only come to the same result, and to machines that again differ in their records only.
-/

namespace Estimation

/-- The same but for what a program cannot see: whether statements are recorded, and how many points
a curve has. -/
def Environment.recording (e : Environment) (pointLength : Nat) (profile : Bool) : Environment :=
  { e with pointLength, profile }

def Run.recording (run : Run) (pointLength : Nat) (profile : Bool) : Run :=
  { run with environment := run.environment.recording pointLength profile }

/-- A machine without its record. -/
def MachineOf.unrecorded (m : Machine) : Machine := { m with profile := none }

theorem MachineOf.eq_of_unrecorded {m m' : Machine} (h : m.unrecorded = m'.unrecorded) :
    m' = { m with profile := m'.profile } := by
  obtain ⟨stack, random, closures, profile⟩ := m
  obtain ⟨stack', random', closures', profile'⟩ := m'
  cases h
  rfl

/-- Two steps that do the same but to the record. -/
def Unseeing {α : Type} (step step' : Eval Code α) : Prop :=
  ∀ m m' : Machine, m.unrecorded = m'.unrecorded →
    (step m).1 = (step' m').1 ∧ (step m).2.unrecorded = (step' m').2.unrecorded

namespace Unseeing

variable {α δ : Type} {step step' : Eval Code α} {frames : List Frame} {span : Span}

/-- It is enough to look at what one machine does without its record. -/
theorem of_record (h : ∀ (m : Machine) record, (step m).1 = (step' { m with profile := record }).1 ∧
    (step m).2.unrecorded = (step' { m with profile := record }).2.unrecorded) :
    Unseeing step step' := by
  intro m m' hm
  rw [MachineOf.eq_of_unrecorded hm]
  exact h m _

theorem pure (a : α) : Unseeing (pure a) (pure a) := fun _ _ h => ⟨rfl, h⟩

theorem fail (failure : Failure) :
    Unseeing (α := α) (Eval.fail frames span failure) (Eval.fail frames span failure) :=
  fun _ _ h => ⟨rfl, h⟩

theorem fail_bind {failure : Failure} {k k' : α → Eval Code δ} :
    Unseeing (Eval.fail frames span failure >>= k) (Eval.fail frames span failure >>= k') :=
  fun _ _ h => ⟨rfl, h⟩

theorem bind (h : Unseeing step step') {k k' : α → Eval Code δ} (hk : ∀ a, Unseeing (k a) (k' a)) :
    Unseeing (step >>= k) (step' >>= k') := by
  intro m m' hm
  obtain ⟨hresult, hmachine⟩ := h m m' hm
  rcases hs : step m with ⟨r, after⟩
  rcases hs' : step' m' with ⟨r', after'⟩
  rw [hs, hs'] at hresult hmachine
  -- With the same result both go on, or both stop.
  cases hresult
  cases r with
  | ok a =>
    rw [Eval.bind_ok hs, Eval.bind_ok hs']
    exact hk a _ _ hmachine
  | error e =>
    rw [Eval.bind_error hs, Eval.bind_error hs']
    exact ⟨rfl, hmachine⟩

theorem congruence : Congruence fun α (step step' : Eval Code α) => Unseeing step step' :=
  ⟨pure, fun h hk => h.bind hk⟩

theorem ofExcept (x : Except Failure α) :
    Unseeing (Eval.ofExcept frames span x) (Eval.ofExcept frames span x) := by
  cases x with
  | ok a => exact pure a
  | error failure => exact fail failure

theorem draw (step : Draw α) : Unseeing (Eval.draw frames span step) (Eval.draw frames span step) := by
  refine of_record fun m record => ?_
  simp only [Eval.draw]
  rcases step m.random with ⟨_ | _, _⟩ <;> exact ⟨rfl, rfl⟩

theorem get {k k' : Machine → Eval Code α}
    (h : ∀ m m', m.unrecorded = m'.unrecorded → Unseeing (k m) (k' m')) :
    Unseeing (get >>= k) (get >>= k') :=
  fun m m' hm => h m m' hm m m' hm

theorem record {label : String} : Unseeing (Eval.record label span) (Eval.record label span) :=
  of_record fun _ _ => ⟨rfl, rfl⟩

variable {run : Run} {pointLength : Nat} {profile : Bool}

theorem newIdentity : Unseeing (Evaluation.newIdentity run)
    (Evaluation.newIdentity (run.recording pointLength profile)) :=
  of_record fun _ _ => ⟨rfl, rfl⟩

theorem push {v : Value} : Unseeing (Eval.push run frames span v)
    (Eval.push (run.recording pointLength profile) frames span v) := by
  refine of_record fun m record => ?_
  have hlimits : (run.recording pointLength profile).limits = run.limits := rfl
  rw [Eval.push_eq, Eval.push_eq, hlimits]
  split <;> exact ⟨rfl, rfl⟩

theorem pushAll (vs : List Value) : Unseeing (Eval.pushAll run frames span vs)
    (Eval.pushAll (run.recording pointLength profile) frames span vs) := by
  induction vs with
  | nil => exact pure _
  | cons v vs ih => exact push.bind fun _ => ih

theorem shrinking {k k' : Nat → Eval Code α} (h : ∀ size, Unseeing (k size) (k' size)) :
    Unseeing (do let size := (← MonadState.get).stack.size
                 Eval.shrinkingTo size (k size))
      (do let size := (← MonadState.get).stack.size
          Eval.shrinkingTo size (k' size)) := by
  refine get fun m m' hm => ?_
  rw [MachineOf.eq_of_unrecorded hm]
  intro n n' hn
  obtain ⟨hresult, hmachine⟩ := h m.stack.size n n' hn
  let shrunk (after : Machine) : Machine := { after with stack := after.stack.shrink m.stack.size }
  have hshrunk := congrArg shrunk hmachine
  exact ⟨hresult, hshrunk⟩

end Unseeing

/-! ### Native functions -/

theorem Native.steps_recording {M : Type → Type} [Monad M] (e : Environment) (pointLength : Nat)
    (profile : Bool) (call : Lambda → List Value → M Value)
    (fail : {α : Type} → Failure → M α) (result : Library.Result Value → M Value)
    (draw : Draw Value → M Value) (g : Native) (args : List Value) :
    g.steps (e.recording pointLength profile) call fail result draw args =
      g.steps e call fail result draw args := by
  cases g <;> rfl

variable {run : Run} {pointLength : Nat} {profile : Bool}

theorem Native.run_unseeing {call call' : Library.Callback Code}
    (hcall : ∀ f args, Unseeing (call f args) (call' f args)) (g : Native) (frames : List Frame)
    (span : Span) (args : List Value) : Unseeing (g.run run call frames span args)
      (g.run (run.recording pointLength profile) call' frames span args) := by
  unfold Native.run
  rw [Run.recording, Native.steps_recording]
  exact Native.steps_related Unseeing.congruence hcall Unseeing.fail Unseeing.ofExcept Unseeing.draw
    run.environment g args

namespace Evaluation

theorem lookup?_unrecorded {ctx : Context Code} {m m' : Machine} (h : m.unrecorded = m'.unrecorded)
    (source : Variable) : lookup? ctx m source = lookup? ctx m' source := by
  rw [MachineOf.eq_of_unrecorded h]
  cases source <;> rfl

theorem captured_unseeing {ctx : Context Code} (span : Span) (sources : List Variable) :
    Unseeing (captured ctx span sources) (captured ctx span sources) := by
  induction sources with
  | nil => exact .pure _
  | cons source sources ih =>
    refine .get fun m m' hm => ?_
    rw [lookup?_unrecorded hm]
    cases lookup? ctx m' source with
    | some v => exact ih.bind fun _ => .pure _
    | none => exact .fail _

section

variable {call call' : Caller Code} {ctx : Context Code}
  (hcall : ∀ frames span argSpans f args,
    Unseeing (call frames span argSpans f args) (call' frames span argSpans f args))

set_option linter.unusedSectionVars false

include hcall

mutual

theorem eval_unseeing : ∀ code : Code, Unseeing (eval .code run call ctx code)
    (eval .code (run.recording pointLength profile) call' ctx code)
  | .value _ _ => by
    simp only [eval]
    exact .pure _
  | .read source _ => by
    simp only [eval]
    refine .get fun m m' hm => ?_
    rw [lookup?_unrecorded hm]
    cases lookup? ctx m' source with
    | some v => exact .pure _
    | none => exact .fail _
  | .block statements result _ => by
    simp only [eval]
    exact .shrinking fun _ => (evalStatements_unseeing statements).bind fun _ => eval_unseeing result
  | .program statements result _ _ => by
    simp only [eval]
    exact (evalRecorded_unseeing statements).bind fun _ => evalResult_unseeing result
  | .assign _ right _ => by
    simp only [eval]
    exact (eval_unseeing right).bind fun _ => Unseeing.push.bind fun _ => .pure _
  | .list items _ => by
    simp only [eval]
    exact (evalAll_unseeing items).bind fun _ => .pure _
  | .dict entries _ => by
    simp only [eval]
    exact (evalEntries_unseeing entries []).bind fun _ => .pure _
  | .choice condition ifTrue ifFalse _ => by
    simp only [eval]
    refine (eval_unseeing condition).bind fun v => ?_
    split
    · exact eval_unseeing ifTrue
    · exact eval_unseeing ifFalse
    · exact .fail _
  | .lambda _ parameters captures body span => by
    simp only [eval]
    exact (captured_unseeing span captures).bind fun _ => (evalParameters_unseeing parameters).bind
      fun _ => Unseeing.newIdentity.bind fun _ => .pure _
  | .call callee args _ => by
    simp only [eval]
    refine (eval_unseeing callee).bind fun v => ?_
    split
    · exact (evalAll_unseeing args).bind fun _ => hcall _ _ _ _ _
    · exact .fail _

theorem evalAll_unseeing : ∀ codes : List Code, Unseeing (evalAll .code run call ctx codes)
    (evalAll .code (run.recording pointLength profile) call' ctx codes)
  | [] => by
    simp only [evalAll]
    exact .pure _
  | code :: rest => by
    simp only [evalAll]
    exact (eval_unseeing code).bind fun _ => (evalAll_unseeing rest).bind fun _ => .pure _

theorem evalStatements_unseeing : ∀ codes : List Code,
    Unseeing (evalStatements .code run call ctx codes)
      (evalStatements .code (run.recording pointLength profile) call' ctx codes)
  | [] => by
    simp only [evalStatements]
    exact .pure _
  | code :: rest => by
    simp only [evalStatements]
    exact (eval_unseeing code).bind fun _ => evalStatements_unseeing rest

theorem evalEntries_unseeing : ∀ (entries : List (Code × Code)) (done : Bindings Value),
    Unseeing (evalEntries .code run call ctx done entries)
      (evalEntries .code (run.recording pointLength profile) call' ctx done entries)
  | [], _ => by
    simp only [evalEntries]
    exact .pure _
  | entry :: rest, _ => by
    simp only [evalEntries]
    exact (evalEntry_unseeing entry).bind fun _ => evalEntries_unseeing rest _

theorem evalEntry_unseeing : ∀ entry : Code × Code, Unseeing (evalEntry .code run call ctx entry)
    (evalEntry .code (run.recording pointLength profile) call' ctx entry)
  | (key, value) => by
    simp only [evalEntry]
    refine (eval_unseeing key).bind fun v => ?_
    split
    · exact (eval_unseeing value).bind fun _ => .pure _
    · exact .fail _

theorem evalParameters_unseeing : ∀ parameters : List (CodeParameter Code),
    Unseeing (evalParameters .code run call ctx parameters)
      (evalParameters .code (run.recording pointLength profile) call' ctx parameters)
  | [] => by
    simp only [evalParameters]
    exact .pure _
  | p :: ps => by
    simp only [evalParameters]
    exact (evalParameter_unseeing p).bind fun _ => (evalParameters_unseeing ps).bind fun _ => .pure _

theorem evalParameter_unseeing : ∀ p : CodeParameter Code,
    Unseeing (evalParameter .code run call ctx p)
      (evalParameter .code (run.recording pointLength profile) call' ctx p)
  | ⟨_, none⟩ => by
    simp only [evalParameter, evalRange]
    exact Unseeing.bind (.pure _) fun _ => .pure _
  | ⟨_, some code⟩ => by
    simp only [evalParameter, evalRange]
    refine Unseeing.bind ((eval_unseeing code).bind fun _ => ?_) fun _ => .pure _
    exact (Unseeing.ofExcept _).bind fun _ => .pure _

theorem evalRecorded_unseeing : ∀ codes : List Code,
    Unseeing (evalRecorded .code run call ctx codes)
      (evalRecorded .code (run.recording pointLength profile) call' ctx codes)
  | [] => by
    simp only [evalRecorded]
    exact .pure _
  | code :: rest => by
    simp only [evalRecorded]
    exact (eval_unseeing code).bind fun _ => Unseeing.record.bind fun _ => evalRecorded_unseeing rest

theorem evalResult_unseeing : ∀ code : Option Code, Unseeing (evalResult .code run call ctx code)
    (evalResult .code (run.recording pointLength profile) call' ctx code)
  | none => by
    simp only [evalResult]
    exact .pure _
  | some code => by
    simp only [evalResult]
    exact (eval_unseeing code).bind fun _ => Unseeing.record.bind fun _ => .pure _

end

theorem runCode_unseeing (frames : List Frame) (captures : List Value) (body : Code)
    (args : List Value) : Unseeing (runCode .code run call frames captures body args)
      (runCode .code (run.recording pointLength profile) call' frames captures body args) := by
  let k (run : Run) (call : Caller Code) (size : Nat) : Eval Code Value := do
    Eval.pushAll run frames body.span args
    eval .code run call ⟨frames, size, captures⟩ body
  have hk (size : Nat) : Unseeing (k run call size) (k (run.recording pointLength profile) call' size) :=
    (Unseeing.pushAll args).bind fun _ => eval_unseeing hcall body
  exact .shrinking hk

end

theorem checkRanges_unseeing (frames : List Frame) (span : Span) (argSpans : List Span)
    (parameters : List Parameter) (index : Nat) (args : List Value) :
    Unseeing (checkRanges frames span argSpans index parameters args)
      (checkRanges frames span argSpans index parameters args) := by
  induction parameters generalizing index args with
  | nil => exact .pure _
  | cons p parameters ih =>
    cases args with
    | nil => exact .pure _
    | cons v args =>
      unfold checkRanges
      cases p.range with
      | none => exact ih _ _
      | some range =>
        cases v with
        | number x =>
          by_cases hx : range.Contains x
          · simp only [hx, decide_true, ↓reduceIte]
            exact ih _ _
          · simp only [hx, decide_false]
            exact .fail_bind
        | _ => exact .fail_bind

theorem apply_unseeing (depth : Nat) (frames : List Frame) (span : Span) (argSpans : List Span)
    (f : Lambda) (args : List Value) : Unseeing (apply run depth frames span argSpans f args)
      (apply (run.recording pointLength profile) depth frames span argSpans f args) := by
  unfold apply
  induction depth generalizing frames span argSpans f args with
  | zero => exact .fail _
  | succ depth ih =>
    cases f with
    | closure identity name parameters captures body place =>
      let inner : List Frame := ⟨name.getD "<anonymous>", span⟩ :: frames
      simp only [callWith]
      by_cases hn : args.length = parameters.length
      · simp only [hn, ↓reduceIte]
        exact (checkRanges_unseeing frames span argSpans parameters 0 args).bind fun _ =>
          runCode_unseeing ih inner captures body args
      · simp only [hn, ↓reduceIte]
        exact .fail_bind
    | native g =>
      let inner : List Frame := ⟨g.name, span⟩ :: frames
      simp only [callWith]
      by_cases hn : g.arity.Accepts args.length
      · simp only [hn, ↓reduceIte]
        exact Native.run_unseeing (ih inner span []) g inner span args
      · simp only [hn, ↓reduceIte]
        exact .fail_bind

theorem bindingValues_unseeing (bs : List TopBinding) (bindings exports : Bindings Value) :
    Unseeing (bindingValues bs bindings exports) (bindingValues bs bindings exports) := by
  induction bs generalizing bindings exports with
  | nil => exact .pure _
  | cons b bs ih =>
    unfold bindingValues
    refine .get fun m m' hm => ?_
    rw [MachineOf.eq_of_unrecorded hm]
    cases m.stack[b.slot]? with
    | some v => exact ih _ _
    | none => exact .fail _

/-- What a program leaves, the record apart. -/
def answer (run : Run) (code : Code) : Eval Code (Value × Bindings Value × Bindings Value) := do
  let result ← topLevel run code
  let (bindings, exports) ←
    match code with
    | .program _ _ bindings _ => bindingValues bindings [] []
    | _ => pure ([], [])
  return (result, bindings, exports)

theorem answer_unseeing (code : Code) :
    Unseeing (answer run code) (answer (run.recording pointLength profile) code) := by
  refine Unseeing.bind (eval_unseeing (apply_unseeing _) code) fun v => ?_
  cases code with
  | program statements result bindings span =>
    exact (bindingValues_unseeing bindings [] []).bind fun _ => .pure _
  | _ => exact Unseeing.bind (.pure _) fun _ => .pure _

theorem runProgram_answer (run : Run) (code : Code) : runProgram run code = (do
    let (result, bindings, exports) ← answer run code
    return ⟨result, bindings, exports, ← takeProfile⟩) := by
  unfold runProgram answer
  cases code <;> simp

end Evaluation

namespace Outcome

/-- The values that a program leaves. -/
def values (o : Outcome) : Value × Bindings Value × Bindings Value := (o.result, o.bindings, o.exports)

end Outcome

namespace Evaluation

theorem runFresh_answer (run : Run) (code : Code) : (runFresh run code).map Outcome.values =
    (answer run code (.start run.environment)).1 := by
  unfold runFresh
  rw [runProgram_answer]
  rcases h : answer run code (.start run.environment) with ⟨e | v, after⟩
  · rw [Eval.bind_error h]
    rfl
  · rw [Eval.bind_ok h]
    rfl

theorem runFresh_recording (run : Run) (pointLength : Nat) (profile : Bool) (code : Code) :
    (runFresh (run.recording pointLength profile) code).map Outcome.values =
      (runFresh run code).map Outcome.values := by
  rw [runFresh_answer, runFresh_answer]
  -- Where statements are recorded, the first machine has an empty record and not none.
  let m : Machine := .start run.environment
  let m' : Machine := .start (run.recording pointLength profile).environment
  have hm : m.unrecorded = m'.unrecorded := rfl
  exact (answer_unseeing code m m' hm).1.symm

/-- What comes of a source text: it does not compile, or it fails when it is run, or it leaves its
outcome. -/
def runSource (run : Run) (externals : Bindings Value) (source : String) :
    Except SourceError (Except RunError Outcome) :=
  match Syntax.parse source with
  | .error e => .error (.syntactic e)
  | .ok program =>
    match compile externals program with
    | .error e => .error (.unbound e)
    | .ok code => .ok (runFresh run code)

/-- Recording statements, and the number of points of a curve, change nothing about what comes of a
source text: whether and how it fails to compile, the failure of its run with the calls that were
active, or the values that it leaves. -/
theorem runSource_recording (run : Run) (pointLength : Nat) (profile : Bool)
    (externals : Bindings Value) (source : String) :
    (runSource (run.recording pointLength profile) externals source).map (·.map Outcome.values) =
      (runSource run externals source).map (·.map Outcome.values) := by
  unfold runSource
  cases Syntax.parse source with
  | error e => rfl
  | ok program =>
    dsimp only
    cases compile externals program with
    | error e => rfl
    | ok code =>
      have hvalues := runFresh_recording run pointLength profile code
      exact congrArg Except.ok hvalues

end Evaluation

end Estimation
