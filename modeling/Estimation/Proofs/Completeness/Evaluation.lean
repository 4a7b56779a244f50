import Estimation.Output
import Estimation.Proofs.Completeness.Library

/-!
What is evaluated comes to complete values: expressions do, and definitions, which come to void, put on
the slots what an expression comes to. So a run leaves void only where the program has no result.
-/

namespace Estimation

open List

open ValueOf (Complete)

namespace Evaluation

theorem lookup?_complete {ctx : Context Code} {m : Machine} (hm : ∀ v ∈ m.stack, v.Complete)
    (hcaptures : ∀ v ∈ ctx.captures, v.Complete) {source : Variable} {v : Value}
    (h : lookup? ctx m source = some v) : v.Complete := by
  cases source with
  | slot n => exact hm v (Array.mem_of_getElem? h)
  | capture n => exact hcaptures v (mem_of_getElem? h)

section

variable {run : Run} {call : Caller Code} {ctx : Context Code}
  (hcaptures : ∀ v ∈ ctx.captures, v.Complete)

include hcaptures in
theorem captured_kept (span : Span) (sources : List Variable) :
    Kept (fun vs => ∀ v ∈ vs, v.Complete) (captured ctx span sources) := by
  induction sources with
  | nil => exact .pure (forall_mem_nil _)
  | cons source sources ih =>
    refine .get fun m hm => ?_
    split
    · next v hv =>
      exact ih.bind fun vs hvs =>
        .pure (forall_mem_cons.2 ⟨lookup?_complete hm hcaptures hv, hvs⟩)
    · exact .fail

variable (hcall : ∀ frames span argSpans f args, Complete (.lambda f) → (∀ v ∈ args, v.Complete) →
    Kept Complete (call frames span argSpans f args))

set_option linter.unusedSectionVars false

include hcaptures hcall

mutual

theorem eval_kept : ∀ code : Code, code.Expression → code.Holds Complete →
    Kept Complete (eval .code run call ctx code)
  | .value _ _, _, h => by
    simp only [eval]
    exact .pure h.value
  | .read _ _, _, _ => by
    simp only [eval]
    refine .get fun m hm => ?_
    split
    · next v hv => exact .pure (lookup?_complete hm hcaptures hv)
    · exact .fail
  | .block statements result _, he, h => by
    obtain ⟨hstatements, hresult⟩ : (∀ c ∈ statements, c.Statement) ∧ result.Expression := by
      cases he
      exact ⟨‹_›, ‹_›⟩
    simp only [eval]
    exact .get fun _ _ => .shrinkingTo ((evalStatements_kept statements hstatements fun c hc =>
      h.piece (mem_append_left _ hc)).bind fun _ _ =>
        eval_kept result hresult (h.piece (mem_append_right _ mem_cons_self))) _
  | .program _ _ _ _, he, _ => nomatch he
  | .assign _ _ _, he, _ => nomatch he
  | .list items _, he, h => by
    have hitems : ∀ c ∈ items, c.Expression := by
      cases he
      assumption
    simp only [eval]
    exact (evalAll_kept items hitems fun _ hc => h.piece hc).bind fun _ hvs => .pure (.list hvs)
  | .dict entries _, he, h => by
    have hentries : ∀ e ∈ entries, e.1.Expression ∧ e.2.Expression := by
      cases he with
      | dict _ hkeys hvalues => exact fun e he => ⟨hkeys e he, hvalues e he⟩
    simp only [eval]
    exact (evalEntries_kept entries hentries (fun _ hc => h.piece hc) (forall_mem_nil _)).bind
      fun _ hes => .pure (.dict hes)
  | .choice condition ifTrue ifFalse _, he, h => by
    obtain ⟨hcondition, htrue, hfalse⟩ :
        condition.Expression ∧ ifTrue.Expression ∧ ifFalse.Expression := by
      cases he
      exact ⟨‹_›, ‹_›, ‹_›⟩
    simp only [eval]
    refine (eval_kept condition hcondition (h.piece mem_cons_self)).bind fun v _ => ?_
    split
    · exact eval_kept ifTrue htrue (h.piece (mem_cons_of_mem _ mem_cons_self))
    · exact eval_kept ifFalse hfalse (h.piece (mem_cons_of_mem _ (mem_cons_of_mem _ mem_cons_self)))
    · exact .fail
  | .lambda name parameters captures body span, he, h => by
    obtain ⟨hparameters, hbody⟩ :
        (∀ p ∈ parameters, ∀ c ∈ p.range, c.Expression) ∧ body.Expression := by
      cases he
      exact ⟨‹_›, ‹_›⟩
    simp only [eval]
    refine (captured_kept hcaptures span captures).bind fun vs hvs =>
      (evalParameters_kept parameters hparameters fun c hc => h.piece (mem_append_left _ hc)).bind
        fun ps _ => Kept.bind (P := fun _ => True) (.silent fun _ => rfl) fun identity _ => .pure ?_
    exact .closure hvs hbody (h.piece (mem_append_right _ mem_cons_self)) identity name ps span
  | .call callee args _, he, h => by
    obtain ⟨hcallee, hargs⟩ : callee.Expression ∧ ∀ c ∈ args, c.Expression := by
      cases he
      exact ⟨‹_›, ‹_›⟩
    simp only [eval]
    refine (eval_kept callee hcallee (h.piece mem_cons_self)).bind fun v hv => ?_
    split
    · exact (evalAll_kept args hargs fun c hc => h.piece (mem_cons_of_mem _ hc)).bind fun vs hvs =>
        hcall _ _ _ _ _ hv hvs
    · exact .fail

/-- A definition comes to void, and puts a complete value on the slots. -/
theorem evalStatement_kept : ∀ code : Code, code.Statement → code.Holds Complete →
    Kept (fun _ => True) (eval .code run call ctx code)
  | .assign _ right _, hs, h => by
    have hright : right.Expression := by
      cases hs
      assumption
    simp only [eval]
    exact (eval_kept right hright (h.piece mem_cons_self)).bind fun _ hv =>
      (Kept.push hv).bind fun _ _ => .pure trivial
  | .value _ _, hs, _ => nomatch hs
  | .read _ _, hs, _ => nomatch hs
  | .block _ _ _, hs, _ => nomatch hs
  | .program _ _ _ _, hs, _ => nomatch hs
  | .list _ _, hs, _ => nomatch hs
  | .dict _ _, hs, _ => nomatch hs
  | .choice _ _ _ _, hs, _ => nomatch hs
  | .lambda _ _ _ _ _, hs, _ => nomatch hs
  | .call _ _ _, hs, _ => nomatch hs

theorem evalAll_kept : ∀ codes : List Code, (∀ c ∈ codes, c.Expression) →
    (∀ c ∈ codes, c.Holds Complete) →
    Kept (fun vs => ∀ v ∈ vs, v.Complete) (evalAll .code run call ctx codes)
  | [], _, _ => by
    simp only [evalAll]
    exact .pure (forall_mem_nil _)
  | code :: rest, he, h => by
    simp only [evalAll]
    obtain ⟨hcode, hrest⟩ := forall_mem_cons.1 he
    obtain ⟨hvalues, hvalues'⟩ := forall_mem_cons.1 h
    exact (eval_kept code hcode hvalues).bind fun _ hv =>
      (evalAll_kept rest hrest hvalues').bind fun _ hvs => .pure (forall_mem_cons.2 ⟨hv, hvs⟩)

theorem evalStatements_kept : ∀ codes : List Code, (∀ c ∈ codes, c.Statement) →
    (∀ c ∈ codes, c.Holds Complete) →
    Kept (fun _ => True) (evalStatements .code run call ctx codes)
  | [], _, _ => by
    simp only [evalStatements]
    exact .pure trivial
  | code :: rest, hs, h => by
    simp only [evalStatements]
    obtain ⟨hcode, hrest⟩ := forall_mem_cons.1 hs
    obtain ⟨hvalues, hvalues'⟩ := forall_mem_cons.1 h
    exact (evalStatement_kept code hcode hvalues).bind fun _ _ =>
      evalStatements_kept rest hrest hvalues'

theorem evalEntries_kept : ∀ (entries : List (Code × Code)) {done : Bindings Value},
    (∀ e ∈ entries, e.1.Expression ∧ e.2.Expression) →
    (∀ c ∈ entries.flatMap fun e => [e.1, e.2], c.Holds Complete) → (∀ e ∈ done, e.2.Complete) →
    Kept (fun es => ∀ e ∈ es, e.2.Complete) (evalEntries .code run call ctx done entries)
  | [], _, _, _, hdone => by
    simp only [evalEntries]
    exact .pure hdone
  | entry :: rest, _, he, h, hdone => by
    simp only [evalEntries]
    rw [flatMap_cons] at h
    obtain ⟨hentry, hrest⟩ := forall_mem_cons.1 he
    obtain ⟨hvalues, hvalues'⟩ := forall_mem_append.1 h
    exact (evalEntry_kept entry hentry hvalues).bind fun _ hv =>
      evalEntries_kept rest hrest hvalues' (Bindings.forall_insert hv hdone)

theorem evalEntry_kept : ∀ entry : Code × Code, entry.1.Expression ∧ entry.2.Expression →
    (∀ c ∈ [entry.1, entry.2], c.Holds Complete) →
    Kept (fun e => e.2.Complete) (evalEntry .code run call ctx entry)
  | (key, value), ⟨hkey, hvalue⟩, h => by
    simp only [evalEntry]
    obtain ⟨hkeys, hvalues⟩ := forall_mem_cons.1 h
    refine (eval_kept key hkey hkeys).bind fun v _ => ?_
    split
    · exact (eval_kept value hvalue (hvalues _ mem_cons_self)).bind fun _ hv => .pure hv
    · exact .fail

theorem evalParameters_kept : ∀ parameters : List (CodeParameter Code),
    (∀ p ∈ parameters, ∀ c ∈ p.range, c.Expression) →
    (∀ c ∈ parameters.filterMap CodeParameter.range, c.Holds Complete) →
    Kept (fun _ => True) (evalParameters .code run call ctx parameters)
  | [], _, _ => by
    simp only [evalParameters]
    exact .pure trivial
  | p :: ps, he, h => by
    simp only [evalParameters]
    obtain ⟨hp, hps⟩ := forall_mem_cons.1 he
    refine (evalParameter_kept p hp fun c hc => h c ?_).bind fun _ _ =>
      (evalParameters_kept ps hps fun c hc => h c ?_).bind fun _ _ => .pure trivial
    · exact mem_filterMap.2 ⟨p, mem_cons_self, hc⟩
    · obtain ⟨q, hq, hc⟩ := mem_filterMap.1 hc
      exact mem_filterMap.2 ⟨q, mem_cons_of_mem _ hq, hc⟩

theorem evalParameter_kept : ∀ p : CodeParameter Code, (∀ c ∈ p.range, c.Expression) →
    (∀ c ∈ p.range, c.Holds Complete) → Kept (fun _ => True) (evalParameter .code run call ctx p)
  | ⟨_, none⟩, _, _ => by
    simp only [evalParameter, evalRange]
    exact Kept.bind (P := fun _ => True) (.pure trivial) fun _ _ => .pure trivial
  | ⟨_, some code⟩, he, h => by
    simp only [evalParameter, evalRange]
    refine Kept.bind (P := fun _ => True) ((eval_kept code (he code rfl) (h code rfl)).bind fun v _ =>
      (Kept.ofExcept (P := fun _ => True) ?_).bind fun _ _ => .pure trivial) fun _ _ => .pure trivial
    cases Range.ofValue v <;> trivial

end

theorem evalRecorded_kept (codes : List Code) (hs : ∀ c ∈ codes, c.Statement)
    (h : ∀ c ∈ codes, c.Holds Complete) :
    Kept (fun _ => True) (evalRecorded .code run call ctx codes) := by
  induction codes with
  | nil =>
    simp only [evalRecorded]
    exact .pure trivial
  | cons code rest ih =>
    simp only [evalRecorded]
    obtain ⟨hcode, hrest⟩ := forall_mem_cons.1 hs
    obtain ⟨hvalues, hvalues'⟩ := forall_mem_cons.1 h
    exact (evalStatement_kept hcaptures hcall code hcode hvalues).bind fun _ _ =>
      Kept.bind (P := fun _ => True) (.silent fun _ => rfl) fun _ _ => ih hrest hvalues'

/-- Without a result the value is void, and complete otherwise. -/
theorem evalResult_kept (code : Option Code) (he : ∀ c, code = some c → c.Expression)
    (h : ∀ c, code = some c → c.Holds Complete) :
    Kept (fun v => if code = none then v = .void else v.Complete)
      (evalResult .code run call ctx code) := by
  cases code with
  | none =>
    simp only [evalResult]
    exact .pure rfl
  | some code =>
    simp only [evalResult]
    exact (eval_kept hcaptures hcall code (he code rfl) (h code rfl)).bind fun _ hv =>
      Kept.bind (P := fun _ => True) (.silent fun _ => rfl) fun _ _ => .pure hv

end

theorem checkRanges_kept {frames : List Frame} {span : Span} {argSpans : List Span}
    (parameters : List Parameter) (index : Nat) (args : List Value) : Kept (fun _ => True)
      (checkRanges (β := Code) frames span argSpans index parameters args) := by
  induction parameters generalizing index args with
  | nil => exact .pure trivial
  | cons p parameters ih =>
    cases args with
    | nil => exact .pure trivial
    | cons v args =>
      unfold checkRanges
      cases p.range with
      | none => exact ih _ _
      | some range =>
        cases v with
        | number x =>
          by_cases hx : range.Contains x
          · simp only [hx, decide_true, ↓reduceIte]
            exact ih _ _
          · simp only [hx, decide_false]
            exact Kept.bind (P := fun _ => True) .fail fun _ _ => ih _ _
        | _ => exact Kept.bind (P := fun _ => True) .fail fun _ _ => ih _ _

theorem runCode_kept {run : Run} {call : Caller Code} {frames : List Frame}
    (hcall : ∀ frames span argSpans f args, Complete (.lambda f) → (∀ v ∈ args, v.Complete) →
      Kept Complete (call frames span argSpans f args))
    {captures args : List Value} (hcaptures : ∀ v ∈ captures, v.Complete) {body : Code}
    (hbody : body.Expression) (hvalues : body.Holds Complete) (hargs : ∀ v ∈ args, v.Complete) :
    Kept Complete (runCode .code run call frames captures body args) :=
  .get fun m _ =>
    let ctx : Context Code := ⟨frames, m.stack.size, captures⟩
    have heval : Kept Complete (eval .code run call ctx body) :=
      eval_kept hcaptures hcall body hbody hvalues
    .shrinkingTo ((Kept.pushAll hargs).bind fun _ _ => heval) _

/-- A call of a complete function with complete arguments comes to a complete value. -/
theorem apply_kept (run : Run) (depth : Nat) (frames : List Frame) (span : Span) (argSpans : List Span)
    (f : Lambda) (args : List Value) (hf : Complete (.lambda f)) (hargs : ∀ v ∈ args, v.Complete) :
    Kept Complete (apply run depth frames span argSpans f args) := by
  unfold apply
  induction depth generalizing frames span argSpans f args with
  | zero => exact .fail
  | succ depth ih =>
    cases f with
    | closure identity name parameters captures body place =>
      have hcaptures (v : Value) (hv : v ∈ captures) : v.Complete := hf.of_within (.captured hv .self)
      have hvalues : body.Holds Complete := fun v place hv => hf.of_within (.constant hv .self)
      have hbody : body.Expression := hf _ .self
      simp only [callWith]
      split
      · exact (checkRanges_kept parameters 0 args).bind fun _ _ =>
          runCode_kept ih hcaptures hbody hvalues hargs
      · exact Kept.bind (P := fun _ => False) .fail fun _ h => h.elim
    | native g =>
      simp only [callWith]
      split
      · exact Native.run_kept (fun _ _ hf hvs => ih _ _ _ _ _ hf hvs) g hargs
      · exact Kept.bind (P := fun _ => False) .fail fun _ h => h.elim

theorem bindingValues_kept {bs : List TopBinding} {bindings exports : Bindings Value}
    (hbindings : ∀ e ∈ bindings, e.2.Complete) (hexports : ∀ e ∈ exports, e.2.Complete) :
    Kept (fun p => (∀ e ∈ p.1, e.2.Complete) ∧ ∀ e ∈ p.2, e.2.Complete)
      (bindingValues bs bindings exports) := by
  induction bs generalizing bindings exports with
  | nil => exact .pure ⟨hbindings, hexports⟩
  | cons b bs ih =>
    simp only [bindingValues]
    refine .get fun m hm => ?_
    split
    · next v hv =>
      have hv := hm v (Array.mem_of_getElem? hv)
      refine ih (Bindings.forall_insert hv hbindings) ?_
      split
      · exact Bindings.forall_insert hv hexports
      · exact hexports
    · exact .fail

end Evaluation

/-- What a program leaves is complete, unless it has no result. -/
structure Outcome.Complete (o : Outcome) : Prop where
  result : o.result ≠ .void → o.result.Complete
  bindings : ∀ e ∈ o.bindings, e.2.Complete
  exports : ∀ e ∈ o.exports, e.2.Complete

namespace Evaluation

theorem topLevel_kept {run : Run} {cs : List Code} {r : Option Code} {bindings : List TopBinding}
    {span : Span} (hcs : ∀ c ∈ cs, c.Statement ∧ c.Holds Complete)
    (hr : ∀ c, r = some c → c.Expression ∧ c.Holds Complete) :
    Kept (fun v => if r = none then v = .void else v.Complete)
      (topLevel run (.program cs r bindings span)) := by
  have hcall := apply_kept run run.limits.callDepth
  have hnone : ∀ v ∈ (Context.top (β := Code)).captures, v.Complete := forall_mem_nil _
  unfold topLevel
  simp only [eval]
  exact (evalRecorded_kept hnone hcall cs (fun c hc => (hcs c hc).1) fun c hc => (hcs c hc).2).bind
    fun _ _ => evalResult_kept hnone hcall r (fun c hc => (hr c hc).1) fun c hc => (hr c hc).2

theorem runFresh_meets {externals : Bindings Value} (hexternals : ∀ e ∈ externals, e.2.Complete)
    {program : Syntax.Program} {code : Code} (hcode : compile externals program = .ok code) (run : Run) :
    Meets (fun _ => True) (fun o => (o.result = .void ↔ program.result = none) ∧ o.Complete)
      (runFresh run code) := by
  have hsupplied : Supplied Complete externals := ⟨.number, .string, .bool, .native, hexternals⟩
  obtain ⟨cs, r, bindings, rfl, hcs, hr, hresult⟩ := compile_holds hsupplied hcode
  have hrun : Kept (fun o : Outcome => (o.result = .void ↔ program.result = none) ∧ o.Complete)
      (runProgram run (.program cs r bindings program.span)) := by
    refine (topLevel_kept hcs hr).bind fun v hv =>
      (bindingValues_kept (forall_mem_nil _) (forall_mem_nil _)).bind fun p hp =>
        Kept.bind (P := fun _ => True) (.silent fun _ => rfl) fun _ _ => .pure ?_
    rw [← hresult]
    split at hv
    · next hnone => exact ⟨by simp [hv, hnone], fun h => absurd hv h, hp.1, hp.2⟩
    · next hsome => exact ⟨by simp [hv.ne_void, hsome], fun _ => hv, hp.1, hp.2⟩
  exact (hrun (.start run.environment) fun v hv => absurd hv (Array.not_mem_empty v)).1

/-- Only a result that a program does not have is void: where nothing in the external values is void,
nothing in what a run leaves is, nor in the external values of programs that go on from it or import it. -/
theorem runFresh_complete {externals : Bindings Value} (hexternals : ∀ e ∈ externals, e.2.Complete)
    {program : Syntax.Program} {code : Code} (hcode : compile externals program = .ok code) {run : Run}
    {outcome : Outcome} (hrun : runFresh run code = .ok outcome) :
    (outcome.result = .void ↔ program.result = none) ∧ outcome.Complete ∧
      ∀ others : Bindings Value, (∀ e ∈ others, e.2.Complete) →
        (∀ e ∈ others.merge outcome.bindings, e.2.Complete) ∧
          ∀ name, ∀ e ∈ others.insert name (.dict outcome.exports), e.2.Complete := by
  have hmeets := runFresh_meets hexternals hcode run
  rw [hrun] at hmeets
  obtain ⟨hresult, hcomplete⟩ := hmeets
  exact ⟨hresult, hcomplete, fun others hothers => ⟨Bindings.forall_merge hothers hcomplete.bindings,
    fun name => Bindings.forall_insert (.dict hcomplete.exports) hothers⟩⟩

/-- `export a = [g()]`, with nothing behind it. -/
def keeping : Syntax.Program :=
  ⟨[], [⟨"a", default, .list [.call (.identifier "g" default) [] default] default, true, default⟩], none,
    default⟩

/-- A function that gives what it captured. -/
def giving : Bindings Value :=
  [("g", .lambda (.closure ⟨0, 0⟩ (some "f") [] [.string "old"] (.read (.capture 0) default) default))]

theorem giving_complete : ∀ e ∈ giving, e.2.Complete := by
  refine forall_mem_singleton.2 (.closure ?_ (.read _ _) (.node nofun nofun) _ _ _ _)
  exact forall_mem_singleton.2 (.string _)

theorem runFresh_keeping : (∀ e ∈ giving, e.2.Complete) ∧ ∃ code outcome,
    compile giving keeping = .ok code ∧ runFresh ⟨1, .default, .default⟩ code = .ok outcome ∧
      (outcome.result = .void ↔ keeping.result = none) ∧ outcome.Complete ∧
      ∀ others : Bindings Value, (∀ e ∈ others, e.2.Complete) →
        (∀ e ∈ others.merge outcome.bindings, e.2.Complete) ∧
          ∀ name, ∀ e ∈ others.insert name (.dict outcome.exports), e.2.Complete :=
  ⟨giving_complete, _, _, rfl, rfl,
    @runFresh_complete giving giving_complete keeping _ rfl ⟨1, .default, .default⟩ _ rfl⟩

end Evaluation

/-! ### Modules -/

/-- What a module offers to others is complete. -/
def Success.Complete (s : Success) : Prop :=
  (∀ e ∈ s.bindings, e.2.Complete) ∧ ∀ e ∈ s.exports, e.2.Complete

def Output.Complete (o : Output) : Prop := Meets (fun _ => True) Success.Complete o.result

namespace Module

variable {imports : List (Import × ImportOutcome)}

/-- External values from complete outputs are complete. -/
theorem gather_complete (himports : ∀ i ∈ imports, ∀ o, i.2 = .ready o → o.Complete)
    {externals named : Bindings Value} (hexternals : ∀ e ∈ externals, e.2.Complete) :
    Meets (fun _ => True) (fun p => ∀ e ∈ p.1, e.2.Complete) (gather imports externals named) := by
  induction imports generalizing externals named with
  | nil => exact hexternals
  | cons first rest ih =>
    obtain ⟨i, outcome⟩ := first
    obtain ⟨hfirst, hrest⟩ := forall_mem_cons.1 himports
    have hsuccess : Meets (fun _ => True) Success.Complete (importedBy i outcome) := by
      cases outcome with
      | failed e => trivial
      | ready o => exact (hfirst o rfl).mapError fun _ _ => trivial
    refine hsuccess.bind fun s hs => ?_
    cases i.form with
    | continued => exact ih hrest (Bindings.forall_merge hexternals hs.1)
    | named name => exact ih hrest (Bindings.forall_insert (.dict hs.2) hexternals)

end Module

/-- A module whose imports are complete has a complete output. -/
theorem Output.make_complete (name : String) (m : Module) (run : Run)
    {imports : List (Import × ImportOutcome)}
    (himports : ∀ i ∈ imports, ∀ o, i.2 = .ready o → o.Complete) : (make name m run imports).Complete := by
  have hrunnable : Meets (fun _ => True) (fun r : Runnable => ∀ e ∈ r.externals, e.2.Complete)
      (m.runnable imports) := by
    refine (Module.gather_complete himports (forall_mem_nil _)).bind fun p hp => ?_
    cases m.program with
    | error e => trivial
    | ok program => exact hp
  refine hrunnable.bind fun r hr => ?_
  unfold Runnable.success Runnable.outcome
  cases hcode : compile r.externals r.program with
  | error e => trivial
  | ok code =>
    have hmeets := Evaluation.runFresh_meets hr hcode run
    change Meets _ _ (Except.map _ (Except.mapError _ (Evaluation.runFresh run code)))
    cases hrun : Evaluation.runFresh run code with
    | error e => trivial
    | ok o =>
      rw [hrun] at hmeets
      exact ⟨hmeets.2.bindings, hmeets.2.exports⟩

end Estimation
