import Estimation.Proofs.Chains

/-!
Whatever a run fails with was raised where it stopped: from the point that failed it came to another one,
step by step, that failed by itself, and the trace of the failure tells the calls that were active there.
-/

namespace Estimation

open List

variable {run : Run}

/-- A failure of a point comes from where the run stopped behind it. -/
def Point.FailsBy (run : Run) (P : Point) (e : RunError) : Prop :=
  ∃ Q place, Relation.ReflTransGen (Next run) P Q ∧ Stops run Q place e.failure ∧
    e.trace = traceFrom (Q.calls.map Activation.frame) place

namespace Point.FailsBy

variable {P Q : Point} {e : RunError} {place : Span} {failure : Failure}

theorem here (h : Stops run P place failure) :
    P.FailsBy run ⟨failure, traceFrom (P.calls.map Activation.frame) place⟩ :=
  ⟨P, place, .refl, h, rfl⟩

theorem next (h : Next run P Q) (hQ : Q.FailsBy run e) : P.FailsBy run e := by
  obtain ⟨R, place, hR, hstops, htrace⟩ := hQ
  exact ⟨R, place, .head h hR, hstops, htrace⟩

end Point.FailsBy

namespace Eval

variable {α δ : Type}

theorem error_of_bind {step : Eval Code α} {k : α → Eval Code δ} {m : Machine} {e : RunError}
    (h : ((step >>= k) m).1 = .error e) :
    (step m).1 = .error e ∨ ∃ a m', step m = (.ok a, m') ∧ (k a m').1 = .error e := by
  rcases hstep : step m with ⟨x, m'⟩
  cases x with
  | ok a =>
    rw [bind_ok hstep] at h
    exact .inr ⟨a, m', rfl, h⟩
  | error e' =>
    rw [bind_error hstep] at h
    cases h
    exact .inl rfl

theorem error_of_get {k : Machine → Eval Code δ} {m : Machine} {e : RunError}
    (h : ((get >>= k) m).1 = .error e) : (k m m).1 = .error e := by
  have hget : (get : Eval Code Machine) m = (.ok m, m) := rfl
  rwa [bind_ok hget] at h

theorem pushAll_error {frames : List Frame} {span : Span} {vs : List Value} {m : Machine} {e : RunError}
    (h : (pushAll run frames span vs m).1 = .error e) :
    ∃ v ws, vs = v :: ws ∧ run.limits.stackSize ≤ m.stack.size + ws.length ∧
      e = ⟨.stackSize run.limits.stackSize, traceFrom frames span⟩ := by
  induction vs generalizing m with
  | nil => cases h
  | cons v vs ih =>
    rw [pushAll] at h
    rcases error_of_bind h with h | ⟨_, m', hpush, h⟩
    · rw [push_eq] at h
      split at h
      · next hfull =>
        cases h
        exact ⟨v, vs, rfl, Nat.le_add_right_of_le hfull, rfl⟩
      · cases h
    · rw [push_eq] at hpush
      split at hpush
      · cases hpush
      · cases hpush
        obtain ⟨w, ws, rfl, hfull, he⟩ := ih h
        rw [Array.size_push] at hfull
        exact ⟨v, w :: ws, rfl, by rw [length_cons]; omega, he⟩

theorem draw_error {frames : List Frame} {span : Span} {step : Draw Value} {m : Machine} {e : RunError}
    (h : (draw frames span step m).1 = .error e) :
    ∃ failure, (step m.random).1 = .error failure ∧ e = ⟨failure, traceFrom frames span⟩ := by
  rw [draw] at h
  rcases hstep : step m.random with ⟨x, random⟩
  rw [hstep] at h
  cases x with
  | ok a => cases h
  | error failure =>
    cases h
    exact ⟨failure, rfl, rfl⟩

end Eval

open Evaluation

/-! ### Pieces of code in a row -/

section

variable {call : Caller Code} {ctx : Context Code} {m : Machine} {e : RunError}

theorem captured_error {span : Span} {sources : List Variable}
    (h : (captured ctx span sources m).1 = .error e) : e.failure.isInternal = true := by
  induction sources with
  | nil => cases h
  | cons source sources ih =>
    rw [captured] at h
    replace h := Eval.error_of_get h
    cases hl : lookup? ctx m source with
    | none =>
      rw [hl] at h
      cases h
      cases source <;> rfl
    | some v =>
      rw [hl] at h
      rcases Eval.error_of_bind h with h | ⟨_, _, _, h⟩
      · exact ih h
      · cases h

/-- The first code in a row that fails. -/
theorem evalAll_error {cs : List Code} (h : (evalAll .code run call ctx cs m).1 = .error e) :
    ∃ pre c post vs m', cs = pre ++ c :: post ∧ evalAll .code run call ctx pre m = (.ok vs, m') ∧
      (eval .code run call ctx c m').1 = .error e := by
  induction cs generalizing m with
  | nil =>
    rw [evalAll] at h
    cases h
  | cons c cs ih =>
    rw [evalAll] at h
    rcases Eval.error_of_bind h with h | ⟨v, m', hv, h⟩
    · exact ⟨[], c, cs, [], m, rfl, by rw [evalAll]; rfl, h⟩
    · rcases Eval.error_of_bind h with h | ⟨_, _, _, h⟩
      · obtain ⟨pre, d, post, vs, m'', rfl, hpre, hd⟩ := ih h
        refine ⟨c :: pre, d, post, v :: vs, m'', rfl, ?_, hd⟩
        rw [evalAll, Eval.bind_ok hv, Eval.bind_ok hpre]
        rfl
      · cases h

theorem evalStatements_error {cs : List Code} (h : (evalStatements .code run call ctx cs m).1 = .error e) :
    ∃ pre c post m', cs = pre ++ c :: post ∧ evalStatements .code run call ctx pre m = (.ok (), m') ∧
      (eval .code run call ctx c m').1 = .error e := by
  induction cs generalizing m with
  | nil =>
    rw [evalStatements] at h
    cases h
  | cons c cs ih =>
    rw [evalStatements] at h
    rcases Eval.error_of_bind h with h | ⟨v, m', hv, h⟩
    · exact ⟨[], c, cs, m, rfl, by rw [evalStatements]; rfl, h⟩
    · obtain ⟨pre, d, post, m'', rfl, hpre, hd⟩ := ih h
      refine ⟨c :: pre, d, post, m'', rfl, ?_, hd⟩
      rw [evalStatements, Eval.bind_ok hv, hpre]

theorem evalRecorded_error {cs : List Code} (h : (evalRecorded .code run call ctx cs m).1 = .error e) :
    ∃ pre c post m', cs = pre ++ c :: post ∧ evalRecorded .code run call ctx pre m = (.ok (), m') ∧
      (eval .code run call ctx c m').1 = .error e := by
  induction cs generalizing m with
  | nil =>
    rw [evalRecorded] at h
    cases h
  | cons c cs ih =>
    rw [evalRecorded] at h
    rcases Eval.error_of_bind h with h | ⟨v, m', hv, h⟩
    · exact ⟨[], c, cs, m, rfl, by rw [evalRecorded]; rfl, h⟩
    · rcases Eval.error_of_bind h with h | ⟨_, m₁, hrecord, h⟩
      · cases h
      · obtain ⟨pre, d, post, m'', rfl, hpre, hd⟩ := ih h
        refine ⟨c :: pre, d, post, m'', rfl, ?_, hd⟩
        rw [evalRecorded, Eval.bind_ok hv, Eval.bind_ok hrecord, hpre]

theorem evalEntries_error {es : List (Code × Code)} {done : Bindings Value}
    (h : (evalEntries .code run call ctx done es m).1 = .error e) :
    ∃ pre entry post done' m', es = pre ++ entry :: post ∧
      evalEntries .code run call ctx done pre m = (.ok done', m') ∧
      (evalEntry .code run call ctx entry m').1 = .error e := by
  induction es generalizing done m with
  | nil =>
    rw [evalEntries] at h
    cases h
  | cons entry es ih =>
    rw [evalEntries] at h
    rcases Eval.error_of_bind h with h | ⟨⟨s, v⟩, m', hv, h⟩
    · exact ⟨[], entry, es, done, m, rfl, by rw [evalEntries]; rfl, h⟩
    · obtain ⟨pre, entry', post, done', m'', rfl, hpre, hd⟩ := ih h
      refine ⟨entry :: pre, entry', post, done', m'', rfl, ?_, hd⟩
      rw [evalEntries, Eval.bind_ok hv]
      exact hpre

theorem evalParameters_error {ps : List (CodeParameter Code)}
    (h : (evalParameters .code run call ctx ps m).1 = .error e) :
    ∃ pre p c post qs m', ps = pre ++ ⟨p, some c⟩ :: post ∧
      evalParameters .code run call ctx pre m = (.ok qs, m') ∧
      (evalRange .code run call ctx (some c) m').1 = .error e := by
  induction ps generalizing m with
  | nil =>
    rw [evalParameters] at h
    cases h
  | cons p ps ih =>
    rw [evalParameters] at h
    rcases Eval.error_of_bind h with h | ⟨q, m', hq, h⟩
    · obtain ⟨name, range⟩ := p
      rw [evalParameter] at h
      rcases Eval.error_of_bind h with h | ⟨_, _, _, h⟩
      · cases range with
        | none =>
          rw [evalRange] at h
          cases h
        | some c => exact ⟨[], name, c, ps, [], m, rfl, by rw [evalParameters]; rfl, h⟩
      · cases h
    · rcases Eval.error_of_bind h with h | ⟨_, _, _, h⟩
      · obtain ⟨pre, name, c, post, qs, m'', rfl, hpre, hc⟩ := ih h
        refine ⟨p :: pre, name, c, post, q :: qs, m'', rfl, ?_, hc⟩
        rw [evalParameters, Eval.bind_ok hq, Eval.bind_ok hpre]
        rfl
      · cases h

end

/-! ### Code -/

namespace Code

theorem sizeOf_of_mem_pieces {c d : Code} (h : d ∈ c.pieces) : sizeOf d < sizeOf c := by
  cases c with
  | value | read => cases h
  | block statements result span =>
    rcases mem_append.1 h with h | h
    · have := sizeOf_lt_of_mem h
      simp only [block.sizeOf_spec]
      omega
    · obtain rfl := mem_singleton.1 h
      simp only [block.sizeOf_spec]
      omega
  | program statements result bindings span =>
    rcases mem_append.1 h with h | h
    · have := sizeOf_lt_of_mem h
      simp only [program.sizeOf_spec]
      omega
    · obtain rfl := Option.mem_toList.1 h
      simp only [program.sizeOf_spec, Option.some.sizeOf_spec]
      omega
  | assign name right span =>
    obtain rfl := mem_singleton.1 h
    simp only [assign.sizeOf_spec]
    omega
  | list items span =>
    have : sizeOf d < sizeOf items := sizeOf_lt_of_mem h
    simp only [list.sizeOf_spec]
    omega
  | dict entries span =>
    obtain ⟨⟨key, value⟩, hentry, hd⟩ := mem_flatMap.1 h
    have hlt := sizeOf_lt_of_mem hentry
    simp only [dict.sizeOf_spec]
    simp only [Prod.mk.sizeOf_spec] at hlt
    rcases mem_cons.1 hd with rfl | hd
    · omega
    · obtain rfl := mem_singleton.1 hd
      omega
  | choice condition ifTrue ifFalse span =>
    simp only [pieces, mem_cons, not_mem_nil, or_false] at h
    simp only [choice.sizeOf_spec]
    rcases h with rfl | rfl | rfl <;> omega
  | lambda name parameters captures body span =>
    simp only [lambda.sizeOf_spec]
    rcases mem_append.1 h with h | h
    · obtain ⟨⟨name, range⟩, hp, hrange⟩ := mem_filterMap.1 h
      obtain rfl : range = some d := hrange
      have hlt := sizeOf_lt_of_mem hp
      simp only [CodeParameter.mk.sizeOf_spec, Option.some.sizeOf_spec] at hlt
      omega
    · obtain rfl := mem_singleton.1 h
      omega
  | call callee args span =>
    simp only [call.sizeOf_spec]
    rcases mem_cons.1 h with rfl | h
    · omega
    · have := sizeOf_lt_of_mem h
      omega

end Code

/-- Whatever calls fail with inside of the active calls. -/
def CallsFailBy (run : Run) (calls : List Activation) : Prop :=
  ∀ site argSpans f args m e, (Point.call calls site argSpans f args m).Fails run e →
    e.failure.isInternal = false → (Point.call calls site argSpans f args m).FailsBy run e

/-- By induction on the pieces of the code. -/
theorem eval_fails {scene : Scene} (hcalls : CallsFailBy run scene.calls) (c : Code) {m : Machine}
    {e : RunError} (h : (Point.code scene c m).Fails run e) (he : e.failure.isInternal = false) :
    (Point.code scene c m).FailsBy run e := by
  have ih (d : Code) (hd : d ∈ c.pieces) {m : Machine} (h : (Point.code scene d m).Fails run e) :
      (Point.code scene d m).FailsBy run e :=
    have := Code.sizeOf_of_mem_pieces hd
    eval_fails hcalls d h he
  rw [Point.Fails, Scene.eval] at h
  cases c with
  | value v span =>
    rw [eval] at h
    cases h
  | read source span =>
    rw [eval] at h
    replace h := Eval.error_of_get h
    cases hl : lookup? scene.context m source with
    | none =>
      rw [hl] at h
      cases h
      cases source <;> cases he
    | some v =>
      rw [hl] at h
      cases h
  | block statements result span =>
    rw [eval] at h
    replace h := Eval.error_of_get h
    rcases Eval.error_of_bind (m := m) h with h | ⟨_, m', hs, h⟩
    · obtain ⟨pre, c, post, m', rfl, hpre, hc⟩ := evalStatements_error h
      exact (ih c (by simp [Code.pieces]) hc).next (.statement hpre)
    · exact (ih result (by simp [Code.pieces]) h).next (.blockResult hs)
  | program statements result bindings span =>
    rw [eval] at h
    rcases Eval.error_of_bind h with h | ⟨_, m', hs, h⟩
    · obtain ⟨pre, c, post, m', rfl, hpre, hc⟩ := evalRecorded_error h
      exact (ih c (by simp [Code.pieces]) hc).next (.recorded hpre)
    · cases result with
      | none =>
        rw [evalResult] at h
        cases h
      | some c =>
        rw [evalResult] at h
        rcases Eval.error_of_bind h with h | ⟨_, _, _, h⟩
        · exact (ih c (by simp [Code.pieces]) h).next (.result hs)
        · cases h
  | assign name right span =>
    rw [eval] at h
    rcases Eval.error_of_bind h with h | ⟨v, m', hv, h⟩
    · exact (ih right mem_cons_self h).next .right
    · rcases Eval.error_of_bind h with h | ⟨_, _, _, h⟩
      · rw [Eval.push_eq] at h
        split at h
        · next hfull =>
          cases h
          exact .here (.slots hv hfull)
        · cases h
      · cases h
  | list items span =>
    rw [eval] at h
    rcases Eval.error_of_bind h with h | ⟨_, _, _, h⟩
    · obtain ⟨pre, c, post, vs, m', rfl, hpre, hc⟩ := evalAll_error h
      exact (ih c (by simp [Code.pieces]) hc).next (.item hpre)
    · cases h
  | dict entries span =>
    rw [eval] at h
    rcases Eval.error_of_bind h with h | ⟨_, _, _, h⟩
    · obtain ⟨pre, ⟨key, value⟩, post, es, m', rfl, hpre, h⟩ := evalEntries_error h
      rw [evalEntry] at h
      rcases Eval.error_of_bind h with h | ⟨v, m'', hv, h⟩
      · exact (ih key (by simp [Code.pieces]) h).next (.key hpre)
      · cases v with
        | string s =>
          rcases Eval.error_of_bind h with h | ⟨_, _, _, h⟩
          · exact (ih value (by simp [Code.pieces]) h).next (.value hpre hv)
          · cases h
        | _ =>
          cases h
          exact .here (.key hpre hv (by simp))
    · cases h
  | choice condition ifTrue ifFalse span =>
    rw [eval] at h
    rcases Eval.error_of_bind h with h | ⟨v, m', hv, h⟩
    · exact (ih condition (by simp [Code.pieces]) h).next .condition
    · cases v with
      | bool b =>
        cases b with
        | true => exact (ih ifTrue (by simp [Code.pieces]) h).next (.ifTrue hv)
        | false => exact (ih ifFalse (by simp [Code.pieces]) h).next (.ifFalse hv)
      | _ =>
        cases h
        exact .here (.condition hv (by simp))
  | lambda name parameters captures body span =>
    rw [eval] at h
    rcases Eval.error_of_bind h with h | ⟨vs, m', hvs, h⟩
    · rw [captured_error h] at he
      cases he
    · rcases Eval.error_of_bind h with h | ⟨_, _, _, h⟩
      · obtain ⟨pre, p, c, post, ps, m'', rfl, hpre, h⟩ := evalParameters_error h
        rw [evalRange] at h
        rcases Eval.error_of_bind h with h | ⟨v, m₃, hv, h⟩
        · exact (ih c (by simp [Code.pieces]) h).next (.range hvs hpre)
        · cases hr : Range.ofValue v with
          | ok range =>
            rw [hr] at h
            cases h
          | error failure =>
            rw [hr] at h
            cases h
            exact .here (.range hvs hpre hv hr)
      · cases h
  | call callee args span =>
    rw [eval] at h
    rcases Eval.error_of_bind h with h | ⟨v, m', hv, h⟩
    · exact (ih callee mem_cons_self h).next .callee
    · cases v with
      | lambda f =>
        rcases Eval.error_of_bind h with h | ⟨vs, m'', hvs, h⟩
        · obtain ⟨pre, c, post, vs, m'', rfl, hpre, hc⟩ := evalAll_error h
          exact (ih c (by simp [Code.pieces]) hc).next (.argument hv hpre)
        · exact (hcalls _ _ _ _ _ _ h he).next (.call hv hvs)
      | _ =>
        cases h
        exact .here (.callee hv (by simp))
termination_by sizeOf c

/-! ### Calls -/

section

variable {calls : List Activation} (site : Span) (argSpans : List Span) (args : List Value)

theorem caller_full (h : run.limits.callDepth ≤ calls.length) (f : Lambda) :
    caller run calls (calls.map Activation.frame) site argSpans f args =
      Eval.fail (calls.map Activation.frame) site (.callDepth run.limits.callDepth) := by
  rw [caller, Nat.sub_eq_zero_of_le h]
  rfl

theorem caller_inner (h : calls.length < run.limits.callDepth) (a : Activation) :
    ∃ depth, run.limits.callDepth - calls.length = depth + 1 ∧
      callWith (fun call frames _ => runCode .code run call frames) run depth = caller run (a :: calls) := by
  obtain ⟨depth, hdepth⟩ := Nat.exists_eq_add_of_lt h
  refine ⟨depth, by omega, ?_⟩
  rw [caller, apply, length_cons, hdepth]
  congr 1
  omega

theorem caller_closure (h : calls.length < run.limits.callDepth) (i : Identity) (name : Option String)
    (parameters : List Parameter) (captures : List Value) (c : Code) (span : Span) :
    caller run calls (calls.map Activation.frame) site argSpans (.closure i name parameters captures c span)
      args = (do
        unless args.length = parameters.length do
          Eval.fail (calls.map Activation.frame) site (.arity (.exactly parameters.length) args.length)
        checkRanges (calls.map Activation.frame) site argSpans 0 parameters args
        let inner : List Activation := ⟨.closure i name parameters captures c span, site⟩ :: calls
        runCode .code run (caller run inner) (inner.map Activation.frame) captures c args) := by
  obtain ⟨depth, hdepth, hinner⟩ := caller_inner h ⟨.closure i name parameters captures c span, site⟩
  rw [caller, hdepth, apply, callWith, hinner]
  rfl

theorem caller_native (h : calls.length < run.limits.callDepth) (g : Native) :
    caller run calls (calls.map Activation.frame) site argSpans (.native g) args = (do
        unless g.arity.Accepts args.length do
          Eval.fail (calls.map Activation.frame) site (.arity g.arity args.length)
        let inner : List Activation := ⟨.native g, site⟩ :: calls
        (g.script run.environment args).play (callback run inner site) (inner.map Activation.frame)
          site) := by
  obtain ⟨depth, hdepth, hinner⟩ := caller_inner h ⟨.native g, site⟩
  rw [caller, hdepth, apply, callWith, hinner, ← Native.play_script]
  rfl

end

section

variable (frames : List Frame) (site : Span) (argSpans : List Span) (index : Nat)

theorem checkRanges_cons (p : Parameter) (v : Value) (parameters : List Parameter) (args : List Value)
    (m : Machine) :
    (p.Takes v ∧ checkRanges frames site argSpans index (p :: parameters) (v :: args) m =
      checkRanges frames site argSpans (index + 1) parameters args m) ∨
    ∃ range, p.range = some range ∧ ¬ range.Takes v ∧
      checkRanges frames site argSpans index (p :: parameters) (v :: args) m =
        (.error ⟨.outOfRange index range, traceFrom frames (argSpans.getD index site)⟩, m) := by
  rw [checkRanges]
  cases hrange : p.range with
  | none => exact .inl ⟨fun _ h => (Option.some_ne_none _ (h.symm.trans hrange)).elim, rfl⟩
  | some range =>
    cases v with
    | number x =>
      by_cases hx : range.Contains x
      · refine .inl ⟨fun range' h => ?_, ?_⟩
        · cases hrange.symm.trans h
          exact hx
        · simp only [hx, decide_true]
          rfl
      · refine .inr ⟨range, rfl, hx, ?_⟩
        simp only [hx, decide_false]
        rfl
    | _ => exact .inr ⟨range, rfl, id, rfl⟩

theorem checkRanges_cases {parameters : List Parameter} {args : List Value}
    (hl : args.length = parameters.length) (m : Machine) :
    (checkRanges frames site argSpans index parameters args m = (.ok (), m) ∧
      Forall₂ Parameter.Takes parameters args) ∨
    ∃ pre p post vs v ws range, parameters = pre ++ p :: post ∧ args = vs ++ v :: ws ∧
      Forall₂ Parameter.Takes pre vs ∧ p.range = some range ∧ ¬ range.Takes v ∧
      checkRanges frames site argSpans index parameters args m =
        (.error ⟨.outOfRange (index + pre.length) range,
          traceFrom frames (argSpans.getD (index + pre.length) site)⟩, m) := by
  induction parameters generalizing index args with
  | nil =>
    obtain rfl := length_eq_zero_iff.1 hl
    exact .inl ⟨rfl, .nil⟩
  | cons p parameters ih =>
    cases args with
    | nil => cases hl
    | cons v args =>
      rcases checkRanges_cons frames site argSpans index p v parameters args m with
        ⟨htakes, hrest⟩ | ⟨range, hrange, hnot, herror⟩
      · rw [hrest]
        rcases ih (index + 1) (Nat.succ.inj hl) with
          ⟨hok, hall⟩ | ⟨pre, q, post, vs, w, ws, range, rfl, rfl, hall, hrange, hnot, herror⟩
        · exact .inl ⟨hok, .cons htakes hall⟩
        · refine .inr ⟨p :: pre, q, post, v :: vs, w, ws, range, rfl, rfl, .cons htakes hall, hrange, hnot,
            ?_⟩
          rw [herror, length_cons, Nat.add_right_comm, Nat.add_assoc]
      · exact .inr ⟨[], p, parameters, [], v, args, range, rfl, rfl, .nil, hrange, hnot, herror⟩

end

theorem script_fails {calls : List Activation} {site : Span} (hcalls : CallsFailBy run calls)
    (script : Script Value) {m : Machine} {e : RunError}
    (h : (Point.native calls site script m).Fails run e) (he : e.failure.isInternal = false) :
    (Point.native calls site script m).FailsBy run e := by
  induction script generalizing m with
  | done v => cases h
  | fail failure =>
    cases h
    exact .here .fail
  | draw step next ih =>
    rcases Eval.error_of_bind h with h | ⟨v, m', hv, h⟩
    · obtain ⟨failure, hfailure, rfl⟩ := Eval.draw_error h
      exact .here (.draw hfailure)
    · exact (ih v h).next (.drawn hv)
  | call f args next ih =>
    rcases Eval.error_of_bind h with h | ⟨v, m', hv, h⟩
    · exact (hcalls _ _ _ _ _ _ h he).next .callback
    · exact (ih v h).next (.returned hv)

theorem body_fails {calls : List Activation} (hcalls : CallsFailBy run calls) {captures : List Value}
    {c : Code} {args : List Value} {m : Machine} {e : RunError}
    (h : (Point.body calls captures c args m).Fails run e) (he : e.failure.isInternal = false) :
    (Point.body calls captures c args m).FailsBy run e := by
  rw [Point.Fails, runCode] at h
  replace h := Eval.error_of_get h
  rcases Eval.error_of_bind (m := m) h with h | ⟨_, m', hpush, h⟩
  · obtain ⟨v, vs, rfl, hfull, rfl⟩ := Eval.pushAll_error h
    exact .here (.arguments hfull)
  · have hc : (Point.code ⟨calls, m.stack.size, captures⟩ c m').Fails run e := h
    exact (eval_fails hcalls c hc he).next (.body hpush)

/-- By induction on how many more calls may nest. -/
theorem calls_fail (run : Run) (calls : List Activation) : CallsFailBy run calls := by
  intro site argSpans f args m e h he
  rw [Point.Fails] at h
  by_cases hroom : calls.length < run.limits.callDepth
  · have hinner (a : Activation) : CallsFailBy run (a :: calls) := calls_fail run (a :: calls)
    cases f with
    | closure i name parameters captures c span =>
      rw [caller_closure site argSpans args hroom] at h
      by_cases hl : args.length = parameters.length
      · simp only [hl, ↓reduceIte] at h
        rcases checkRanges_cases (calls.map Activation.frame) site argSpans 0 hl m with
          ⟨hok, hall⟩ | ⟨pre, p, post, vs, v, ws, range, rfl, rfl, hall, hrange, hnot, herror⟩
        · rw [Eval.bind_ok hok] at h
          exact (body_fails (hinner _) h he).next (.enter hroom hall)
        · rw [Eval.bind_error herror] at h
          cases h
          simp only [Nat.zero_add]
          exact .here (.argument hroom hl hall hrange hnot)
      · simp only [hl, ↓reduceIte] at h
        cases h
        exact .here (.arity hroom hl)
    | native g =>
      rw [caller_native site argSpans args hroom] at h
      by_cases hn : g.arity.Accepts args.length
      · simp only [hn, ↓reduceIte] at h
        exact (script_fails (hinner _) _ h he).next (.native hroom hn)
      · simp only [hn, ↓reduceIte] at h
        cases h
        exact .here (.nativeArity hroom hn)
  · rw [caller_full site argSpans args (Nat.not_lt.1 hroom)] at h
    cases h
    exact .here (.depth (Nat.not_lt.1 hroom))
termination_by run.limits.callDepth - calls.length
decreasing_by
  rw [length_cons]
  omega

end Estimation
