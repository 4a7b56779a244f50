import Estimation.Proofs.Chains.Failures

/-!
A run that comes to where it stops fails there, so that there is only one such failure.
-/

namespace Estimation

open List Evaluation

variable {run : Run}

/-! ### Pieces of code in a row -/

section

variable {call : Caller Code} {ctx : Context Code}

theorem evalAll_append (cs ds : List Code) : evalAll .code run call ctx (cs ++ ds) = do
    let vs ← evalAll .code run call ctx cs
    return vs ++ (← evalAll .code run call ctx ds) := by
  induction cs with
  | nil => simp only [nil_append, evalAll, pure_bind, bind_pure]
  | cons c cs ih => simp only [cons_append, evalAll, ih, bind_assoc, pure_bind]

theorem evalStatements_append (cs ds : List Code) : evalStatements .code run call ctx (cs ++ ds) =
    evalStatements .code run call ctx cs >>= fun _ => evalStatements .code run call ctx ds := by
  induction cs with
  | nil => simp only [nil_append, evalStatements, pure_bind]
  | cons c cs ih => simp only [cons_append, evalStatements, ih, bind_assoc]

theorem evalRecorded_append (cs ds : List Code) : evalRecorded .code run call ctx (cs ++ ds) =
    evalRecorded .code run call ctx cs >>= fun _ => evalRecorded .code run call ctx ds := by
  induction cs with
  | nil => simp only [nil_append, evalRecorded, pure_bind]
  | cons c cs ih => simp only [cons_append, evalRecorded, ih, bind_assoc]

theorem evalEntries_append (done : Bindings Value) (es fs : List (Code × Code)) :
    evalEntries .code run call ctx done (es ++ fs) =
      evalEntries .code run call ctx done es >>= fun done => evalEntries .code run call ctx done fs := by
  induction es generalizing done with
  | nil => simp only [nil_append, evalEntries, pure_bind]
  | cons e es ih => simp only [cons_append, evalEntries, ih, bind_assoc]

theorem evalParameters_append (ps qs : List (CodeParameter Code)) :
    evalParameters .code run call ctx (ps ++ qs) = do
      let vs ← evalParameters .code run call ctx ps
      return vs ++ (← evalParameters .code run call ctx qs) := by
  induction ps with
  | nil => simp only [nil_append, evalParameters, pure_bind, bind_pure]
  | cons p ps ih => simp only [cons_append, evalParameters, ih, bind_assoc, pure_bind]

end

namespace Eval

variable {α δ : Type} {step : Eval Code α} {k : α → Eval Code δ} {m m' : Machine} {e : RunError}

theorem fails_bind (h : (step m).1 = .error e) : ((step >>= k) m).1 = .error e := by
  rcases hstep : step m with ⟨x, m'⟩
  rw [hstep] at h
  obtain rfl : x = .error e := h
  rw [bind_error hstep]

theorem fails_of_ok {a : α} (hstep : step m = (.ok a, m')) (h : (k a m').1 = .error e) :
    ((step >>= k) m).1 = .error e := by
  rwa [bind_ok hstep]

theorem fails_of_get {k : Machine → Eval Code δ} (h : (k m m).1 = .error e) :
    ((get >>= k) m).1 = .error e :=
  h

theorem fails_shrinkingTo {size : Nat} (h : (step m).1 = .error e) :
    (shrinkingTo size step m).1 = .error e :=
  h

theorem pushAll_fails {frames : List Frame} {span : Span} {v : Value} {vs : List Value}
    (h : run.limits.stackSize ≤ m.stack.size + vs.length) :
    (pushAll run frames span (v :: vs) m).1 =
      .error ⟨.stackSize run.limits.stackSize, traceFrom frames span⟩ := by
  induction vs generalizing v m with
  | nil =>
    rw [pushAll]
    refine fails_bind ?_
    rw [push_eq, if_pos (by simpa using h)]
  | cons w vs ih =>
    rw [pushAll]
    by_cases hfull : run.limits.stackSize ≤ m.stack.size
    · refine fails_bind ?_
      rw [push_eq, if_pos hfull]
    · have hpush : push run frames span v m = (.ok (), { m with stack := m.stack.push v }) := by
        rw [push_eq, if_neg hfull]
      refine fails_of_ok hpush (ih ?_)
      rw [length_cons] at h
      rw [Array.size_push]
      omega

theorem draw_fails {frames : List Frame} {span : Span} {step : Draw α} {failure : Failure}
    (h : (step m.random).1 = .error failure) :
    (draw frames span step m).1 = .error ⟨failure, traceFrom frames span⟩ := by
  rw [draw]
  rcases hstep : step m.random with ⟨x, random⟩
  rw [hstep] at h
  obtain rfl : x = .error failure := h
  rfl

end Eval

open Eval

theorem checkRanges_takes {frames : List Frame} {site : Span} {argSpans : List Span} {index : Nat}
    {parameters : List Parameter} {args : List Value} (h : Forall₂ Parameter.Takes parameters args)
    (rest : List Parameter) (vs : List Value) (m : Machine) :
    checkRanges frames site argSpans index (parameters ++ rest) (args ++ vs) m =
      checkRanges frames site argSpans (index + parameters.length) rest vs m := by
  induction h generalizing index with
  | nil => rfl
  | @cons p v parameters args hp _ ih =>
    rcases checkRanges_cons frames site argSpans index p v (parameters ++ rest) (args ++ vs) m with
      ⟨-, hrest⟩ | ⟨range, hrange, hnot, -⟩
    · rw [cons_append, cons_append, hrest, ih, length_cons, Nat.add_right_comm, Nat.add_assoc]
    · exact absurd (hp range hrange) hnot

/-- What fails behind a point fails there. -/
theorem Next.fails {P Q : Point} {e : RunError} (h : Next run P Q) (hQ : Q.Fails run e) : P.Fails run e := by
  cases h with
  | statement hs =>
    rw [Point.Fails, Scene.eval, eval]
    refine fails_of_get (fails_shrinkingTo (fails_bind ?_))
    rw [evalStatements_append]
    refine fails_of_ok hs ?_
    rw [evalStatements]
    exact fails_bind hQ
  | blockResult hs =>
    rw [Point.Fails, Scene.eval, eval]
    exact fails_of_get (fails_shrinkingTo (fails_of_ok hs hQ))
  | recorded hs =>
    rw [Point.Fails, Scene.eval, eval]
    refine fails_bind ?_
    rw [evalRecorded_append]
    refine fails_of_ok hs ?_
    rw [evalRecorded]
    exact fails_bind hQ
  | result hs =>
    rw [Point.Fails, Scene.eval, eval]
    refine fails_of_ok hs ?_
    rw [evalResult]
    exact fails_bind hQ
  | right =>
    rw [Point.Fails, Scene.eval, eval]
    exact fails_bind hQ
  | item hs =>
    rw [Point.Fails, Scene.eval, eval]
    refine fails_bind ?_
    rw [evalAll_append]
    refine fails_of_ok hs (fails_bind ?_)
    rw [evalAll]
    exact fails_bind hQ
  | key hs =>
    rw [Point.Fails, Scene.eval, eval]
    refine fails_bind ?_
    rw [evalEntries_append]
    refine fails_of_ok hs ?_
    rw [evalEntries, evalEntry]
    exact fails_bind (fails_bind hQ)
  | value hs hkey =>
    rw [Point.Fails, Scene.eval, eval]
    refine fails_bind ?_
    rw [evalEntries_append]
    refine fails_of_ok hs ?_
    rw [evalEntries, evalEntry]
    exact fails_bind (fails_of_ok hkey (fails_bind hQ))
  | condition =>
    rw [Point.Fails, Scene.eval, eval]
    exact fails_bind hQ
  | ifTrue hc =>
    rw [Point.Fails, Scene.eval, eval]
    exact fails_of_ok hc hQ
  | ifFalse hc =>
    rw [Point.Fails, Scene.eval, eval]
    exact fails_of_ok hc hQ
  | range hvs hps =>
    rw [Point.Fails, Scene.eval, eval]
    refine fails_of_ok hvs (fails_bind ?_)
    rw [evalParameters_append]
    refine fails_of_ok hps (fails_bind ?_)
    rw [evalParameters, evalParameter, evalRange]
    exact fails_bind (fails_bind (fails_bind hQ))
  | callee =>
    rw [Point.Fails, Scene.eval, eval]
    exact fails_bind hQ
  | argument hf hvs =>
    rw [Point.Fails, Scene.eval, eval]
    refine fails_of_ok hf (fails_bind ?_)
    rw [evalAll_append]
    refine fails_of_ok hvs (fails_bind ?_)
    rw [evalAll]
    exact fails_bind hQ
  | call hf hvs =>
    rw [Point.Fails, Scene.eval, eval]
    exact fails_of_ok hf (fails_of_ok hvs hQ)
  | @enter calls site argSpans _ _ _ _ _ _ _ m hroom hall =>
    rw [Point.Fails, caller_closure _ _ _ hroom]
    have hok : checkRanges (calls.map Activation.frame) site argSpans 0 (_ ++ []) (_ ++ []) m = (.ok (), m) :=
      checkRanges_takes hall [] [] m
    rw [append_nil, append_nil] at hok
    simp only [hall.length_eq, ↓reduceIte]
    exact fails_of_ok hok hQ
  | body hpush =>
    rw [Point.Fails, runCode]
    exact fails_of_get (fails_shrinkingTo (fails_of_ok hpush hQ))
  | native hroom hn =>
    rw [Point.Fails, caller_native _ _ _ hroom]
    simp only [hn, ↓reduceIte]
    exact hQ
  | callback => exact fails_bind hQ
  | returned hv => exact fails_of_ok hv hQ
  | drawn hv => exact fails_of_ok hv hQ

theorem Point.Fails.of_path {P Q : Point} {e : RunError} (hQ : Q.Fails run e)
    (h : Relation.ReflTransGen (Next run) P Q) : P.Fails run e := by
  induction h using Relation.ReflTransGen.head_induction_on with
  | refl => exact hQ
  | head hnext _ ih => exact hnext.fails ih

/-- A point where a run stops fails with what it stops with. -/
theorem Stops.fails {P : Point} {place : Span} {failure : Failure} (h : Stops run P place failure) :
    P.Fails run ⟨failure, traceFrom (P.calls.map Activation.frame) place⟩ := by
  cases h with
  | slots hv hfull =>
    rw [Point.Fails, Scene.eval, eval]
    refine fails_of_ok hv (fails_bind ?_)
    rw [push_eq, if_pos hfull]
    rfl
  | key hs hv hnot =>
    rw [Point.Fails, Scene.eval, eval]
    refine fails_bind ?_
    rw [evalEntries_append]
    refine fails_of_ok hs ?_
    rw [evalEntries, evalEntry]
    refine fails_bind (fails_of_ok hv ?_)
    split
    · exact absurd rfl (hnot _)
    · rfl
  | condition hv hnot =>
    rw [Point.Fails, Scene.eval, eval]
    refine fails_of_ok hv ?_
    split
    · exact absurd rfl (hnot _)
    · exact absurd rfl (hnot _)
    · rfl
  | range hvs hps hv hrange =>
    rw [Point.Fails, Scene.eval, eval]
    refine fails_of_ok hvs (fails_bind ?_)
    rw [evalParameters_append]
    refine fails_of_ok hps (fails_bind ?_)
    rw [evalParameters, evalParameter, evalRange]
    refine fails_bind (fails_bind (fails_of_ok hv (fails_bind ?_)))
    rw [hrange]
    rfl
  | callee hv hnot =>
    rw [Point.Fails, Scene.eval, eval]
    refine fails_of_ok hv ?_
    split
    · exact absurd rfl (hnot _)
    · rfl
  | depth hfull =>
    rw [Point.Fails, caller_full _ _ _ hfull]
    rfl
  | arity hroom hl =>
    rw [Point.Fails, caller_closure _ _ _ hroom]
    simp only [hl, ↓reduceIte]
    rfl
  | nativeArity hroom hn =>
    rw [Point.Fails, caller_native _ _ _ hroom]
    simp only [hn, ↓reduceIte]
    rfl
  | @argument calls site argSpans _ _ pre p post _ _ _ _ v ws m range hroom hl hall hrange hnot =>
    rw [Point.Fails, caller_closure site argSpans _ hroom]
    simp only [hl, ↓reduceIte]
    refine fails_bind ?_
    rw [checkRanges_takes hall]
    rcases checkRanges_cons (calls.map Activation.frame) site argSpans (0 + pre.length) p v post ws m with
      ⟨htakes, -⟩ | ⟨range', hrange', -, herror⟩
    · exact absurd (htakes range hrange) hnot
    · rw [herror, Nat.zero_add]
      cases hrange.symm.trans hrange'
      rfl
  | arguments hfull =>
    rw [Point.Fails, runCode]
    exact fails_of_get (fails_shrinkingTo (fails_bind (pushAll_fails hfull)))
  | fail => rfl
  | draw hfailure => exact fails_bind (draw_fails hfailure)

/-- A run from a point fails, in code that is not at fault, just if it comes to where it stops, and with
what it stops with there. -/
theorem Point.fails_iff {P : Point} {e : RunError} (he : e.failure.isInternal = false) :
    P.Fails run e ↔ P.FailsBy run e := by
  constructor
  · intro h
    cases P with
    | code scene c m => exact eval_fails (calls_fail run scene.calls) c h he
    | call calls site argSpans f args m => exact calls_fail run calls site argSpans f args m e h he
    | body calls captures c args m => exact body_fails (calls_fail run calls) h he
    | native calls site rest m => exact script_fails (calls_fail run calls) rest h he
  · rintro ⟨Q, place, hpath, hstops, htrace⟩
    obtain ⟨failure, trace⟩ := e
    obtain rfl : trace = traceFrom (Q.calls.map Activation.frame) place := htrace
    exact hstops.fails.of_path hpath

end Estimation
