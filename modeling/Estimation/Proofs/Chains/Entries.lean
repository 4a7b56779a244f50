import Estimation.Proofs.Chains.Adequacy
import Estimation.Proofs.Layout.Tree
import Estimation.Proofs.Meaning
import Estimation.Proofs.Traces

/-!
The trace of a failure is the chain of the active calls. Wherever a run comes, each of the active calls
was entered from a call expression in the code of the call around it, or by the native function around it.
-/

namespace Estimation

open List Relation

/-- The code that the innermost of the active calls is in, unless it is one of a native function. -/
def home? (program : Code) : List Activation → Option Code
  | [] => some program
  | ⟨.closure _ _ _ _ body _, _⟩ :: _ => some body
  | ⟨.native _, _⟩ :: _ => none

variable {run : Run} {program c d : Code} {P Q R : Point} {a : Activation} {outer calls : List Activation}
  {scene : Scene} {m m' : Machine}

/-- How a run that came to a point entered a call inside of other calls: from a call expression in the code
of the innermost of these, or for the native function that this one is, at the place of its own call. -/
inductive Entered (run : Run) (program : Code) (Q : Point) : Activation → List Activation → Prop
  | expression {scene body callee args site m f vs m'} : home? program scene.calls = some body →
      (Code.call callee args site).PartOf body →
      ReflTransGen (Next run) (.start run program) (.code scene (.call callee args site) m) →
      Next run (.code scene (.call callee args site) m)
        (.call scene.calls site (args.map Code.span) f vs m') →
      ReflTransGen (Next run) (.call scene.calls site (args.map Code.span) f vs m') Q →
      Entered run program Q ⟨f, site⟩ scene.calls
  | callback {g outer site f args next m} :
      ReflTransGen (Next run) (.start run program)
        (.native (⟨.native g, site⟩ :: outer) site (.call f args next) m) →
      ReflTransGen (Next run) (.call (⟨.native g, site⟩ :: outer) site [] f args m) Q →
      Entered run program Q ⟨f, site⟩ (⟨.native g, site⟩ :: outer)

theorem Entered.tail (h : Entered run program Q a outer) (hR : Next run Q R) :
    Entered run program R a outer := by
  cases h with
  | expression hhome hpart hpath hcall hQ => exact .expression hhome hpart hpath hcall (hQ.tail hR)
  | callback hpath hQ => exact .callback hpath (hQ.tail hR)

/-- What is to be done at a point is done for the innermost of the active calls. -/
def Point.StandsIn (run : Run) (program : Code) : Point → Prop
  | .code scene c _ => ∃ body, home? program scene.calls = some body ∧ c.PartOf body
  | .call calls site argSpans f args m =>
    Entered run program (.call calls site argSpans f args m) ⟨f, site⟩ calls
  | .body calls _ c _ _ => home? program calls = some c
  | .native calls site _ _ => ∃ g outer, calls = ⟨.native g, site⟩ :: outer

/-- What holds wherever a run comes. -/
structure Reached (run : Run) (program : Code) (P : Point) : Prop where
  path : ReflTransGen (Next run) (.start run program) P
  depth : P.calls.length ≤ run.limits.callDepth
  entered : ∀ a outer, a :: outer <:+ P.calls → Entered run program P a outer
  stands : P.StandsIn run program

namespace Reached

theorem start (run : Run) (program : Code) : Reached run program (.start run program) where
  path := .refl
  depth := Nat.zero_le _
  entered a outer h := absurd (suffix_nil.1 h) (cons_ne_nil a outer)
  stands := ⟨program, rfl, .self⟩

/-- A step within the same calls. -/
theorem within (h : Reached run program P) (hnext : Next run P Q) (hcalls : Q.calls = P.calls)
    (hstands : Q.StandsIn run program) : Reached run program Q where
  path := h.path.tail hnext
  depth := hcalls ▸ h.depth
  entered a outer hsuffix := (h.entered a outer (hcalls ▸ hsuffix)).tail hnext
  stands := hstands

/-- A step into a call. -/
theorem into (h : Reached run program P) (hnext : Next run P Q) (hcalls : Q.calls = a :: P.calls)
    (hroom : P.calls.length < run.limits.callDepth) (ha : Entered run program P a P.calls)
    (hstands : Q.StandsIn run program) : Reached run program Q where
  path := h.path.tail hnext
  depth := by
    rw [hcalls, length_cons]
    exact hroom
  entered b outer hsuffix := by
    rw [hcalls] at hsuffix
    rcases suffix_cons_iff.1 hsuffix with hb | hsuffix
    · cases hb
      exact ha.tail hnext
    · exact (h.entered b outer hsuffix).tail hnext
  stands := hstands

theorem piece (h : Reached run program (.code scene c m))
    (hnext : Next run (.code scene c m) (.code scene d m')) (hd : d ∈ c.pieces) :
    Reached run program (.code scene d m') := by
  obtain ⟨body, hbody, hc⟩ := h.stands
  exact h.within hnext rfl ⟨body, hbody, (Code.PartOf.of_mem hd).trans hc⟩

theorem next (h : Reached run program P) (hnext : Next run P Q) : Reached run program Q := by
  cases hnext with
  | statement hs => exact h.piece (.statement hs) (by simp [Code.pieces])
  | blockResult hs => exact h.piece (.blockResult hs) (by simp [Code.pieces])
  | recorded hs => exact h.piece (.recorded hs) (by simp [Code.pieces])
  | result hs => exact h.piece (.result hs) (by simp [Code.pieces])
  | right => exact h.piece .right mem_cons_self
  | item hs => exact h.piece (.item hs) (by simp [Code.pieces])
  | key hs => exact h.piece (.key hs) (by simp [Code.pieces])
  | value hs hkey => exact h.piece (.value hs hkey) (by simp [Code.pieces])
  | condition => exact h.piece .condition (by simp [Code.pieces])
  | ifTrue hc => exact h.piece (.ifTrue hc) (by simp [Code.pieces])
  | ifFalse hc => exact h.piece (.ifFalse hc) (by simp [Code.pieces])
  | range hvs hps => exact h.piece (.range hvs hps) (by simp [Code.pieces])
  | callee => exact h.piece .callee mem_cons_self
  | argument hf hvs => exact h.piece (.argument hf hvs) (by simp [Code.pieces])
  | call hf hvs =>
    obtain ⟨body, hbody, hpart⟩ := h.stands
    exact h.within (.call hf hvs) rfl (.expression hbody hpart h.path (.call hf hvs) .refl)
  | enter hroom hall => exact h.into (.enter hroom hall) rfl hroom h.stands rfl
  | body hpush => exact h.within (.body hpush) rfl ⟨_, h.stands, .self⟩
  | native hroom hn => exact h.into (.native hroom hn) rfl hroom h.stands ⟨_, _, rfl⟩
  | callback =>
    obtain ⟨g, outer, rfl⟩ := h.stands
    exact h.within .callback rfl (.callback h.path .refl)
  | returned hv => exact h.within (.returned hv) rfl h.stands
  | drawn hv => exact h.within (.drawn hv) rfl h.stands

theorem of_path (h : ReflTransGen (Next run) (.start run program) Q) : Reached run program Q := by
  induction h with
  | refl => exact .start run program
  | tail _ hnext ih => exact ih.next hnext

end Reached

/-! ### Traces -/

theorem traceFrom_names (calls : List Activation) (place : Span) :
    (traceFrom (calls.map Activation.frame) place).map TraceFrame.name =
      calls.map (fun a => a.function.name) ++ ["<top>"] := by
  induction calls generalizing place with
  | nil => rfl
  | cons a calls ih => exact congrArg (a.function.name :: ·) (ih a.site)

theorem traceFrom_spans (calls : List Activation) (place : Span) :
    (traceFrom (calls.map Activation.frame) place).map TraceFrame.span =
      place :: calls.map Activation.site := by
  induction calls generalizing place with
  | nil => rfl
  | cons a calls ih => exact congrArg (place :: ·) (ih a.site)

/-! ### Programs -/

namespace Evaluation

theorem bindingValues_error {bs : List TopBinding} {bindings exports : Bindings Value} {e : RunError}
    (h : (bindingValues bs bindings exports m).1 = .error e) : e.failure.isInternal = true := by
  induction bs generalizing bindings exports with
  | nil => cases h
  | cons b bs ih =>
    rw [bindingValues] at h
    replace h := Eval.error_of_get h
    cases hv : m.stack[b.slot]? with
    | some v =>
      rw [hv] at h
      exact ih h
    | none =>
      rw [hv] at h
      cases h
      rfl

theorem start_fails {e : RunError} (hr : runFresh run program = .error e)
    (he : e.failure.isInternal = false) : (Point.start run program).Fails run e := by
  rw [runFresh, runProgram] at hr
  rcases Eval.error_of_bind hr with h | ⟨v, m, -, h⟩
  · exact h
  · cases program with
    | program statements result bindings span =>
      rcases Eval.error_of_bind h with h | ⟨p, m', -, h⟩
      · rw [bindingValues_error h] at he
        cases he
      · cases h
    | _ => cases h

theorem runFresh_of_fails {e : RunError} (h : (Point.start run program).Fails run e) :
    runFresh run program = .error e := by
  rw [runFresh, runProgram]
  exact Eval.fails_bind h

end Evaluation

/-- A program fails with what it stops with, wherever it comes to where it stops. -/
theorem runFresh_of_stops {place : Span} {failure : Failure}
    (hpath : ReflTransGen (Next run) (.start run program) Q) (h : Stops run Q place failure) :
    Evaluation.runFresh run program = .error ⟨failure, traceFrom (Q.calls.map Activation.frame) place⟩ :=
  Evaluation.runFresh_of_fails (h.fails.of_path hpath)

/-- The span of a piece of a program. -/
def Syntax.Program.HasSpan (program : Syntax.Program) (span : Span) : Prop :=
  ∃ p, program.Has p ∧ span = p.span

theorem Syntax.Program.placed (program : Syntax.Program) :
    ∀ q ∈ program.pieces, q.Placed program.HasSpan := by
  intro q hq r hr
  refine ⟨r, ?_, rfl⟩
  induction hr with
  | refl => exact .root hq
  | tail _ hs ih => exact .piece ih hs

/-- The trace of an error tells the calls that were active where a run of a program stopped, and the run
stops with no other error. -/
structure CallChain (run : Run) (program : Syntax.Program) (code : Code) (e : RunError) (Q : Point)
    (place : Span) : Prop where
  path : ReflTransGen (Next run) (.start run code) Q
  stops : Stops run Q place e.failure
  names : e.trace.map TraceFrame.name = Q.calls.map (fun a => a.function.name) ++ ["<top>"]
  spans : e.trace.map TraceFrame.span = place :: Q.calls.map Activation.site
  entered : ∀ a outer, a :: outer <:+ Q.calls → Entered run code Q a outer
  length_le : e.trace.length ≤ run.limits.callDepth + 1
  places : ∀ frame ∈ e.trace, program.HasSpan frame.span
  only : ∀ R place' failure, ReflTransGen (Next run) (.start run code) R → Stops run R place' failure →
    e = ⟨failure, traceFrom (R.calls.map Activation.frame) place'⟩

/-- A compiled program that fails came to where it stopped by itself, and the trace is from there. -/
theorem callChain_of_runFresh {program : Syntax.Program} {code : Code} (hc : compile [] program = .ok code)
    (run : Run) {e : RunError} (hr : Evaluation.runFresh run code = .error e) :
    ∃ Q place, CallChain run program code e Q place := by
  have he : e.failure.isInternal = false := Naming.runFresh_faultless hc .nil run hr
  obtain ⟨Q, place, hpath, hstops, htrace⟩ := (Point.fails_iff he).1 (Evaluation.start_fails hr he)
  have hreached := Reached.of_path hpath
  have hspans := traceFrom_spans Q.calls place
  rw [← htrace] at hspans
  refine ⟨Q, place, hpath, hstops, ?_, hspans, hreached.entered, ?_, ?_, ?_⟩
  · rw [htrace, traceFrom_names]
  · rw [← length_map (f := TraceFrame.span), hspans, length_cons, length_map]
    exact Nat.add_le_add_right hreached.depth 1
  · have hnone : ∀ e ∈ ([] : Bindings Value), e.2.Placed program.HasSpan := nofun
    have hcode := compile_placed program.placed hnone
    rw [hc] at hcode
    obtain ⟨statements, result, bindings, rfl, hpieces, hbindings⟩ := hcode
    have hrun := Evaluation.runFresh_placed run (fun _ h => h) hpieces hbindings
    rw [hr] at hrun
    exact hrun.every
  · intro R place' failure hpath' hstops'
    exact Except.error.inj (hr.symm.trans (runFresh_of_stops hpath' hstops'))

namespace Tracing

/-- The span of one character. -/
def mark (n : Nat) : Span := ⟨⟨1, n + 1, n⟩, ⟨1, n + 2, n + 1⟩⟩

open Syntax.Expr in
/-- A function that has each item of a list called by a function of the standard library. -/
def callingEach : Syntax.Program :=
  let callItem := lambda none [⟨"x", mark 0, none⟩] (call (identifier "x" (mark 1)) [] (mark 2)) (mark 3)
  let body := call (identifier "List.map" (mark 4)) [identifier "xs" (mark 5), callItem] (mark 6)
  let f := lambda (some "f") [⟨"xs", mark 7, none⟩] body (mark 8)
  ⟨[], [⟨"f", mark 9, f, false, mark 10⟩],
    some (call (identifier "f" (mark 11)) [list [string "s" (mark 12)] (mark 13)] (mark 14)), mark 15⟩

theorem callChain_of_callingEach : ∃ code e Q place, compile [] callingEach = .ok code ∧
    Evaluation.runFresh ⟨0, .default, .default⟩ code = .error e ∧
    e.trace = [⟨"<anonymous>", mark 1⟩, ⟨"List.map", mark 6⟩, ⟨"f", mark 6⟩, ⟨"<top>", mark 14⟩] ∧
    CallChain ⟨0, .default, .default⟩ callingEach code e Q place := by
  obtain ⟨code, e, hc, hr, htrace⟩ : ∃ code e, compile [] callingEach = .ok code ∧
      Evaluation.runFresh ⟨0, .default, .default⟩ code = .error e ∧
      e.trace = [⟨"<anonymous>", mark 1⟩, ⟨"List.map", mark 6⟩, ⟨"f", mark 6⟩, ⟨"<top>", mark 14⟩] :=
    ⟨_, _, rfl, rfl, rfl⟩
  obtain ⟨Q, place, h⟩ := callChain_of_runFresh hc _ hr
  exact ⟨code, e, Q, place, hc, hr, htrace, h⟩

end Tracing

end Estimation
