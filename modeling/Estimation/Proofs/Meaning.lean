import Estimation.Proofs.Agreement.Programs

/-!
Compiled programs mean what their names mean: they leave the values that evaluation among names
leaves, or fail with its error, as long as they have slots enough.
-/

namespace Estimation

open List

theorem Evaluation.runProgram_program (run : Run) (cs : List Code) (r : Option Code)
    (bs : List TopBinding) (span : Span) : runProgram run (.program cs r bs span) = (do
      evalRecorded .code run (apply run run.limits.callDepth) .top cs
      let v ← evalResult .code run (apply run run.limits.callDepth) .top r
      let p ← bindingValues bs [] []
      let profile ← takeProfile
      return ⟨v, p.1, p.2, profile⟩) := by
  simp only [runProgram, topLevel, eval, bind_assoc]

namespace Naming

variable {foreign : Prop} {externals : Bindings Value} {program : Syntax.Program} {code : Code}

theorem runProgram_ends (hc : compile externals program = .ok code) {ext : Names}
    (he : Forall₂ (EntryAlike (ValueOf.Alike (Agrees foreign))) ext externals) (run : Run) :
    Ends (Allowed foreign) (fun o o' _ _ => OutcomesAlike foreign o o' ∧ True)
      (evalProgram run program.result ext [] [] program.statements (.start run.environment))
      (Evaluation.runProgram run code (.start run.environment)) := by
  obtain ⟨cs, r, hcs, hr, rfl⟩ := compile_lowered hc
  have hh : Holds foreign externals [] [] [] ([].reverse ++ ([] ++ ext)) [] [] :=
    .intro rfl rfl .nil .nil .nil he
  have hb : Bound foreign [] [] [] [] :=
    ⟨fun _ hb => absurd hb not_mem_nil, nodup_nil, .nil, .nil, fun _ => .none, fun _ => .none⟩
  rw [Evaluation.runProgram_program]
  exact evalProgram_simulates (callers_alike run) program.result program.statements hcs hr hh hb
    _ _ ⟨rfl, rfl, rfl, rfl, rfl⟩

/-- Where the functions that it is given have a meaning by names, compiled code is never at fault. -/
theorem runFresh_faultless (hc : compile externals program = .ok code) {ext : Names}
    (he : Forall₂ (EntryAlike (ValueOf.Alike (Agrees False))) ext externals) (run : Run) {e : RunError}
    (hr : Evaluation.runFresh run code = .error e) : e.failure.isInternal = false := by
  have hends := runProgram_ends hc he run
  unfold Evaluation.runFresh at hr
  rcases hm : Evaluation.runProgram run code (.start run.environment) with ⟨x, m⟩
  rw [hm] at hr hends
  subst hr
  generalize evalProgram run _ ext [] [] _ _ = y at hends
  cases hends with
  | error ha => exact ha.resolve_left not_false
  | overflow => rfl

/-- A run of names and a run of code leave alike outcomes, or the same error. -/
inductive EndsAlike : Except RunError Outcome → Except RunError Estimation.Outcome → Prop
  | ok {o o'} : OutcomesAlike True o o' → EndsAlike (.ok o) (.ok o')
  | error (e) : EndsAlike (.error e) (.error e)

theorem runFresh_alike (hc : compile externals program = .ok code) (run : Run)
    (hs : ∀ limit trace, Evaluation.runFresh run code ≠ .error ⟨.stackSize limit, trace⟩) :
    Forall₂ (EntryAlike (ValueOf.Alike (Agrees True))) (mapEntries .code externals) externals ∧
      ∀ ext, Forall₂ (EntryAlike (ValueOf.Alike (Agrees True))) ext externals →
        EndsAlike (runFresh run ext program) (Evaluation.runFresh run code) := by
  refine ⟨mapEntries_alike trivial externals, fun ext he => ?_⟩
  have hends := runProgram_ends hc he run
  unfold Naming.runFresh Evaluation.runFresh at *
  generalize evalProgram run _ ext [] [] _ _ = x at hends
  generalize Evaluation.runProgram run code _ = y at hends hs
  cases hends with
  | ok ho => exact .ok ho.1
  | error _ => exact .error _
  | overflow => exact absurd rfl (hs _ _)

/-- A definition of `x`, a function that returns it, another definition of `x`, and a call of the
function. -/
def shadowing : Syntax.Program :=
  ⟨[], [⟨"x", default, .string "old" default, true, default⟩,
    ⟨"f", default, .lambda (some "f") [] (.identifier "x" default) default, false, default⟩,
    ⟨"x", default, .string "new" default, false, default⟩],
    some (.call (.identifier "f" default) [] default), default⟩

def shadowingCode : Code :=
  .program [.assign "x" (.value (.string "old") default) default,
    .assign "f" (.lambda (some "f") [] [.slot 0] (.read (.capture 0) default) default) default,
    .assign "x" (.value (.string "new") default) default]
    (some (.call (.read (.slot 1) default) [] default))
    [⟨"x", 2, false, default⟩, ⟨"f", 1, false, default⟩] default

theorem runFresh_alike_shadowing :
    compile [] shadowing = .ok shadowingCode ∧
      (∃ o, Evaluation.runFresh ⟨0, .default, .default⟩ shadowingCode = .ok o ∧
        o.result = .string "old") ∧
      EndsAlike (runFresh ⟨0, .default, .default⟩ [] shadowing)
        (Evaluation.runFresh ⟨0, .default, .default⟩ shadowingCode) := by
  have hc : compile [] shadowing = .ok shadowingCode := rfl
  have ho : ∃ o, Evaluation.runFresh ⟨0, .default, .default⟩ shadowingCode = .ok o ∧
      o.result = .string "old" := ⟨_, rfl, rfl⟩
  refine ⟨hc, ho, (runFresh_alike hc ⟨0, .default, .default⟩ ?_).2 [] .nil⟩
  obtain ⟨o, ho, -⟩ := ho
  intro limit trace he
  rw [ho] at he
  cases he

end Naming

end Estimation
