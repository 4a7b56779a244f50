import Estimation.Proofs.Alike.Occurrences
import Estimation.Proofs.Meaning

/-!
Compiled code is never at fault. Functions that runs of compiled programs leave have a meaning by
their names, so that a program that uses them has one too; and names are never looked up amiss.
-/

namespace Estimation

open List

/-- Functions of the standard library, and those in what a run of a compiled program leaves, if the
program was given such functions only. -/
inductive Sourced : Lambda → Prop
  | native (f) : Sourced (.native f)
  | left {externals program code run outcome f} :
      (∀ e ∈ externals, ∀ g, Occurs g e.2 → Sourced g) → compile externals program = .ok code →
      Evaluation.runFresh run code = .ok outcome →
      (Occurs f outcome.result ∨ (∃ e ∈ outcome.bindings, Occurs f e.2) ∨
        ∃ e ∈ outcome.exports, Occurs f e.2) →
      Sourced f

/-- Functions that programs left have a meaning by their names. -/
theorem Sourced.agrees {g : Lambda} (h : Sourced g) : ∃ f, Agrees False f g := by
  induction h with
  | native g => exact ⟨.native g, .native g⟩
  | @left externals program code run outcome g _ hc hr hg ih =>
    obtain ⟨ext, he⟩ := entries_alike_of_occurs .native externals ih
    have hends := Naming.runProgram_ends hc he run
    unfold Evaluation.runFresh at hr
    rcases hm : Evaluation.runProgram run code (.start run.environment) with ⟨x, m⟩
    rw [hm] at hr hends
    subst hr
    generalize Naming.evalProgram run _ ext [] [] _ _ = y at hends
    cases hends with
    | ok ho =>
      rcases hg with hg | hg | hg
      · exact hg.alike ho.1.result
      · exact Occurs.alike_entries hg ho.1.bindings
      · exact Occurs.alike_entries hg ho.1.exports

theorem isInternal_of_runFresh {externals : Bindings Value} {program : Syntax.Program} {code : Code}
    (he : ∀ e ∈ externals, ∀ g, Occurs g e.2 → Sourced g)
    (hc : compile externals program = .ok code) (run : Run) {e : RunError}
    (hr : Evaluation.runFresh run code = .error e) : e.failure.isInternal = false := by
  obtain ⟨ext, he⟩ := entries_alike_of_occurs .native externals fun e hm g hg => (he e hm g hg).agrees
  exact Naming.runFresh_faultless hc he run hr

/-- The function that the run of `Naming.shadowing` leaves. -/
def keeper : Lambda :=
  .closure ⟨0, 0⟩ (some "f") [] [.string "old"] (.read (.capture 0) default) default

/-- A call of what a call of `g` gives. -/
def callingTwice : Syntax.Program :=
  ⟨[], [], some (.call (.call (.identifier "g" default) [] default) [] default), default⟩

theorem isInternal_of_calling_twice :
    (∀ e ∈ [("g", ValueOf.lambda keeper)], ∀ g, Occurs g e.2 → Sourced g) ∧
      ∃ code e, compile [("g", .lambda keeper)] callingTwice = .ok code ∧
        Evaluation.runFresh ⟨1, .default, .default⟩ code = .error e ∧
        e.failure.isInternal = false := by
  have hk : ∀ e ∈ [("g", ValueOf.lambda keeper)], ∀ g, Occurs g e.2 → Sourced g := by
    intro e he g hg
    obtain rfl := mem_singleton.1 he
    cases hg with
    | lambda =>
      have hm : ("f", ValueOf.lambda keeper) ∈ [("f", ValueOf.lambda keeper), ("x", .string "new")] :=
        mem_cons_self
      exact @Sourced.left [] Naming.shadowing _ ⟨0, .default, .default⟩ _ _
        (fun _ he => absurd he not_mem_nil) rfl rfl (.inr (.inl ⟨_, hm, .lambda⟩))
  exact ⟨hk, _, _, rfl, rfl,
    @isInternal_of_runFresh _ callingTwice _ hk rfl ⟨1, .default, .default⟩ _ rfl⟩

end Estimation
