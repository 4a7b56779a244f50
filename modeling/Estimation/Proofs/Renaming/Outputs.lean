import Estimation.Output
import Estimation.Proofs.Renaming

/-!
A module whose imports bring the same comes to the same, but for the identities of functions: it
gathers alike external values, and is run with these.
-/

namespace Estimation

open List

/-- Lists that agree in some way are related if elements that do are. -/
theorem forall₂_of_map {α β γ : Type} {f : α → γ} {g : β → γ} {S : α → β → Prop} {xs : List α}
    {ys : List β} (h : xs.map f = ys.map g) (hS : ∀ a ∈ xs, ∀ b ∈ ys, f a = g b → S a b) :
    Forall₂ S xs ys := by
  induction xs generalizing ys with
  | nil =>
    cases ys with
    | nil => exact .nil
    | cons y ys => cases h
  | cons x xs ih =>
    cases ys with
    | nil => cases h
    | cons y ys =>
      obtain ⟨hxy, hrest⟩ := cons.inj h
      exact .cons (hS x mem_cons_self y mem_cons_self hxy)
        (ih hrest fun a ha b hb => hS a (mem_cons_of_mem _ ha) b (mem_cons_of_mem _ hb))

/-- What two modules offer is the same but for the identities of closures in it. -/
structure SuccessesRenamed (I : Identity → Identity → Prop) (s s' : Success) : Prop where
  result : ValueOf.Alike (Renamed I) s.result s'.result
  bindings : Forall₂ (EntryAlike (ValueOf.Alike (Renamed I))) s.bindings s'.bindings
  imports : Forall₂ (EntryAlike (ValueOf.Alike (Renamed I))) s.imports s'.imports
  exports : Forall₂ (EntryAlike (ValueOf.Alike (Renamed I))) s.exports s'.exports

/-- The records of the runs are the same too. -/
structure SuccessesRecorded (I : Identity → Identity → Prop) (s s' : Success) : Prop
    extends SuccessesRenamed I s s' where
  profile : s.profile = s'.profile

/-- Imports that bring the same, in the same form. -/
structure BroughtAlike (I : Identity → Identity → Prop) (a b : Import × ImportOutcome) : Prop where
  form : a.1.form = b.1.form
  brought : Parallel (SuccessesRenamed I) (Module.importedBy a.1 a.2) (Module.importedBy b.1 b.2)

structure RunnablesRenamed (I : Identity → Identity → Prop) (r r' : Runnable) : Prop where
  program : r.program = r'.program
  externals : Forall₂ (EntryAlike (ValueOf.Alike (Renamed I))) r.externals r'.externals
  imports : Forall₂ (EntryAlike (ValueOf.Alike (Renamed I))) r.imports r'.imports

variable {I : Identity → Identity → Prop} {name : String} {m : Module} {run run' : Run}
  {outcomes outcomes' : List (Import × ImportOutcome)}

namespace BroughtAlike

variable {i j : Import} {o o' : Output} {s s' : Success}

theorem of_ok (hform : i.form = j.form) (ho : o.result = .ok s) (ho' : o'.result = .ok s')
    (hs : SuccessesRenamed I s s') : BroughtAlike I (i, .ready o) (j, .ready o') where
  form := hform
  brought := by
    rw [Module.importedBy, Module.importedBy, ho, ho']
    exact .ok hs

theorem of_parallel (h : Parallel (SuccessesRenamed I) o.result o'.result) :
    BroughtAlike I (i, .ready o) (i, .ready o') where
  form := rfl
  brought := h.mapError _

theorem failed (i : Import) (e : LinkError) : BroughtAlike I (i, .failed e) (i, .failed e) where
  form := rfl
  brought := .error _

end BroughtAlike

namespace Module

theorem gather_renamed (h : Forall₂ (BroughtAlike I) outcomes outcomes')
    {externals externals' named named' : Bindings Value}
    (he : Forall₂ (EntryAlike (ValueOf.Alike (Renamed I))) externals externals')
    (hn : Forall₂ (EntryAlike (ValueOf.Alike (Renamed I))) named named') :
    Parallel (fun r r' => Forall₂ (EntryAlike (ValueOf.Alike (Renamed I))) r.1 r'.1 ∧
        Forall₂ (EntryAlike (ValueOf.Alike (Renamed I))) r.2 r'.2)
      (gather outcomes externals named) (gather outcomes' externals' named') := by
  induction h generalizing externals externals' named named' with
  | nil => exact .ok ⟨he, hn⟩
  | @cons a b _ _ hb _ ih =>
    rw [gather, gather, hb.form]
    refine hb.brought.bind fun s s' hs => ?_
    cases b.1.form with
    | continued => exact ih (Bindings.merge_alike he hs.bindings) hn
    | named name =>
      have hexports := ValueOf.Alike.dict hs.exports
      exact ih (Bindings.insert_alike name hexports he) (Bindings.insert_alike name hexports hn)

theorem runnable_renamed (h : Forall₂ (BroughtAlike I) outcomes outcomes') :
    Parallel (RunnablesRenamed I) (m.runnable outcomes) (m.runnable outcomes') := by
  refine (gather_renamed h .nil .nil).bind fun r r' hr => ?_
  refine ((Parallel.refl m.program).mapError _).bind fun program _ hp => ?_
  exact .ok ⟨hp, hr.1, hr.2⟩

end Module

namespace Runnable

variable {r r' : Runnable}

section

variable (hone : OneToOne I) (hI : ∀ n, I ⟨run.origin, n⟩ ⟨run'.origin, n⟩)
  (hlimits : run.limits = run'.limits) (henv : run.environment = run'.environment)
  (h : RunnablesRenamed I r r')

include hone hI hlimits henv h

theorem outcome_renamed :
    Parallel (Evaluation.OutcomesRenamed I) (r.outcome run) (r'.outcome run') := by
  have hcompile := compile_alike (Renamed.respects hone) h.externals r.program
  rw [outcome, outcome, ← h.program]
  refine (hcompile.mapError _).bind fun c d hcd => ?_
  exact (Evaluation.runFresh_renamed hone hI hlimits henv hcd).mapError _

theorem success_renamed :
    Parallel (SuccessesRenamed I) (r.success run outcomes) (r'.success run' outcomes') :=
  (outcome_renamed hone hI hlimits henv h).map fun _ _ ho =>
    ⟨ho.result, ho.bindings, h.imports, ho.exports⟩

theorem success_recorded
    (hentries : Module.importEntries outcomes = Module.importEntries outcomes') :
    Parallel (SuccessesRecorded I) (r.success run outcomes) (r'.success run' outcomes') :=
  (outcome_renamed hone hI hlimits henv h).map fun o o' ho =>
    ⟨⟨ho.result, ho.bindings, h.imports, ho.exports⟩, by
      change o.profile.map _ = o'.profile.map _
      rw [ho.profile, hentries]⟩

end

end Runnable

namespace Output

theorem runnable_of_isOk (h : (make name m run outcomes).isOk) : (m.runnable outcomes).isOk := by
  cases hr : m.runnable outcomes with
  | ok r => rfl
  | error e =>
    rw [isOk, make, ofImports, hr] at h
    cases h

theorem program_of_isOk (h : (make name m run outcomes).isOk) :
    ∃ program, m.program = .ok program := by
  cases hm : m.program with
  | ok program => exact ⟨program, rfl⟩
  | error e =>
    have hr := runnable_of_isOk h
    rw [Module.runnable, hm] at hr
    cases hg : Module.gather outcomes [] [] <;> rw [hg] at hr <;> cases hr

theorem make_parallel {R : Success → Success → Prop} (h : Forall₂ (BroughtAlike I) outcomes outcomes')
    (hR : (m.runnable outcomes).isOk → (m.runnable outcomes').isOk → ∀ r r',
      RunnablesRenamed I r r' → Parallel R (r.success run outcomes) (r'.success run' outcomes')) :
    Parallel R (make name m run outcomes).result (make name m run' outcomes').result := by
  have hr := Module.runnable_renamed (m := m) h
  rw [make, make, ofImports, ofImports]
  dsimp only
  generalize m.runnable outcomes = x at hR hr ⊢
  generalize m.runnable outcomes' = y at hR hr ⊢
  cases hr with
  | ok hr => exact hR rfl rfl _ _ hr
  | error e => exact .error e

/-- Only modules that are run need identities that correspond. -/
theorem make_renamed (hone : OneToOne I) (hlimits : run.limits = run'.limits)
    (henv : run.environment = run'.environment) (h : Forall₂ (BroughtAlike I) outcomes outcomes')
    (hI : (m.runnable outcomes).isOk → (m.runnable outcomes').isOk →
      ∀ n, I ⟨run.origin, n⟩ ⟨run'.origin, n⟩) :
    Parallel (SuccessesRenamed I) (make name m run outcomes).result
      (make name m run' outcomes').result :=
  make_parallel h fun hr hr' _ _ => Runnable.success_renamed hone (hI hr hr') hlimits henv

theorem make_recorded (hone : OneToOne I) (hlimits : run.limits = run'.limits)
    (henv : run.environment = run'.environment) (h : Forall₂ (BroughtAlike I) outcomes outcomes')
    (hI : (m.runnable outcomes).isOk → (m.runnable outcomes').isOk →
      ∀ n, I ⟨run.origin, n⟩ ⟨run'.origin, n⟩)
    (hentries : Module.importEntries outcomes = Module.importEntries outcomes') :
    Parallel (SuccessesRecorded I) (make name m run outcomes).result
      (make name m run' outcomes').result :=
  make_parallel h fun hr hr' _ _ hrr =>
    Runnable.success_recorded hone (hI hr hr') hlimits henv hrr hentries

end Output

end Estimation
