import Estimation.Proofs.Renaming.Compilation

/-!
Runs that differ in the identities of functions only. If the identities correspond one to one, a
program whose external names have alike values compiles to alike code, and this leaves alike values.
-/

namespace Estimation

open List

/-- Functions that are the same but for the identities of closures in them. -/
inductive Renamed (I : Identity → Identity → Prop) : Lambda → Lambda → Prop
  | native (f) : Renamed I (.native f) (.native f)
  | closure {i j vs ws c d} (name parameters span) : I i j →
      Forall₂ (ValueOf.Alike (Renamed I)) vs ws → Code.Alike (ValueOf.Alike (Renamed I)) c d →
      Renamed I (.closure i name parameters vs c span) (.closure j name parameters ws d span)

/-- Identities correspond one to one. -/
def OneToOne (I : Identity → Identity → Prop) : Prop :=
  ∀ {i j i' j'}, I i j → I i' j' → (i = i' ↔ j = j')

namespace Renamed

variable {I : Identity → Identity → Prop}

theorem respects (hI : OneToOne I) : Respects (Renamed I) where
  native := .native
  shape h := by
    cases h with
    | native f => exact .inl ⟨f, rfl, rfl⟩
    | closure name parameters span _ _ _ =>
      exact .inr ⟨_, _, name, parameters, _, _, _, _, span, rfl, rfl⟩
  same h h' := by
    cases h with
    | native f => cases h' <;> rfl
    | closure _ _ _ hi =>
      cases h' with
      | native f => rfl
      | closure _ _ _ hi' => exact decide_eq_decide.2 (hI hi hi')

end Renamed

namespace Evaluation

variable {I : Identity → Identity → Prop} {run run' : Run}

theorem hosts_renamed (hI : ∀ n, I ⟨run.origin, n⟩ ⟨run'.origin, n⟩)
    (hlimits : run.limits = run'.limits) :
    HostsAlike (ValueOf.Alike (Renamed I)) (Renamed I) .code .code run run' where
  value h := h
  closure hvs hcd n name parameters span := .closure name parameters span (hI n) hvs hcd
  stackSize := by rw [hlimits]

theorem bodies_renamed (hone : OneToOne I) (hI : ∀ n, I ⟨run.origin, n⟩ ⟨run'.origin, n⟩)
    (hlimits : run.limits = run'.limits) :
    BodiesAlike .same (Renamed I) (fun call frames _ => runCode .code run call frames)
      (fun call frames _ => runCode .code run' call frames) := by
  intro call call' hcall i j name parameters vs ws c d span hf s s' hs frames args args' _ hargs
  cases hf with
  | closure _ _ _ _ hvs hcd =>
    exact runCode_simulates (fun _ => trivial) (Renamed.respects hone) (hosts_renamed hI hlimits)
      hcall hs frames hvs hcd hargs

/-- What programs leave is the same but for the identities of closures in it. -/
structure OutcomesRenamed (I : Identity → Identity → Prop) (o o' : Outcome) : Prop where
  result : ValueOf.Alike (Renamed I) o.result o'.result
  bindings : Forall₂ (EntryAlike (ValueOf.Alike (Renamed I))) o.bindings o'.bindings
  exports : Forall₂ (EntryAlike (ValueOf.Alike (Renamed I))) o.exports o'.exports
  profile : o.profile = o'.profile

section

variable {F : Lambda → Lambda → Prop}

theorem top_alike : ContextsAlike .same F #[] #[] .top .top :=
  ⟨Faults.fits_refl _, rfl, rfl, rfl, .nil⟩

theorem bindingValues_alike (bs : List TopBinding) {bindings bindings' : Bindings Value}
    {exports exports' : Bindings Value}
    (hb : Forall₂ (EntryAlike (ValueOf.Alike F)) bindings bindings')
    (he : Forall₂ (EntryAlike (ValueOf.Alike F)) exports exports') :
    Simulates .same (Above F #[] #[])
      (fun x y => Forall₂ (EntryAlike (ValueOf.Alike F)) x.1 y.1 ∧
        Forall₂ (EntryAlike (ValueOf.Alike F)) x.2 y.2)
      (Above F #[] #[]) (bindingValues bs bindings exports)
      (bindingValues bs bindings' exports') := by
  induction bs generalizing bindings bindings' exports exports' with
  | nil => exact .pure ⟨hb, he⟩
  | cons b bs ih =>
    simp only [bindingValues]
    refine .get fun m m' hm => ?_
    have hx := lookup?_alike top_alike hm (.slot b.slot)
    simp only [lookup?, Context.top, Nat.zero_add] at hx
    generalize m.stack[b.slot]? = x at hx
    generalize m'.stack[b.slot]? = y at hx
    cases hx with
    | none => exact .error trivial
    | some hv =>
      refine ih (Bindings.insert_alike b.name hv hb) ?_ m m' hm
      split
      · exact Bindings.insert_alike b.name hv he
      · exact he

theorem takeProfile_alike :
    Simulates .same (Above F #[] #[]) Eq (Above F #[] #[]) takeProfile takeProfile := by
  rintro m m' ⟨us, us', hu, hm⟩
  exact .ok ⟨congrArg (Option.map reverse) hm.profile, us, us', hu, hm.stack, hm.stack', hm.random,
    hm.closures, rfl⟩

end

theorem runProgram_renamed (hone : OneToOne I) (hI : ∀ n, I ⟨run.origin, n⟩ ⟨run'.origin, n⟩)
    (hlimits : run.limits = run'.limits) (henv : run.environment = run'.environment) {c d : Code}
    (h : Code.Alike (ValueOf.Alike (Renamed I)) c d) :
    Simulates .same (Above (Renamed I) #[] #[]) (OutcomesRenamed I)
      (Above (Renamed I) #[] #[]) (runProgram run c) (runProgram run' d) := by
  have hcall : CallersAlike .same (Renamed I) (apply run run.limits.callDepth)
      (apply run' run'.limits.callDepth) := by
    rw [← hlimits]
    exact callWith_simulates (fun _ _ => trivial) (Renamed.respects hone) henv hlimits
      (bodies_renamed hone hI hlimits) _
  have heval := eval_simulates (fun _ => trivial) (Renamed.respects hone) (hosts_renamed hI hlimits)
    hcall top_alike h
  refine heval.bind fun v w hv => ?_
  cases h with
  | program bindings span _ _ =>
    exact (bindingValues_alike bindings .nil .nil).bind fun x y hxy =>
      takeProfile_alike.bind fun _ _ hp => .pure ⟨hv, hxy.1, hxy.2, hp⟩
  | _ => exact takeProfile_alike.bind fun _ _ hp => .pure ⟨hv, .nil, .nil, hp⟩

/-- Runs with the same environment and limits. -/
theorem runFresh_renamed (hone : OneToOne I) (hI : ∀ n, I ⟨run.origin, n⟩ ⟨run'.origin, n⟩)
    (hlimits : run.limits = run'.limits) (henv : run.environment = run'.environment) {c d : Code}
    (h : Code.Alike (ValueOf.Alike (Renamed I)) c d) :
    Parallel (OutcomesRenamed I) (runFresh run c) (runFresh run' d) := by
  have hr := runProgram_renamed hone hI hlimits henv h (.start run.environment)
    (.start run'.environment) ⟨[], [], .nil, rfl, rfl, by rw [henv], rfl, by rw [henv]⟩
  rw [runFresh, runFresh]
  generalize runProgram run c (.start run.environment) = x at hr
  generalize runProgram run' d (.start run'.environment) = y at hr
  cases hr with
  | ok hp => exact .ok hp.1
  | error _ => exact .error _
  | overflow hlonger => exact hlonger.elim

end Evaluation

end Estimation
