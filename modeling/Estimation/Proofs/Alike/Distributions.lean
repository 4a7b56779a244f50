import Estimation.Library.Distributions
import Estimation.Proofs.Alike.Collections

/-!
Functions of distributions give alike results for alike arguments, and draw the same random numbers.
-/

namespace Estimation.Library

open List ValueOf

variable {α δ α' δ' β γ : Type}

structure DrawAlike (R : α → δ → Prop) (d : Draw α) (d' : Draw δ) : Prop where
  result : ∀ random, ResultAlike R (d random).1 (d' random).1
  random : ∀ random, (d random).2 = (d' random).2

namespace DrawAlike

variable {R : α → δ → Prop} {S : α' → δ' → Prop} {d : Draw α} {d' : Draw δ}

theorem pure {a : α} {b : δ} (h : R a b) : DrawAlike R (pure a : Draw α) (pure b : Draw δ) :=
  ⟨fun _ => .ok h, fun _ => rfl⟩

theorem orStop {x : Result α} {y : Result δ} (h : ResultAlike R x y) :
    DrawAlike R (Library.orStop x) (Library.orStop y) :=
  ⟨fun _ => h, fun _ => rfl⟩

theorem bind_error {k : α → Draw α'} {random after : Random} {e : Failure}
    (h : d random = (.error e, after)) : (d >>= k) random = (.error e, after) := by
  change (ExceptT.bindCont k (d random).1) (d random).2 = _
  rw [h]
  rfl

theorem bind_ok {k : α → Draw α'} {random after : Random} {a : α}
    (h : d random = (.ok a, after)) : (d >>= k) random = k a after := by
  change (ExceptT.bindCont k (d random).1) (d random).2 = _
  rw [h]
  rfl

theorem bind (h : DrawAlike R d d') {k : α → Draw α'} {l : δ → Draw δ'}
    (hk : ∀ a b, R a b → DrawAlike S (k a) (l b)) : DrawAlike S (d >>= k) (d' >>= l) := by
  have step : ∀ random, ResultAlike S ((d >>= k) random).1 ((d' >>= l) random).1 ∧
      ((d >>= k) random).2 = ((d' >>= l) random).2 := by
    intro random
    have hr := h.result random
    have hs := h.random random
    rcases hd : d random with ⟨x, after⟩
    rcases hd' : d' random with ⟨y, after'⟩
    simp only [hd, hd'] at hr hs
    subst hs
    cases hr with
    | ok hab =>
      rw [bind_ok hd, bind_ok hd']
      exact ⟨(hk _ _ hab).result _, (hk _ _ hab).random _⟩
    | error he =>
      rw [bind_error hd, bind_error hd']
      exact ⟨.error he, rfl⟩
  exact ⟨fun random => (step random).1, fun random => (step random).2⟩

end DrawAlike

theorem drawUnit_alike : DrawAlike Eq drawUnit drawUnit := by
  refine ⟨fun random => ?_, fun _ => rfl⟩
  rcases h : random.unit with ⟨x, after⟩
  simp only [drawUnit, h]
  exact .ok rfl

theorem drawBelow_alike (n : Nat) : DrawAlike Eq (drawBelow n) (drawBelow n) := by
  refine ⟨fun random => ?_, fun _ => rfl⟩
  rcases h : random.below n with ⟨k, after⟩
  simp only [drawBelow, h]
  exact .ok rfl

theorem drawFrom_alike {sample : Draw Float} (h : DrawAlike Eq sample sample) (done : List Float)
    (left : Nat) : DrawAlike Eq (drawFrom sample done left) (drawFrom sample done left) := by
  induction left generalizing done with
  | zero => exact .pure rfl
  | succ left ih => exact h.bind fun x _ hx => hx ▸ ih _

theorem standardNormal_alike : DrawAlike Eq standardNormal standardNormal :=
  drawUnit_alike.bind fun _ _ hu => drawUnit_alike.bind fun _ _ hv => .pure (by rw [hu, hv])

theorem normalSample_alike (mean stdev : Float) :
    DrawAlike Eq (normalSample mean stdev) (normalSample mean stdev) :=
  standardNormal_alike.bind fun _ _ hx => .pure (by rw [hx])

theorem lognormalSample_alike (mu sigma : Float) :
    DrawAlike Eq (lognormalSample mu sigma) (lognormalSample mu sigma) :=
  standardNormal_alike.bind fun _ _ hx => .pure (by rw [hx])

variable {F : LambdaOf β → LambdaOf γ → Prop} {args : List (ValueOf β)} {args' : List (ValueOf γ)}

theorem generate_alike (environment : Environment) {sample : Draw Float}
    (h : DrawAlike Eq sample sample) :
    DrawAlike (Alike F) (generate environment sample) (generate environment sample) := by
  refine (drawFrom_alike h _ _).bind fun xs _ hxs => ?_
  subst hxs
  exact (DrawAlike.orStop (ofList_refl xs)).bind fun s _ hs => .pure (hs ▸ .samples s)

theorem nonNegative_alike (what : String) (x : Float) :
    ResultAlike Eq (nonNegative what x) (nonNegative what x) := by
  unfold nonNegative
  split
  · exact .error rfl
  · exact .ok rfl

theorem drawNumber_alike (h : Forall₂ (Alike F) args args') {i : Nat} (hi : i < args.length) :
    DrawAlike Eq (orStop (number args i)) (orStop (number args' i)) :=
  .orStop (number_alike h hi)

theorem normal_alike (environment : Environment) (h : Forall₂ (Alike F) args args')
    (hn : 2 ≤ args.length) :
    DrawAlike (Alike F) (normal environment args) (normal environment args') := by
  refine (drawNumber_alike h (by omega)).bind fun mean _ hm =>
    (drawNumber_alike h (by omega)).bind fun stdev _ hs => ?_
  subst hm hs
  refine (DrawAlike.orStop (nonNegative_alike _ _)).bind fun stdev _ hs => ?_
  subst hs
  exact generate_alike environment (normalSample_alike _ _)

theorem lognormal_alike (environment : Environment) (h : Forall₂ (Alike F) args args')
    (hn : 2 ≤ args.length) :
    DrawAlike (Alike F) (lognormal environment args) (lognormal environment args') := by
  refine (drawNumber_alike h (by omega)).bind fun mu _ hm =>
    (drawNumber_alike h (by omega)).bind fun sigma _ hs => ?_
  subst hm hs
  refine (DrawAlike.orStop (nonNegative_alike _ _)).bind fun sigma _ hs => ?_
  subst hs
  exact generate_alike environment (lognormalSample_alike _ _)

theorem uniform_alike (environment : Environment) (h : Forall₂ (Alike F) args args')
    (hn : 2 ≤ args.length) :
    DrawAlike (Alike F) (uniform environment args) (uniform environment args') := by
  refine (drawNumber_alike h (by omega)).bind fun low _ hl =>
    (drawNumber_alike h (by omega)).bind fun high _ hh => ?_
  subst hl hh
  split
  · exact .orStop (.error rfl)
  · exact generate_alike environment (drawUnit_alike.bind fun _ _ hx => .pure (by rw [hx]))

theorem pointMass_alike (environment : Environment) (h : Forall₂ (Alike F) args args')
    (hn : 1 ≤ args.length) :
    DrawAlike (Alike F) (pointMass environment args) (pointMass environment args') := by
  refine (drawNumber_alike h (by omega)).bind fun x _ hx => ?_
  subst hx
  exact generate_alike environment (.pure rfl)

theorem spread_alike (environment : Environment) (h : Forall₂ (Alike F) args args')
    (hn : 2 ≤ args.length) :
    DrawAlike (Alike F) (spread environment args) (spread environment args') := by
  refine (drawNumber_alike h (by omega)).bind fun low _ hl =>
    (drawNumber_alike h (by omega)).bind fun high _ hh => ?_
  subst hl hh
  simp only
  split
  · exact .orStop (.error rfl)
  · split
    · exact generate_alike environment (lognormalSample_alike _ _)
    · exact generate_alike environment (normalSample_alike _ _)

theorem sample_alike (h : Forall₂ (Alike F) args args') (hn : 1 ≤ args.length) :
    DrawAlike (Alike F) (sample args) (sample args') := by
  refine (DrawAlike.orStop (samples_alike h (by omega))).bind fun s _ hs => ?_
  subst hs
  exact (drawBelow_alike _).bind fun _ _ hk => .pure (hk ▸ .number _)

theorem sampleMany_alike (h : Forall₂ (Alike F) args args') (hn : 2 ≤ args.length) :
    DrawAlike (Alike F) (sampleMany args) (sampleMany args') := by
  refine (DrawAlike.orStop (samples_alike h (by omega))).bind fun s _ hs =>
    (DrawAlike.orStop (integer_alike h (by omega))).bind fun count _ hc => ?_
  subst hs hc
  simp only
  split
  · exact .orStop (.error rfl)
  · have hone : DrawAlike Eq (do return s.toList.toArray.getD (← drawBelow s.size) 0)
        (do return s.toList.toArray.getD (← drawBelow s.size) 0) :=
      (drawBelow_alike _).bind fun _ _ hk => .pure (by rw [hk])
    refine (drawFrom_alike hone [] _).bind fun picked _ hp => .pure ?_
    subst hp
    exact .list (numbers_alike id picked)

/-! ### Without random numbers -/

theorem mapM_asNumber_alike {vs : List (ValueOf β)} {ws : List (ValueOf γ)}
    (h : Forall₂ (Alike F) vs ws) : ResultAlike Eq (vs.mapM asNumber) (ws.mapM asNumber) := by
  induction h with
  | nil => exact .ok rfl
  | cons hv _ ih =>
    simp only [mapM_cons]
    exact (asNumber_alike hv).bind fun _ _ hx => ih.bind fun _ _ hxs => .ok (by rw [hx, hxs])

theorem samplesOfList_alike (h : Forall₂ (Alike F) args args') (hn : 1 ≤ args.length) :
    ResultAlike (Alike F) (samplesOfList args) (samplesOfList args') := by
  refine (list_alike h (by omega)).bind fun vs ws hvs =>
    (mapM_asNumber_alike hvs).bind fun xs _ hxs => ?_
  subst hxs
  exact (ofList_refl xs).bind fun s _ hs => .ok (hs ▸ .samples s)

theorem mean_alike (h : Forall₂ (Alike F) args args') (hn : 1 ≤ args.length) :
    ResultAlike (Alike F) (mean args) (mean args') :=
  (samples_alike h (by omega)).bind fun _ _ hs => .ok (hs ▸ .number _)

theorem stdev_alike (h : Forall₂ (Alike F) args args') (hn : 1 ≤ args.length) :
    ResultAlike (Alike F) (stdev args) (stdev args') :=
  (samples_alike h (by omega)).bind fun _ _ hs => .ok (hs ▸ .number _)

theorem quantile_alike (h : Forall₂ (Alike F) args args') (hn : 2 ≤ args.length) :
    ResultAlike (Alike F) (quantile args) (quantile args') := by
  refine (samples_alike h (by omega)).bind fun s _ hs =>
    (number_alike h (by omega)).bind fun p _ hp => ?_
  subst hs hp
  unfold Samples.quantile
  split
  · exact .ok (.number _)
  · exact .error rfl

theorem samplesToList_alike (h : Forall₂ (Alike F) args args') (hn : 1 ≤ args.length) :
    ResultAlike (Alike F) (samplesToList args) (samplesToList args') := by
  refine (samples_alike h (by omega)).bind fun s _ hs => .ok ?_
  subst hs
  exact .list (numbers_alike id s.toList)

end Estimation.Library
