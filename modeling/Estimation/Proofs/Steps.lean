import Estimation.Evaluation
import Estimation.Proofs.Alike.Distributions

/-!
Two runs side by side. A step of the one run corresponds to a step of the other if both end alike:
with related results, or with the same error. Where the second run may need more slots than the
first, it may also run out of them, which says nothing about the first.
-/

namespace Estimation

open List

variable {α δ α' δ' β γ : Type}

/-- Both give results, and these are related, or both fail with the same. -/
inductive Parallel {ε : Type} (R : α → δ → Prop) : Except ε α → Except ε δ → Prop
  | ok {a b} : R a b → Parallel R (.ok a) (.ok b)
  | error (e) : Parallel R (.error e) (.error e)

namespace Parallel

variable {ε ε' : Type} {R : α → δ → Prop} {S : α' → δ' → Prop} {x : Except ε α} {y : Except ε δ}

theorem bind (h : Parallel R x y) {k : α → Except ε α'} {l : δ → Except ε δ'}
    (hk : ∀ a b, R a b → Parallel S (k a) (l b)) : Parallel S (x >>= k) (y >>= l) := by
  cases h with
  | ok hab => exact hk _ _ hab
  | error e => exact .error e

theorem map (h : Parallel R x y) {f : α → α'} {g : δ → δ'} (hfg : ∀ a b, R a b → S (f a) (g b)) :
    Parallel S (x.map f) (y.map g) := by
  cases h with
  | ok hab => exact .ok (hfg _ _ hab)
  | error e => exact .error e

theorem mapError (h : Parallel R x y) (f : ε → ε') :
    Parallel R (x.mapError f) (y.mapError f) := by
  cases h with
  | ok hab => exact .ok hab
  | error e => exact .error (f e)

theorem mono {R' : α → δ → Prop} (h : Parallel R x y) (hR : ∀ a b, R a b → R' a b) :
    Parallel R' x y := by
  cases h with
  | ok hab => exact .ok (hR _ _ hab)
  | error e => exact .error e

theorem refl (x : Except ε α) : Parallel Eq x x := by
  cases x with
  | ok a => exact .ok rfl
  | error e => exact .error e

end Parallel

/-- What two runs may fail with alike, and whether the second may need more slots than the first. -/
structure Faults where
  alike : Failure → Prop
  longer : Prop

instance : CoeFun Faults fun _ => Failure → Prop := ⟨Faults.alike⟩

namespace Faults

/-- The same in all that they fail with and in the slots that they take. -/
def same : Faults := ⟨fun _ => True, False⟩

/-- How many slots two runs may have taken. -/
def Fits (E : Faults) (n n' : Nat) : Prop := n ≤ n' ∧ (n = n' ∨ E.longer)

theorem fits_refl {E : Faults} (n : Nat) : E.Fits n n := ⟨Nat.le_refl n, .inl rfl⟩

theorem Fits.add {E : Faults} {n n' : Nat} (h : E.Fits n n') (k : Nat) : E.Fits (n + k) (n' + k) :=
  ⟨Nat.add_le_add_right h.1 k, h.2.imp_left (congrArg (· + k))⟩

end Faults

inductive Ends (E : Faults) (Post : α → δ → MachineOf β → MachineOf γ → Prop) :
    Except RunError α × MachineOf β → Except RunError δ × MachineOf γ → Prop
  | ok {a b m m'} : Post a b m m' → Ends E Post (.ok a, m) (.ok b, m')
  | error {e m m'} : E e.failure → Ends E Post (.error e, m) (.error e, m')
  | overflow {x limit trace m'} : E.longer → Ends E Post x (.error ⟨.stackSize limit, trace⟩, m')

/-- From machines in the relation `I` to results in `R` and machines in `J`. -/
def Simulates (E : Faults) (I : MachineOf β → MachineOf γ → Prop) (R : α → δ → Prop)
    (J : MachineOf β → MachineOf γ → Prop) (step : Eval β α) (step' : Eval γ δ) : Prop :=
  ∀ m m', I m m' → Ends E (fun a b m m' => R a b ∧ J m m') (step m) (step' m')

/-- The stacks are given, and all else is the same. -/
structure Level (s : Array (ValueOf β)) (s' : Array (ValueOf γ)) (m : MachineOf β)
    (m' : MachineOf γ) : Prop where
  stack : m.stack = s
  stack' : m'.stack = s'
  random : m.random = m'.random
  closures : m.closures = m'.closures
  profile : m.profile = m'.profile

namespace Eval

theorem bind_ok {step : Eval β α} {k : α → Eval β α'} {m after : MachineOf β} {a : α}
    (h : step m = (.ok a, after)) : (step >>= k) m = k a after := by
  change (ExceptT.bindCont k (step m).1) (step m).2 = _
  rw [h]
  rfl

theorem bind_error {step : Eval β α} {k : α → Eval β α'} {m after : MachineOf β} {e : RunError}
    (h : step m = (.error e, after)) : (step >>= k) m = (.error e, after) := by
  change (ExceptT.bindCont k (step m).1) (step m).2 = _
  rw [h]
  rfl

theorem push_eq (run : Run) (frames : List Frame) (span : Span) (v : ValueOf β) (m : MachineOf β) :
    push run frames span v m =
      if run.limits.stackSize ≤ m.stack.size then
        (.error ⟨.stackSize run.limits.stackSize, traceFrom frames span⟩, m)
      else (.ok (), { m with stack := m.stack.push v }) := by
  change (if run.limits.stackSize ≤ m.stack.size then _ else _ : Eval β Unit) m = _
  split <;> rfl

end Eval

namespace Simulates

variable {E : Faults} {I J K : MachineOf β → MachineOf γ → Prop} {R : α → δ → Prop}
  {S : α' → δ' → Prop} {step : Eval β α} {step' : Eval γ δ}

theorem pure {a : α} {b : δ} (h : R a b) : Simulates E I R I (pure a) (pure b) :=
  fun _ _ hI => .ok ⟨h, hI⟩

theorem bind (h : Simulates E I R J step step') {k : α → Eval β α'} {l : δ → Eval γ δ'}
    (hk : ∀ a b, R a b → Simulates E J S K (k a) (l b)) :
    Simulates E I S K (step >>= k) (step' >>= l) := by
  intro m m' hI
  have hm := h m m' hI
  rcases hs : step m with ⟨x, after⟩
  rcases hs' : step' m' with ⟨y, after'⟩
  rw [hs, hs'] at hm
  cases hm with
  | ok hp =>
    rw [Eval.bind_ok hs, Eval.bind_ok hs']
    exact hk _ _ hp.1 _ _ hp.2
  | error he =>
    rw [Eval.bind_error hs, Eval.bind_error hs']
    exact .error he
  | overflow hlonger =>
    rw [Eval.bind_error hs']
    exact .overflow hlonger

/-- A step of the second machine alone. -/
theorem bind_right {T : δ → Prop} (h : Simulates E I (fun _ : Unit => T) J (Pure.pure ()) step')
    {step : Eval β α'} {l : δ → Eval γ δ'} (hk : ∀ b, T b → Simulates E J S K step (l b)) :
    Simulates E I S K step (step' >>= l) :=
  h.bind fun _ b hb => hk b hb

theorem mono (h : Simulates E I R J step step') {R' : α → δ → Prop}
    {J' : MachineOf β → MachineOf γ → Prop} (hR : ∀ a b, R a b → R' a b)
    (hJ : ∀ m m', J m m' → J' m m') : Simulates E I R' J' step step' := by
  intro m m' hI
  have hm := h m m' hI
  generalize step m = x at hm
  generalize step' m' = y at hm
  cases hm with
  | ok hp => exact .ok ⟨hR _ _ hp.1, hJ _ _ hp.2⟩
  | error he => exact .error he
  | overflow hlonger => exact .overflow hlonger

theorem fail {frames : List Frame} {span : Span} {failure : Failure} (h : E failure) :
    Simulates E I R J (Eval.fail frames span failure) (Eval.fail frames span failure) :=
  fun _ _ _ => .error h

theorem fail_bind {frames : List Frame} {span : Span} {failure : Failure} (h : E failure)
    {k : α → Eval β α'} {l : δ → Eval γ δ'} :
    Simulates E I S J (Eval.fail frames span failure >>= k) (Eval.fail frames span failure >>= l) :=
  fun _ _ _ => .error h

theorem ofExcept (hE : ∀ failure, failure.isInternal = false → E failure) {frames : List Frame}
    {span : Span} {x : Except Failure α} {y : Except Failure δ} (h : Library.ResultAlike R x y) :
    Simulates E I R I (Eval.ofExcept frames span x) (Eval.ofExcept frames span y) := by
  cases h with
  | ok h => exact .pure h
  | error h => exact .fail (hE _ h)

theorem get {k : MachineOf β → Eval β α} {l : MachineOf γ → Eval γ δ}
    (h : ∀ m m', I m m' → Ends E (fun a b m m' => R a b ∧ J m m') (k m m) (l m' m')) :
    Simulates E I R J (get >>= k) (get >>= l) :=
  h

theorem shrinkingTo (h : Simulates E I R J step step') {size size' : Nat}
    (hK : ∀ m m', J m m' →
      K { m with stack := m.stack.shrink size } { m' with stack := m'.stack.shrink size' }) :
    Simulates E I R K (Eval.shrinkingTo size step) (Eval.shrinkingTo size' step') := by
  intro m m' hI
  have hm := h m m' hI
  unfold Eval.shrinkingTo
  rcases hs : step m with ⟨x, after⟩
  rcases hs' : step' m' with ⟨y, after'⟩
  rw [hs, hs'] at hm
  cases hm with
  | ok hp => exact .ok ⟨hp.1, hK _ _ hp.2⟩
  | error he => exact .error he
  | overflow hlonger => exact .overflow hlonger

variable {s : Array (ValueOf β)} {s' : Array (ValueOf γ)}

theorem draw (hE : ∀ failure, failure.isInternal = false → E failure) {frames : List Frame}
    {span : Span} {d : Draw α} {d' : Draw δ} (h : Library.DrawAlike R d d') :
    Simulates E (Level s s') R (Level s s') (Eval.draw frames span d) (Eval.draw frames span d') := by
  intro m m' hI
  have hr := h.result m.random
  have hs := h.random m.random
  unfold Eval.draw
  rw [← hI.random]
  rcases hd : d m.random with ⟨x, after⟩
  rcases hd' : d' m.random with ⟨y, after'⟩
  simp only [hd, hd'] at hr hs
  subst hs
  cases hr with
  | ok hab => exact .ok ⟨hab, hI.stack, hI.stack', rfl, hI.closures, hI.profile⟩
  | error he => exact .error (hE _ he)

theorem newIdentity {run run' : Run} :
    Simulates E (Level s s') (fun i j => ∃ n, i = ⟨run.origin, n⟩ ∧ j = ⟨run'.origin, n⟩)
      (Level s s') (Evaluation.newIdentity run) (Evaluation.newIdentity run') :=
  fun m _ hI => .ok ⟨⟨m.closures, rfl, by rw [hI.closures]⟩, hI.stack, hI.stack', hI.random,
    by rw [hI.closures], hI.profile⟩

theorem record {label : String} {span : Span} :
    Simulates E (Level s s') Eq (Level s s') (Eval.record label span) (Eval.record label span) :=
  fun _ _ hI =>
    .ok ⟨rfl, hI.stack, hI.stack', hI.random, hI.closures, congrArg (Option.map _) hI.profile⟩

theorem push {run run' : Run} (hlimit : run.limits.stackSize = run'.limits.stackSize)
    (hsize : E.Fits s.size s'.size) (hE : ∀ limit, E (.stackSize limit)) {frames : List Frame}
    {span : Span} {v : ValueOf β} {w : ValueOf γ} :
    Simulates E (Level s s') Eq (Level (s.push v) (s'.push w))
      (Eval.push run frames span v) (Eval.push run' frames span w) := by
  refine .get fun m m' hI => ?_
  obtain ⟨hle, hsize⟩ := hsize
  rw [hI.stack, hI.stack', hlimit]
  by_cases hs' : run'.limits.stackSize ≤ s'.size
  · rw [if_pos hs']
    rcases hsize with heq | hlonger
    · rw [if_pos (heq ▸ hs')]
      exact .error (hE _)
    · exact .overflow hlonger
  · rw [if_neg hs', if_neg (by omega)]
    exact .ok ⟨rfl, congrArg (·.push v) hI.stack, congrArg (·.push w) hI.stack', hI.random,
      hI.closures, hI.profile⟩

end Simulates

end Estimation
