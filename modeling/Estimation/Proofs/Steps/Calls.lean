import Estimation.Proofs.Steps.Library

/-!
Calls correspond in two runs whose function bodies correspond: by induction on how deep calls may
still nest.
-/

namespace Estimation.Evaluation

open List ValueOf

variable {β γ : Type}

/-- Related functions do the same when they are called from the same place, on stacks that fit. -/
def CallersAlike (E : Faults) (F : LambdaOf β → LambdaOf γ → Prop) (call : Caller β)
    (call' : Caller γ) : Prop :=
  ∀ {s s'}, E.Fits s.size s'.size → ∀ frames span argSpans {f g args args'}, F f g →
    Forall₂ (Alike F) args args' → Simulates E (Level s s') (Alike F) (Level s s')
      (call frames span argSpans f args) (call' frames span argSpans g args')

/-- Bodies of related closures do the same, if what they call does. -/
def BodiesAlike (E : Faults) (F : LambdaOf β → LambdaOf γ → Prop) (runBody : BodyRunner β)
    (runBody' : BodyRunner γ) : Prop :=
  ∀ {call call'}, CallersAlike E F call call' →
    ∀ {i j name parameters vs ws b c span},
      F (.closure i name parameters vs b span) (.closure j name parameters ws c span) →
    ∀ {s s'}, E.Fits s.size s'.size → ∀ frames {args args'}, args.length = parameters.length →
      Forall₂ (Alike F) args args' → Simulates E (Level s s') (Alike F) (Level s s')
        (runBody call frames parameters vs b args) (runBody' call' frames parameters ws c args')

variable {E : Faults} {F : LambdaOf β → LambdaOf γ → Prop} {s : Array (ValueOf β)}
  {s' : Array (ValueOf γ)}

theorem checkRanges_simulates (hE : ∀ failure, failure.isInternal = false → E failure)
    (frames : List Frame) (span : Span) (argSpans : List Span) (parameters : List Parameter)
    (index : Nat) {args : List (ValueOf β)} {args' : List (ValueOf γ)}
    (h : Forall₂ (Alike F) args args') : Simulates E (Level s s') Eq (Level s s')
      (checkRanges frames span argSpans index parameters args)
      (checkRanges frames span argSpans index parameters args') := by
  induction parameters generalizing index args args' with
  | nil => exact .pure rfl
  | cons p parameters ih =>
    cases h with
    | nil => exact .pure rfl
    | cons hv h =>
      unfold checkRanges
      cases p.range with
      | none => exact ih _ h
      | some range =>
        cases hv with
        | number x =>
          by_cases hx : range.Contains x
          · simp only [hx, decide_true, ↓reduceIte]
            exact ih _ h
          · simp only [hx, decide_false]
            exact .fail_bind (hE _ rfl)
        | _ => exact .fail_bind (hE _ rfl)

theorem callWith_simulates (hE : ∀ failure, failure.isInternal = false → E failure)
    (hF : Respects F) {run run' : Run} (henv : run.environment = run'.environment)
    (hlimits : run.limits = run'.limits) {runBody : BodyRunner β} {runBody' : BodyRunner γ}
    (hb : BodiesAlike E F runBody runBody') (depth : Nat) :
    CallersAlike E F (callWith runBody run depth) (callWith runBody' run' depth) := by
  induction depth with
  | zero =>
    intro s s' _ frames span argSpans f g args args' _ _
    simp only [callWith, hlimits]
    exact .fail (hE _ rfl)
  | succ depth ih =>
    intro s s' hs frames span argSpans f g args args' hf h
    have hname := hF.name hf
    have hl := h.length_eq
    rcases hF.shape hf with ⟨n, rfl, rfl⟩ | ⟨i, j, name, parameters, vs, ws, b, c, place, rfl, rfl⟩
    · simp only [callWith, ← hl]
      by_cases hn : n.arity.Accepts args.length
      · simp only [hn, ↓reduceIte]
        exact Native.run_simulates hE hF henv (fun hf' h' => ih hs _ _ _ hf' h') _ _ _ h hn
      · simp only [hn, ↓reduceIte]
        exact .fail_bind (hE _ rfl)
    · simp only [callWith, ← hl]
      by_cases hn : args.length = parameters.length
      · simp only [hn, ↓reduceIte]
        exact (checkRanges_simulates hE _ _ _ _ _ h).bind fun _ _ _ => hb ih hf hs _ hn h
      · simp only [hn, ↓reduceIte]
        exact .fail_bind (hE _ rfl)

end Estimation.Evaluation
