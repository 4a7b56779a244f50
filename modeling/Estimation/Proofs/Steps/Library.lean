import Estimation.Proofs.Alike.Natives
import Estimation.Proofs.Steps

/-!
Functions of the standard library, those that call functions among them, correspond in two runs whose
calls correspond.
-/

namespace Estimation

open List ValueOf

variable {β γ : Type}

/-- Related functions do the same with alike arguments, whatever stacks they are called on. -/
def CallbacksAlike (E : Faults) (F : LambdaOf β → LambdaOf γ → Prop)
    (s : Array (ValueOf β)) (s' : Array (ValueOf γ)) (call : Library.Callback β)
    (call' : Library.Callback γ) : Prop :=
  ∀ {f g args args'}, F f g → Forall₂ (Alike F) args args' →
    Simulates E (Level s s') (Alike F) (Level s s') (call f args) (call' g args')

namespace Library

section

variable {E : Faults} {F : LambdaOf β → LambdaOf γ → Prop} {s : Array (ValueOf β)}
  {s' : Array (ValueOf γ)} {call : Callback β} {call' : Callback γ} {f : LambdaOf β} {g : LambdaOf γ}
  {args : List (ValueOf β)} {args' : List (ValueOf γ)} {vs : List (ValueOf β)} {ws : List (ValueOf γ)}
  {frames : List Frame} {span : Span}

theorem orFail_simulates {α δ : Type} {R : α → δ → Prop} {I : MachineOf β → MachineOf γ → Prop}
    (hE : ∀ failure, failure.isInternal = false → E failure) {x : Result α} {y : Result δ}
    (h : ResultAlike R x y) :
    Simulates E I R I (orFail (Eval.fail frames span) x) (orFail (Eval.fail frames span) y) := by
  cases h with
  | ok h => exact .pure h
  | error h => exact .fail (hE _ h)

theorem mapFrom_simulates (hc : CallbacksAlike E F s s' call call') (hf : F f g) (withIndex : Bool)
    {done : List (ValueOf β)} {done' : List (ValueOf γ)} (hd : Forall₂ (Alike F) done done') (n : Nat)
    (h : Forall₂ (Alike F) vs ws) : Simulates E (Level s s') (Alike F) (Level s s')
      (mapFrom call f withIndex done n vs) (mapFrom call' g withIndex done' n ws) := by
  induction h generalizing done done' n with
  | nil => exact .pure (.list (rel_reverse hd))
  | cons hv _ ih =>
    refine (hc hf ?_).bind fun _ _ hw => ih (.cons hw hd) _
    cases withIndex with
    | true => exact .cons hv (.cons (.number _) .nil)
    | false => exact .cons hv .nil

theorem listMap_simulates (hE : ∀ failure, failure.isInternal = false → E failure) (hF : Respects F)
    (hc : CallbacksAlike E F s s' call call') (h : Forall₂ (Alike F) args args')
    (hn : 2 ≤ args.length) : Simulates E (Level s s') (Alike F) (Level s s')
      (listMap call (Eval.fail frames span) args) (listMap call' (Eval.fail frames span) args') := by
  refine (orFail_simulates hE (list_alike h (by omega))).bind fun vs ws hvs =>
    (orFail_simulates hE (lambda_alike h (by omega))).bind fun f g hf => ?_
  rw [hF.parameterCount? hf]
  exact mapFrom_simulates hc hf _ .nil 0 hvs

theorem filterFrom_simulates (hE : ∀ failure, failure.isInternal = false → E failure)
    (hc : CallbacksAlike E F s s' call call') (hf : F f g)
    {kept : List (ValueOf β)} {kept' : List (ValueOf γ)} (hk : Forall₂ (Alike F) kept kept')
    (h : Forall₂ (Alike F) vs ws) : Simulates E (Level s s') (Alike F) (Level s s')
      (filterFrom call (Eval.fail frames span) f kept vs)
      (filterFrom call' (Eval.fail frames span) g kept' ws) := by
  induction h generalizing kept kept' with
  | nil => exact .pure (.list (rel_reverse hk))
  | cons hv _ ih =>
    refine (hc hf (.cons hv .nil)).bind fun r r' hr => ?_
    cases hr with
    | bool b =>
      cases b with
      | true => exact ih (.cons hv hk)
      | false => exact ih hk
    | _ => exact .fail (hE _ rfl)

theorem listFilter_simulates (hE : ∀ failure, failure.isInternal = false → E failure)
    (hc : CallbacksAlike E F s s' call call') (h : Forall₂ (Alike F) args args')
    (hn : 2 ≤ args.length) : Simulates E (Level s s') (Alike F) (Level s s')
      (listFilter call (Eval.fail frames span) args)
      (listFilter call' (Eval.fail frames span) args') :=
  (orFail_simulates hE (list_alike h (by omega))).bind fun _ _ hvs =>
    (orFail_simulates hE (lambda_alike h (by omega))).bind fun _ _ hf =>
      filterFrom_simulates hE hc hf .nil hvs

theorem reduceFrom_simulates (hc : CallbacksAlike E F s s' call call') (hf : F f g) {v : ValueOf β}
    {w : ValueOf γ} (hv : Alike F v w) (h : Forall₂ (Alike F) vs ws) :
    Simulates E (Level s s') (Alike F) (Level s s') (reduceFrom call f v vs)
      (reduceFrom call' g w ws) := by
  induction h generalizing v w with
  | nil => exact .pure hv
  | cons hi _ ih => exact (hc hf (.cons hv (.cons hi .nil))).bind fun _ _ hr => ih hr

theorem listReduce_simulates (hE : ∀ failure, failure.isInternal = false → E failure)
    (hc : CallbacksAlike E F s s' call call') (h : Forall₂ (Alike F) args args')
    (hn : 3 ≤ args.length) : Simulates E (Level s s') (Alike F) (Level s s')
      (listReduce call (Eval.fail frames span) args)
      (listReduce call' (Eval.fail frames span) args') :=
  (orFail_simulates hE (list_alike h (by omega))).bind fun _ _ hvs =>
    (orFail_simulates hE (argument_alike h (by omega))).bind fun _ _ hv =>
      (orFail_simulates hE (lambda_alike h (by omega))).bind fun _ _ hf =>
        reduceFrom_simulates hc hf hv hvs

theorem makeFrom_simulates (hc : CallbacksAlike E F s s' call call') (hf : F f g) (withIndex : Bool)
    {done : List (ValueOf β)} {done' : List (ValueOf γ)} (hd : Forall₂ (Alike F) done done')
    (left : Nat) : Simulates E (Level s s') (Alike F) (Level s s')
      (makeFrom call f withIndex done left) (makeFrom call' g withIndex done' left) := by
  induction left generalizing done done' with
  | zero => exact .pure (.list (rel_reverse hd))
  | succ left ih =>
    refine (hc hf ?_).bind fun _ _ hv => ih (.cons hv hd)
    cases withIndex with
    | true =>
      rw [hd.length_eq]
      exact .cons (.number _) .nil
    | false => exact .nil

theorem replicate_alike {v : ValueOf β} {w : ValueOf γ} (h : Alike F v w) (n : Nat) :
    Forall₂ (Alike F) (replicate n v) (replicate n w) := by
  induction n with
  | zero => exact .nil
  | succ n ih => exact .cons h ih

theorem listMake_simulates (hE : ∀ failure, failure.isInternal = false → E failure) (hF : Respects F)
    (hc : CallbacksAlike E F s s' call call') (h : Forall₂ (Alike F) args args')
    (hn : 2 ≤ args.length) : Simulates E (Level s s') (Alike F) (Level s s')
      (listMake call (Eval.fail frames span) args) (listMake call' (Eval.fail frames span) args') := by
  refine (orFail_simulates hE (number_alike h (by omega))).bind fun x _ hx => ?_
  subst hx
  split
  · refine (orFail_simulates hE (argument_alike h (by omega))).bind fun v w hv => ?_
    have hr := replicate_alike hv x.toUInt64.toNat
    cases hv with
    | lambda hf =>
      simp only
      rw [hF.parameterCount? hf]
      exact makeFrom_simulates hc hf _ .nil _
    | _ => exact .pure (.list hr)
  · exact .fail (hE _ rfl)

end

end Library

theorem Native.run_simulates {E : Faults} {F : LambdaOf β → LambdaOf γ → Prop}
    {s : Array (ValueOf β)} {s' : Array (ValueOf γ)} {call : Library.Callback β}
    {call' : Library.Callback γ} {run run' : Run} {args : List (ValueOf β)}
    {args' : List (ValueOf γ)} (hE : ∀ failure, failure.isInternal = false → E failure)
    (hF : Respects F) (henv : run.environment = run'.environment)
    (hc : CallbacksAlike E F s s' call call') (frames : List Frame) (span : Span) (f : Native)
    (h : Forall₂ (Alike F) args args') (hn : f.arity.Accepts args.length) :
    Simulates E (Level s s') (Alike F) (Level s s') (f.run run call frames span args)
      (f.run run' call' frames span args') := by
  have hdoes := f.does_alike hF run.environment h hn
  unfold Native.run
  rw [← henv]
  cases hdoes with
  | result hxy hx hy =>
    rw [hx, hy]
    exact .ofExcept hE hxy
  | draw hxy hx hy =>
    rw [hx, hy]
    exact .draw hE hxy
  | calls hcaller =>
    simp only [Native.callers, mem_cons, not_mem_nil, or_false] at hcaller
    rcases hcaller with rfl | rfl | rfl | rfl
    · exact Library.listMap_simulates hE hF hc h hn.le
    · exact Library.listFilter_simulates hE hc h hn.le
    · exact Library.listReduce_simulates hE hc h hn.le
    · exact Library.listMake_simulates hE hF hc h hn.le

end Estimation
