import Estimation.Evaluation

/-!
Native functions do what they do by the steps that they are given: whatever relates these steps, and
holds of steps in a row if it holds of each, relates what the functions do.
-/

namespace Estimation

variable {β : Type} {M N : Type → Type} [Monad M] [Monad N]

/-- A relation between steps of two kinds that holds of steps in a row if it holds of each. -/
structure Congruence (rel : (α : Type) → M α → N α → Prop) : Prop where
  pure : ∀ {α : Type} (a : α), rel α (pure a) (pure a)
  bind : ∀ {α δ : Type} {x : M α} {y : N α} {k : α → M δ} {l : α → N δ},
    rel α x y → (∀ a, rel δ (k a) (l a)) → rel δ (x >>= k) (y >>= l)

variable {rel : (α : Type) → M α → N α → Prop} (hrel : Congruence rel)
  {call : LambdaOf β → List (ValueOf β) → M (ValueOf β)}
  {call' : LambdaOf β → List (ValueOf β) → N (ValueOf β)}
  {fail : {α : Type} → Failure → M α} {fail' : {α : Type} → Failure → N α}

namespace Library

section

include hrel

theorem orFail_related {α : Type} {fail : Failure → M α} {fail' : Failure → N α}
    (hfail : ∀ failure, rel _ (fail failure) (fail' failure)) (x : Result α) :
    rel _ (orFail fail x) (orFail fail' x) := by
  cases x with
  | ok a => exact hrel.pure a
  | error failure => exact hfail failure

variable (hcall : ∀ f args, rel _ (call f args) (call' f args))
  (hfail : ∀ {α : Type} failure, rel α (fail failure) (fail' failure))

include hcall

theorem mapFrom_related (f : LambdaOf β) (withIndex : Bool) (done : List (ValueOf β)) (n : Nat)
    (vs : List (ValueOf β)) :
    rel _ (mapFrom call f withIndex done n vs) (mapFrom call' f withIndex done n vs) := by
  induction vs generalizing done n with
  | nil => exact hrel.pure _
  | cons v vs ih => exact hrel.bind (hcall _ _) fun _ => ih _ _

theorem reduceFrom_related (f : LambdaOf β) (v : ValueOf β) (items : List (ValueOf β)) :
    rel _ (reduceFrom call f v items) (reduceFrom call' f v items) := by
  induction items generalizing v with
  | nil => exact hrel.pure _
  | cons item items ih => exact hrel.bind (hcall _ _) fun _ => ih _

theorem makeFrom_related (f : LambdaOf β) (withIndex : Bool) (done : List (ValueOf β)) (left : Nat) :
    rel _ (makeFrom call f withIndex done left) (makeFrom call' f withIndex done left) := by
  induction left generalizing done with
  | zero => exact hrel.pure _
  | succ left ih => exact hrel.bind (hcall _ _) fun _ => ih _

include hfail

theorem filterFrom_related (f : LambdaOf β) (kept vs : List (ValueOf β)) :
    rel _ (filterFrom call fail f kept vs) (filterFrom call' fail' f kept vs) := by
  induction vs generalizing kept with
  | nil => exact hrel.pure _
  | cons v vs ih =>
    refine hrel.bind (hcall _ _) fun w => ?_
    split
    · exact ih _
    · exact ih _
    · exact hfail _

theorem listMap_related (args : List (ValueOf β)) :
    rel _ (listMap call fail args) (listMap call' fail' args) :=
  hrel.bind (orFail_related hrel hfail _) fun _ => hrel.bind (orFail_related hrel hfail _) fun _ =>
    mapFrom_related hrel hcall _ _ _ _ _

theorem listFilter_related (args : List (ValueOf β)) :
    rel _ (listFilter call fail args) (listFilter call' fail' args) :=
  hrel.bind (orFail_related hrel hfail _) fun _ => hrel.bind (orFail_related hrel hfail _) fun _ =>
    filterFrom_related hrel hcall hfail _ _ _

theorem listReduce_related (args : List (ValueOf β)) :
    rel _ (listReduce call fail args) (listReduce call' fail' args) :=
  hrel.bind (orFail_related hrel hfail _) fun _ => hrel.bind (orFail_related hrel hfail _) fun _ =>
    hrel.bind (orFail_related hrel hfail _) fun _ => reduceFrom_related hrel hcall _ _ _

theorem listMake_related (args : List (ValueOf β)) :
    rel _ (listMake call fail args) (listMake call' fail' args) := by
  refine hrel.bind (orFail_related hrel hfail _) fun count => ?_
  split
  · refine hrel.bind (orFail_related hrel hfail _) fun v => ?_
    split
    · exact makeFrom_related hrel hcall _ _ _ _
    · exact hrel.pure _
  · exact hfail _

end

end Library

include hrel in
theorem Native.steps_related {result : Library.Result (ValueOf β) → M (ValueOf β)}
    {result' : Library.Result (ValueOf β) → N (ValueOf β)} {draw : Draw (ValueOf β) → M (ValueOf β)}
    {draw' : Draw (ValueOf β) → N (ValueOf β)} (hcall : ∀ f args, rel _ (call f args) (call' f args))
    (hfail : ∀ {α : Type} failure, rel α (fail failure) (fail' failure))
    (hresult : ∀ x, rel _ (result x) (result' x)) (hdraw : ∀ step, rel _ (draw step) (draw' step))
    (environment : Environment) (g : Native) (args : List (ValueOf β)) :
    rel _ (g.steps environment call fail result draw args)
      (g.steps environment call' fail' result' draw' args) := by
  unfold Native.steps
  cases g with
  | listMap => exact Library.listMap_related hrel hcall hfail args
  | listFilter => exact Library.listFilter_related hrel hcall hfail args
  | listReduce => exact Library.listReduce_related hrel hcall hfail args
  | listMake => exact Library.listMake_related hrel hcall hfail args
  | normal => exact hdraw _
  | lognormal => exact hdraw _
  | uniform => exact hdraw _
  | pointMass => exact hdraw _
  | spread => exact hdraw _
  | sample => exact hdraw _
  | sampleMany => exact hdraw _
  | _ => exact hresult _

end Estimation
