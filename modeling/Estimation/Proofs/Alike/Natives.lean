import Estimation.Library
import Estimation.Proofs.Alike.Distributions

/-!
Functions of the standard library do alike with alike arguments. All but a few, which call functions
that they are given, come to their result by themselves.
-/

namespace Estimation

open List ValueOf

theorem Library.truth_alike {β γ : Type} {F : LambdaOf β → LambdaOf γ → Prop} (f : Bool → Bool)
    {x y : Library.Result Bool} (h : Library.ResultAlike Eq x y) : Library.ResultAlike (Alike F)
      (do return .bool (f (← x))) (do return .bool (f (← y))) :=
  h.bind fun _ _ hb => .ok (hb ▸ .bool _)

theorem Arity.Accepts.le {n count : Nat} (h : (Arity.exactly n).Accepts count) : n ≤ count :=
  Nat.le_of_eq (Eq.symm h)

namespace Native

variable {β γ : Type}

/-- The functions that call functions. -/
def callers : List Native := [.listMap, .listFilter, .listReduce, .listMake]

/-- What a function does with some arguments and with others: come to a result, or draw one. -/
inductive DoesAlike (F : LambdaOf β → LambdaOf γ → Prop) (environment : Environment) (f : Native)
    (args : List (ValueOf β)) (args' : List (ValueOf γ)) : Prop
  | result {x y} (alike : Library.ResultAlike (Alike F) x y)
      (does : ∀ {M : Type → Type} [Monad M] (call : LambdaOf β → List (ValueOf β) → M (ValueOf β))
        (fail : {α : Type} → Failure → M α) (result : Library.Result (ValueOf β) → M (ValueOf β))
        (draw : Draw (ValueOf β) → M (ValueOf β)),
        f.steps environment call fail result draw args = result x := by intros; rfl)
      (does' : ∀ {M : Type → Type} [Monad M] (call : LambdaOf γ → List (ValueOf γ) → M (ValueOf γ))
        (fail : {α : Type} → Failure → M α) (result : Library.Result (ValueOf γ) → M (ValueOf γ))
        (draw : Draw (ValueOf γ) → M (ValueOf γ)),
        f.steps environment call fail result draw args' = result y := by intros; rfl) :
      DoesAlike F environment f args args'
  | draw {x y} (alike : Library.DrawAlike (Alike F) x y)
      (does : ∀ {M : Type → Type} [Monad M] (call : LambdaOf β → List (ValueOf β) → M (ValueOf β))
        (fail : {α : Type} → Failure → M α) (result : Library.Result (ValueOf β) → M (ValueOf β))
        (draw : Draw (ValueOf β) → M (ValueOf β)),
        f.steps environment call fail result draw args = draw x := by intros; rfl)
      (does' : ∀ {M : Type → Type} [Monad M] (call : LambdaOf γ → List (ValueOf γ) → M (ValueOf γ))
        (fail : {α : Type} → Failure → M α) (result : Library.Result (ValueOf γ) → M (ValueOf γ))
        (draw : Draw (ValueOf γ) → M (ValueOf γ)),
        f.steps environment call fail result draw args' = draw y := by intros; rfl) :
      DoesAlike F environment f args args'
  | calls (caller : f ∈ callers) : DoesAlike F environment f args args'

theorem does_alike {F : LambdaOf β → LambdaOf γ → Prop} (hF : Respects F)
    (environment : Environment) (f : Native) {args : List (ValueOf β)} {args' : List (ValueOf γ)}
    (h : Forall₂ (Alike F) args args') (hn : f.arity.Accepts args.length) :
    f.DoesAlike F environment args args' := by
  cases f with
  | add => exact .result (Library.add_alike hF h hn.le)
  | subtract => exact .result (Library.arithmetic_alike _ h hn.le)
  | multiply => exact .result (Library.arithmetic_alike _ h hn.le)
  | divide => exact .result (Library.arithmetic_alike _ h hn.le)
  | power => exact .result (Library.arithmetic_alike _ h hn.le)
  | negate => exact .result (Library.negate_alike h hn.le)
  | equal => exact .result (Library.truth_alike (·) (Library.equal_alike hF h hn.le))
  | unequal => exact .result (Library.truth_alike (!·) (Library.equal_alike hF h hn.le))
  | smaller => exact .result (Library.comparison_alike _ h hn.le)
  | smallerEq => exact .result (Library.comparison_alike _ h hn.le)
  | larger => exact .result (Library.comparison_alike _ h hn.le)
  | largerEq => exact .result (Library.comparison_alike _ h hn.le)
  | both => exact .result (Library.both_alike h hn.le)
  | either => exact .result (Library.either_alike h hn.le)
  | not => exact .result (Library.not_alike h hn.le)
  | atIndex => exact .result (Library.atIndex_alike h hn.le)
  | typeOf => exact .result (Library.typeOf_alike h hn.le)
  | toText => exact .result (Library.toText_alike hF h hn.le)
  | throw => exact .result (Library.throw_alike hF h)
  | listLength => exact .result (Library.listLength_alike h hn.le)
  | listMap => exact .calls (by decide)
  | listFilter => exact .calls (by decide)
  | listReduce => exact .calls (by decide)
  | listUpTo => exact .result (Library.listUpTo_alike h hn.le)
  | listMake => exact .calls (by decide)
  | listFirst => exact .result (Library.listFirst_alike h hn.le)
  | listLast => exact .result (Library.listLast_alike h hn.le)
  | listReverse => exact .result (Library.listReverse_alike h hn.le)
  | listSum => exact .result (Library.listSum_alike h hn.le)
  | listConcat => exact .result (Library.listConcat_alike h hn.le)
  | dictKeys => exact .result (Library.dictKeys_alike h hn.le)
  | dictValues => exact .result (Library.dictValues_alike h hn.le)
  | dictHas => exact .result (Library.dictHas_alike h hn.le)
  | dictSet => exact .result (Library.dictSet_alike h hn.le)
  | dictMerge => exact .result (Library.dictMerge_alike h hn.le)
  | sqrt => exact .result (Library.squareRoot_alike h hn.le)
  | abs => exact .result (Library.function_alike _ h hn.le)
  | floor => exact .result (Library.function_alike _ h hn.le)
  | ceil => exact .result (Library.function_alike _ h hn.le)
  | round => exact .result (Library.function_alike _ h hn.le)
  | exp => exact .result (Library.function_alike _ h hn.le)
  | log => exact .result (Library.logarithm_alike _ h hn.le)
  | log10 => exact .result (Library.logarithm_alike _ h hn.le)
  | min => exact .result (Library.extremum_alike _ h (And.left hn))
  | max => exact .result (Library.extremum_alike _ h (And.left hn))
  | normal => exact .draw (Library.normal_alike _ h hn.le)
  | lognormal => exact .draw (Library.lognormal_alike _ h hn.le)
  | uniform => exact .draw (Library.uniform_alike _ h hn.le)
  | pointMass => exact .draw (Library.pointMass_alike _ h hn.le)
  | spread => exact .draw (Library.spread_alike _ h hn.le)
  | samplesOfList => exact .result (Library.samplesOfList_alike h hn.le)
  | mean => exact .result (Library.mean_alike h hn.le)
  | stdev => exact .result (Library.stdev_alike h hn.le)
  | sample => exact .draw (Library.sample_alike h hn.le)
  | sampleMany => exact .draw (Library.sampleMany_alike h hn.le)
  | quantile => exact .result (Library.quantile_alike h hn.le)
  | samplesToList => exact .result (Library.samplesToList_alike h hn.le)

end Native

end Estimation
