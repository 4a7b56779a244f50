import Estimation.Proofs.Alike.Natives
import Estimation.Proofs.Completeness
import Estimation.Proofs.Drawing

/-!
Functions of the library come to complete values where their arguments are complete, and so is what the
functions come to that they call.
-/

namespace Estimation

open List

/-- Among complete slots a step fails or has a result with a property, and leaves complete slots. -/
def Kept {α : Type} (Q : α → Prop) (step : Eval Code α) : Prop :=
  ∀ m : Machine, (∀ v ∈ m.stack, v.Complete) →
    Meets (fun _ => True) Q (step m).1 ∧ ∀ v ∈ (step m).2.stack, v.Complete

namespace Kept

variable {α β : Type} {P : α → Prop} {Q : β → Prop} {step : Eval Code α} {frames : List Frame} {span : Span}

theorem pure {a : α} (h : P a) : Kept P (pure a) := fun _ hm => ⟨h, hm⟩

theorem fail {failure : Failure} : Kept P (Eval.fail frames span failure) := fun _ hm => ⟨trivial, hm⟩

theorem ofExcept {x : Except Failure α} (hx : Meets (fun _ => True) P x) :
    Kept P (Eval.ofExcept frames span x) := by
  cases x with
  | ok a => exact pure hx
  | error failure => exact fail

theorem draw {step : Draw α} (hstep : Library.Draws (fun _ => True) P step) :
    Kept P (Eval.draw frames span step) := by
  intro m hm
  refine ⟨hstep.run frames span m, ?_⟩
  rw [Eval.draw]
  rcases step m.random with ⟨_ | _, _⟩ <;> exact hm

theorem bind (h : Kept P step) {k : α → Eval Code β} (hk : ∀ a, P a → Kept Q (k a)) :
    Kept Q (step >>= k) := by
  intro m hm
  have hs := h m hm
  rcases hstep : step m with ⟨x, after⟩
  rw [hstep] at hs
  cases x with
  | ok a =>
    rw [Eval.bind_ok hstep]
    exact hk a hs.1 after hs.2
  | error e =>
    rw [Eval.bind_error hstep]
    exact hs

theorem get {k : Machine → Eval Code β}
    (h : ∀ m : Machine, (∀ v ∈ m.stack, v.Complete) → Kept Q (k m)) : Kept Q (get >>= k) :=
  fun m hm => h m hm m hm

theorem mono (h : Kept P step) {P' : α → Prop} (hP : ∀ a, P a → P' a) : Kept P' step :=
  fun m hm => ⟨(h m hm).1.mono hP, (h m hm).2⟩

/-- A step that does not change the slots, whatever it comes to. -/
theorem silent (h : ∀ m, (step m).2.stack = m.stack) : Kept (fun _ => True) step := by
  intro m hm
  refine ⟨?_, by rwa [h m]⟩
  cases (step m).1 <;> trivial

theorem push {run : Run} {v : Value} (hv : v.Complete) :
    Kept (fun _ => True) (Eval.push run frames span v) := by
  intro m hm
  rw [Eval.push_eq]
  split
  · exact ⟨trivial, hm⟩
  · refine ⟨trivial, fun w hw => ?_⟩
    rcases Array.mem_push.1 hw with hw | rfl
    · exact hm w hw
    · exact hv

theorem pushAll {run : Run} {vs : List Value} (hvs : ∀ v ∈ vs, v.Complete) :
    Kept (fun _ => True) (Eval.pushAll run frames span vs) := by
  induction vs with
  | nil => exact pure trivial
  | cons v vs ih =>
    obtain ⟨hv, hrest⟩ := forall_mem_cons.1 hvs
    exact (push hv).bind fun _ _ => ih hrest

theorem shrinkingTo (h : Kept P step) (size : Nat) : Kept P (Eval.shrinkingTo size step) := by
  intro m hm
  obtain ⟨hresult, hafter⟩ := h m hm
  refine ⟨hresult, fun v hv => hafter v ?_⟩
  change v ∈ (step m).2.stack.shrink size at hv
  rw [← Array.mem_toList_iff, Array.toList_shrink] at hv
  exact Array.mem_toList_iff.1 (mem_of_mem_take hv)

end Kept

namespace Library

open ValueOf (Complete)

variable {args vs : List Value} {f : Lambda} {v : Value}

/-- What a function comes to by itself, unless it fails, is complete. -/
abbrev Completes (x : Result Value) : Prop := Meets (fun _ => True) Complete x

namespace Completes

theorem after {α : Type} {x : Result α} {k : α → Result Value} (hk : ∀ a, Completes (k a)) :
    Completes (x >>= k) := by
  cases x with
  | ok a => exact hk a
  | error failure => trivial

end Completes

/-! ### Without arguments in their results -/

theorem arithmetic_complete (op : Float → Float → Float) : Completes (arithmetic op args) := by
  refine .after fun v => .after fun w => ?_
  split
  · exact Complete.number _
  · exact .after fun s => Complete.samples s
  · exact .after fun s => Complete.samples s
  · exact .after fun s => Complete.samples s
  · trivial

theorem add_complete : Completes (add args) := by
  refine .after fun v => .after fun w => ?_
  split
  · exact Complete.string _
  · exact Complete.string _
  · exact arithmetic_complete _

theorem negate_complete : Completes (negate args) := by
  refine .after fun v => ?_
  split
  · exact Complete.number _
  · exact .after fun s => Complete.samples s
  · trivial

theorem truth_complete (x : Result Bool) (g : Bool → Bool) :
    Completes (do return .bool (g (← x))) := .after fun _ => Complete.bool _

theorem comparison_complete (holds : Ordering → Bool) : Completes (comparison holds args) :=
  .after fun _ => Complete.bool _

theorem both_complete : Completes (both args) := by
  refine .after fun b => ?_
  split
  · exact .after fun _ => Complete.bool _
  · exact Complete.bool _

theorem either_complete : Completes (either args) := by
  refine .after fun b => ?_
  split
  · exact Complete.bool _
  · exact .after fun _ => Complete.bool _

theorem typeOf_complete : Completes (typeOf args) := .after fun _ => Complete.string _

theorem toText_complete : Completes (toText args) := .after fun _ => Complete.string _

theorem listLength_complete : Completes (listLength args) := .after fun _ => Complete.number _

theorem listSum_complete : Completes (listSum args) := .after fun _ => .after fun _ => Complete.number _

theorem listUpTo_complete : Completes (listUpTo args) := by
  refine .after fun low => .after fun high => ?_
  split
  · trivial
  · refine Complete.list fun v hv => ?_
    obtain ⟨n, -, rfl⟩ := mem_map.1 hv
    exact .number _

theorem dictKeys_complete : Completes (dictKeys args) := by
  refine .after fun es => Complete.list fun v hv => ?_
  obtain ⟨e, -, rfl⟩ := mem_map.1 hv
  exact .string _

theorem dictHas_complete : Completes (dictHas args) := .after fun _ => .after fun _ => Complete.bool _

theorem function_complete (g : Float → Float) : Completes (function g args) :=
  .after fun _ => Complete.number _

theorem squareRoot_complete : Completes (squareRoot args) := by
  refine .after fun x => ?_
  split
  · trivial
  · exact Complete.number _

theorem logarithm_complete (g : Float → Float) : Completes (logarithm g args) := by
  refine .after fun x => ?_
  split
  · trivial
  · exact Complete.number _

theorem extremumOf_complete (pick : Float → Float → Float) (best : Option Float) :
    Completes (extremumOf pick best vs) := by
  induction vs generalizing best with
  | nil =>
    cases best with
    | none => trivial
    | some x => exact Complete.number x
  | cons v vs ih => exact .after fun x => ih _

theorem extremum_complete (pick : Float → Float → Float) : Completes (extremum pick args) := by
  unfold extremum
  split
  · exact .after fun x => .after fun y => Complete.number _
  · exact .after fun vs => extremumOf_complete pick none

/-! ### Distributions -/

theorem numbers_complete (xs : List Float) : Complete (.list (xs.map .number)) := by
  refine .list fun v hv => ?_
  obtain ⟨x, -, rfl⟩ := mem_map.1 hv
  exact .number x

theorem SetOf.complete {n : Nat} (h : SetOf n v) : v.Complete := by
  obtain ⟨s, rfl, -⟩ := h
  exact .samples s

theorem sample_complete : Draws (fun _ => True) Complete (sample args) :=
  .after fun _ => .after fun _ => .pure (.number _)

theorem sampleMany_complete : Draws (fun _ => True) Complete (sampleMany args) := by
  refine .after fun s => .after fun count => ?_
  split
  · exact .orStop trivial
  · exact .after fun xs => .pure (numbers_complete xs)

theorem samplesOfList_complete : Completes (samplesOfList args) :=
  .after fun _ => .after fun _ => .after fun s => Complete.samples s

theorem mean_complete : Completes (mean args) := .after fun _ => Complete.number _

theorem stdev_complete : Completes (stdev args) := .after fun _ => Complete.number _

theorem quantile_complete : Completes (quantile args) :=
  .after fun _ => .after fun _ => .after fun _ => Complete.number _

theorem samplesToList_complete : Completes (samplesToList args) := .after fun _ => numbers_complete _

/-! ### With arguments in their results -/

section

variable (hargs : ∀ v ∈ args, v.Complete)

include hargs

theorem argument_complete (i : Nat) : Completes (argument args i) := by
  unfold argument
  split
  · next v hv => exact hargs v (mem_of_getElem? hv)
  · trivial

theorem list_complete (i : Nat) : Meets (fun _ => True) (fun vs => ∀ v ∈ vs, v.Complete) (list args i) := by
  refine (argument_complete hargs i).bind fun v hv => ?_
  cases v with
  | list vs => exact hv.items
  | _ => trivial

theorem dict_complete (i : Nat) :
    Meets (fun _ => True) (fun es => ∀ e ∈ es, e.2.Complete) (dict args i) := by
  refine (argument_complete hargs i).bind fun v hv => ?_
  cases v with
  | dict es => exact hv.entries
  | _ => trivial

theorem lambda_complete (i : Nat) :
    Meets (fun _ => True) (fun f => Complete (.lambda f)) (lambda args i) := by
  refine (argument_complete hargs i).bind fun v hv => ?_
  cases v with
  | lambda f => exact hv
  | _ => trivial

theorem atIndex_complete : Completes (atIndex args) := by
  refine (argument_complete hargs 0).bind fun v hv => (argument_complete hargs 1).bind fun w _ => ?_
  split
  · split
    · split
      · next item hitem => exact hv.items item (mem_of_getElem? hitem)
      · trivial
    · trivial
  · split
    · next item hitem => exact hv.entries _ (Table.mem_of_get? (Bindings.get?_eq_get? ▸ hitem))
    · trivial
  · trivial

theorem listFirst_complete : Completes (listFirst args) := by
  refine (list_complete hargs 0).bind fun vs hvs => ?_
  split
  · next v hv => exact hvs v (mem_of_head? hv)
  · trivial

theorem listLast_complete : Completes (listLast args) := by
  refine (list_complete hargs 0).bind fun vs hvs => ?_
  split
  · next v hv => exact hvs v (mem_of_getLast? hv)
  · trivial

theorem listReverse_complete : Completes (listReverse args) :=
  (list_complete hargs 0).bind fun _ hvs => Complete.list fun v hv => hvs v (mem_reverse.1 hv)

theorem listConcat_complete : Completes (listConcat args) :=
  (list_complete hargs 0).bind fun _ hvs => (list_complete hargs 1).bind fun _ hws =>
    Complete.list (forall_mem_append.2 ⟨hvs, hws⟩)

theorem dictValues_complete : Completes (dictValues args) := by
  refine (dict_complete hargs 0).bind fun es hes => Complete.list fun v hv => ?_
  obtain ⟨e, he, rfl⟩ := mem_map.1 hv
  exact hes e he

theorem dictSet_complete : Completes (dictSet args) :=
  (dict_complete hargs 0).bind fun _ hes => Completes.after fun _ => (argument_complete hargs 2).bind fun _ hv =>
    Complete.dict (Bindings.forall_insert hv hes)

theorem dictMerge_complete : Completes (dictMerge args) :=
  (dict_complete hargs 0).bind fun _ hes => (dict_complete hargs 1).bind fun _ hmore =>
    Complete.dict (Bindings.forall_merge hes hmore)

end

/-! ### With functions -/

variable {call : Callback Code} {frames : List Frame} {span : Span}

theorem orFail_kept {α : Type} {P : α → Prop} {x : Result α} (hx : Meets (fun _ => True) P x) :
    Kept P (orFail (Eval.fail frames span) x) := by
  cases x with
  | ok a => exact .pure hx
  | error failure => exact .fail

section

variable (hcall : ∀ f args, Complete (.lambda f) → (∀ v ∈ args, v.Complete) → Kept Complete (call f args))

include hcall

theorem mapFrom_kept (hf : Complete (.lambda f)) (withIndex : Bool) {done : List Value}
    (hdone : ∀ v ∈ done, v.Complete) (n : Nat) (hvs : ∀ v ∈ vs, v.Complete) :
    Kept Complete (mapFrom call f withIndex done n vs) := by
  induction vs generalizing done n with
  | nil => exact .pure (.list fun v hv => hdone v (mem_reverse.1 hv))
  | cons v vs ih =>
    obtain ⟨hv, hvs⟩ := forall_mem_cons.1 hvs
    refine (hcall f _ hf ?_).bind fun w hw => ih (forall_mem_cons.2 ⟨hw, hdone⟩) _ hvs
    cases withIndex with
    | true => exact forall_mem_cons.2 ⟨hv, forall_mem_singleton.2 (.number _)⟩
    | false => exact forall_mem_singleton.2 hv

theorem filterFrom_kept (hf : Complete (.lambda f)) {kept : List Value} (hkept : ∀ v ∈ kept, v.Complete)
    (hvs : ∀ v ∈ vs, v.Complete) :
    Kept Complete (filterFrom call (Eval.fail frames span) f kept vs) := by
  induction vs generalizing kept with
  | nil => exact .pure (.list fun v hv => hkept v (mem_reverse.1 hv))
  | cons v vs ih =>
    obtain ⟨hv, hvs⟩ := forall_mem_cons.1 hvs
    refine (hcall f _ hf (forall_mem_singleton.2 hv)).bind fun w _ => ?_
    split
    · exact ih (forall_mem_cons.2 ⟨hv, hkept⟩) hvs
    · exact ih hkept hvs
    · exact .fail

theorem reduceFrom_kept (hf : Complete (.lambda f)) (hv : v.Complete) (hvs : ∀ v ∈ vs, v.Complete) :
    Kept Complete (reduceFrom call f v vs) := by
  induction vs generalizing v with
  | nil => exact .pure hv
  | cons item vs ih =>
    obtain ⟨hitem, hvs⟩ := forall_mem_cons.1 hvs
    exact (hcall f _ hf (forall_mem_cons.2 ⟨hv, forall_mem_singleton.2 hitem⟩)).bind
      fun w hw => ih hw hvs

theorem makeFrom_kept (hf : Complete (.lambda f)) (withIndex : Bool) {done : List Value}
    (hdone : ∀ v ∈ done, v.Complete) (left : Nat) :
    Kept Complete (makeFrom call f withIndex done left) := by
  induction left generalizing done with
  | zero => exact .pure (.list fun v hv => hdone v (mem_reverse.1 hv))
  | succ left ih =>
    refine (hcall f _ hf ?_).bind fun w hw => ih (forall_mem_cons.2 ⟨hw, hdone⟩)
    cases withIndex with
    | true => exact forall_mem_singleton.2 (.number _)
    | false => exact forall_mem_nil _

variable (hargs : ∀ v ∈ args, v.Complete)

include hargs

theorem listMap_kept : Kept Complete (listMap call (Eval.fail frames span) args) :=
  (orFail_kept (list_complete hargs 0)).bind fun _ hvs =>
    (orFail_kept (lambda_complete hargs 1)).bind fun _ hf =>
      mapFrom_kept hcall hf _ (forall_mem_nil _) 0 hvs

theorem listFilter_kept : Kept Complete (listFilter call (Eval.fail frames span) args) :=
  (orFail_kept (list_complete hargs 0)).bind fun _ hvs =>
    (orFail_kept (lambda_complete hargs 1)).bind fun _ hf =>
      filterFrom_kept hcall hf (forall_mem_nil _) hvs

theorem listReduce_kept : Kept Complete (listReduce call (Eval.fail frames span) args) :=
  (orFail_kept (list_complete hargs 0)).bind fun _ hvs =>
    (orFail_kept (argument_complete hargs 1)).bind fun _ hv =>
      (orFail_kept (lambda_complete hargs 2)).bind fun _ hf => reduceFrom_kept hcall hf hv hvs

theorem listMake_kept : Kept Complete (listMake call (Eval.fail frames span) args) := by
  have hnumber : Meets (fun _ => True) (fun _ => True) (number args 0) := by
    cases number args 0 <;> trivial
  refine (orFail_kept hnumber).bind fun count _ => ?_
  split
  · refine (orFail_kept (argument_complete hargs 1)).bind fun v hv => ?_
    split
    · exact makeFrom_kept hcall hv _ (forall_mem_nil _) _
    · exact .pure (.list fun w hw => (mem_replicate.1 hw).2 ▸ hv)
  · exact .fail

end

end Library

/-- A function of the library that is given complete arguments comes to a complete value. -/
theorem Native.run_kept {run : Run} {call : Library.Callback Code} {frames : List Frame} {span : Span}
    (hcall : ∀ f args, ValueOf.Complete (.lambda f) → (∀ v ∈ args, v.Complete) →
      Kept ValueOf.Complete (call f args)) (g : Native) {args : List Value}
    (hargs : ∀ v ∈ args, v.Complete) : Kept ValueOf.Complete (g.run run call frames span args) := by
  unfold Native.run
  cases g with
  | add => exact .ofExcept Library.add_complete
  | subtract => exact .ofExcept (Library.arithmetic_complete _)
  | multiply => exact .ofExcept (Library.arithmetic_complete _)
  | divide => exact .ofExcept (Library.arithmetic_complete _)
  | power => exact .ofExcept (Library.arithmetic_complete _)
  | negate => exact .ofExcept Library.negate_complete
  | equal => exact .ofExcept (Library.truth_complete _ id)
  | unequal => exact .ofExcept (Library.truth_complete _ (!·))
  | smaller => exact .ofExcept (Library.comparison_complete _)
  | smallerEq => exact .ofExcept (Library.comparison_complete _)
  | larger => exact .ofExcept (Library.comparison_complete _)
  | largerEq => exact .ofExcept (Library.comparison_complete _)
  | both => exact .ofExcept Library.both_complete
  | either => exact .ofExcept Library.either_complete
  | not => exact .ofExcept (Library.truth_complete _ (!·))
  | atIndex => exact .ofExcept (Library.atIndex_complete hargs)
  | typeOf => exact .ofExcept Library.typeOf_complete
  | toText => exact .ofExcept Library.toText_complete
  | throw => exact .ofExcept trivial
  | listLength => exact .ofExcept Library.listLength_complete
  | listMap => exact Library.listMap_kept hcall hargs
  | listFilter => exact Library.listFilter_kept hcall hargs
  | listReduce => exact Library.listReduce_kept hcall hargs
  | listUpTo => exact .ofExcept Library.listUpTo_complete
  | listMake => exact Library.listMake_kept hcall hargs
  | listFirst => exact .ofExcept (Library.listFirst_complete hargs)
  | listLast => exact .ofExcept (Library.listLast_complete hargs)
  | listReverse => exact .ofExcept (Library.listReverse_complete hargs)
  | listSum => exact .ofExcept Library.listSum_complete
  | listConcat => exact .ofExcept (Library.listConcat_complete hargs)
  | dictKeys => exact .ofExcept Library.dictKeys_complete
  | dictValues => exact .ofExcept (Library.dictValues_complete hargs)
  | dictHas => exact .ofExcept Library.dictHas_complete
  | dictSet => exact .ofExcept (Library.dictSet_complete hargs)
  | dictMerge => exact .ofExcept (Library.dictMerge_complete hargs)
  | sqrt => exact .ofExcept Library.squareRoot_complete
  | abs => exact .ofExcept (Library.function_complete _)
  | floor => exact .ofExcept (Library.function_complete _)
  | ceil => exact .ofExcept (Library.function_complete _)
  | round => exact .ofExcept (Library.function_complete _)
  | exp => exact .ofExcept (Library.function_complete _)
  | log => exact .ofExcept (Library.logarithm_complete _)
  | log10 => exact .ofExcept (Library.logarithm_complete _)
  | min => exact .ofExcept (Library.extremum_complete _)
  | max => exact .ofExcept (Library.extremum_complete _)
  | normal => exact .draw ((Library.normal_draws _).mono fun _ => Library.SetOf.complete)
  | lognormal => exact .draw ((Library.lognormal_draws _).mono fun _ => Library.SetOf.complete)
  | uniform => exact .draw ((Library.uniform_draws _).mono fun _ => Library.SetOf.complete)
  | pointMass => exact .draw ((Library.pointMass_draws _).mono fun _ => Library.SetOf.complete)
  | spread => exact .draw ((Library.spread_draws _).mono fun _ => Library.SetOf.complete)
  | samplesOfList => exact .ofExcept Library.samplesOfList_complete
  | mean => exact .ofExcept Library.mean_complete
  | stdev => exact .ofExcept Library.stdev_complete
  | sample => exact .draw Library.sample_complete
  | sampleMany => exact .draw Library.sampleMany_complete
  | quantile => exact .ofExcept Library.quantile_complete
  | samplesToList => exact .ofExcept Library.samplesToList_complete

end Estimation
