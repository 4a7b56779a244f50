import Estimation.Library.Dicts
import Estimation.Library.Lists
import Estimation.Library.Mathematics
import Estimation.Proofs.Alike.Operators

/-!
Functions of lists, dictionaries and numbers give alike results for alike arguments. Functions that
call others are not among these.
-/

namespace Estimation

open List ValueOf

variable {α δ β γ : Type}

namespace Bindings

variable {R : α → δ → Prop} {es fs : Bindings α} {es' fs' : Bindings δ}

theorem insert_alike {v : α} {w : δ} (key : String) (hv : R v w)
    (h : Forall₂ (EntryAlike R) es es') :
    Forall₂ (EntryAlike R) (es.insert key v) (es'.insert key w) := by
  induction h with
  | nil => exact .cons ⟨hv⟩ .nil
  | @cons e e' es es' he hes ih =>
    obtain @⟨k, _, _, he⟩ := he
    simp only [insert]
    split
    · exact .cons ⟨hv⟩ (.cons ⟨he⟩ hes)
    · split
      · exact .cons ⟨hv⟩ hes
      · exact .cons ⟨he⟩ ih

theorem merge_alike (h : Forall₂ (EntryAlike R) es es') (h' : Forall₂ (EntryAlike R) fs fs') :
    Forall₂ (EntryAlike R) (es.merge fs) (es'.merge fs') := by
  induction h' generalizing es es' with
  | nil => exact h
  | cons hf _ ih =>
    obtain ⟨hf⟩ := hf
    exact ih (insert_alike _ hf h)

end Bindings

namespace Library

variable {F : LambdaOf β → LambdaOf γ → Prop} {args : List (ValueOf β)} {args' : List (ValueOf γ)}

/-! ### Lists -/

theorem listLength_alike (h : Forall₂ (Alike F) args args') (hn : 1 ≤ args.length) :
    ResultAlike (Alike F) (listLength args) (listLength args') :=
  (list_alike h (by omega)).bind fun _ _ hvs => .ok (hvs.length_eq ▸ .number _)

theorem listFirst_alike (h : Forall₂ (Alike F) args args') (hn : 1 ≤ args.length) :
    ResultAlike (Alike F) (listFirst args) (listFirst args') := by
  refine (list_alike h (by omega)).bind fun vs ws hvs => ?_
  cases hvs with
  | nil => exact .error rfl
  | cons hv _ => exact .ok hv

theorem listReverse_alike (h : Forall₂ (Alike F) args args') (hn : 1 ≤ args.length) :
    ResultAlike (Alike F) (listReverse args) (listReverse args') :=
  (list_alike h (by omega)).bind fun _ _ hvs => .ok (.list (rel_reverse hvs))

theorem listLast_alike (h : Forall₂ (Alike F) args args') (hn : 1 ≤ args.length) :
    ResultAlike (Alike F) (listLast args) (listLast args') := by
  refine (list_alike h (by omega)).bind fun vs ws hvs => ?_
  have hr := rel_reverse hvs
  simp only [getLast?_eq_head?_reverse]
  generalize vs.reverse = us at hr
  generalize ws.reverse = us' at hr
  cases hr with
  | nil => exact .error rfl
  | cons hv _ => exact .ok hv

theorem sumFrom_alike {vs : List (ValueOf β)} {ws : List (ValueOf γ)}
    (h : Forall₂ (Alike F) vs ws) (total : Float) :
    ResultAlike Eq (sumFrom total vs) (sumFrom total ws) := by
  induction h generalizing total with
  | nil => exact .ok rfl
  | cons hv _ ih => exact (asNumber_alike hv).bind fun x _ hx => hx ▸ ih _

theorem listSum_alike (h : Forall₂ (Alike F) args args') (hn : 1 ≤ args.length) :
    ResultAlike (Alike F) (listSum args) (listSum args') :=
  (list_alike h (by omega)).bind fun _ _ hvs =>
    (sumFrom_alike hvs 0).bind fun _ _ hx => .ok (hx ▸ .number _)

theorem listConcat_alike (h : Forall₂ (Alike F) args args') (hn : 2 ≤ args.length) :
    ResultAlike (Alike F) (listConcat args) (listConcat args') :=
  (list_alike h (by omega)).bind fun _ _ hvs =>
    (list_alike h (by omega)).bind fun _ _ hws => .ok (.list (rel_append hvs hws))

theorem numbers_alike {α : Type} (f : α → Float) (xs : List α) :
    Forall₂ (Alike F) (xs.map fun x => .number (f x)) (xs.map fun x => .number (f x)) :=
  forall₂_map_left_iff.2 (forall₂_map_right_iff.2 (forall₂_same.2 fun x _ => .number (f x)))

theorem listUpTo_alike (h : Forall₂ (Alike F) args args') (hn : 2 ≤ args.length) :
    ResultAlike (Alike F) (listUpTo args) (listUpTo args') := by
  refine (integer_alike h (by omega)).bind fun low _ hl =>
    (integer_alike h (by omega)).bind fun high _ hh => ?_
  subst hl hh
  simp only
  split
  · exact .error rfl
  · exact .ok (.list (numbers_alike _ _))

/-! ### Dictionaries -/

theorem dictKeys_alike (h : Forall₂ (Alike F) args args') (hn : 1 ≤ args.length) :
    ResultAlike (Alike F) (dictKeys args) (dictKeys args') := by
  refine (dict_alike h (by omega)).bind fun es fs hes => .ok (.list ?_)
  refine forall₂_map_left_iff.2 (forall₂_map_right_iff.2 (hes.imp fun e f he => ?_))
  obtain ⟨-⟩ := he
  exact .string _

theorem dictValues_alike (h : Forall₂ (Alike F) args args') (hn : 1 ≤ args.length) :
    ResultAlike (Alike F) (dictValues args) (dictValues args') := by
  refine (dict_alike h (by omega)).bind fun es fs hes => .ok (.list ?_)
  refine forall₂_map_left_iff.2 (forall₂_map_right_iff.2 (hes.imp fun e f he => ?_))
  obtain ⟨he⟩ := he
  exact he

theorem dictHas_alike (h : Forall₂ (Alike F) args args') (hn : 2 ≤ args.length) :
    ResultAlike (Alike F) (dictHas args) (dictHas args') := by
  refine (dict_alike h (by omega)).bind fun es fs hes =>
    (string_alike h (by omega)).bind fun key _ hk => ?_
  subst hk
  have hget := get?_alike hes key
  generalize Bindings.get? key es = a at hget ⊢
  generalize Bindings.get? key fs = b at hget ⊢
  cases hget <;> exact .ok (.bool _)

theorem dictSet_alike (h : Forall₂ (Alike F) args args') (hn : 3 ≤ args.length) :
    ResultAlike (Alike F) (dictSet args) (dictSet args') := by
  refine (dict_alike h (by omega)).bind fun es fs hes =>
    (string_alike h (by omega)).bind fun key _ hk =>
      (argument_alike h (by omega)).bind fun v w hv => ?_
  subst hk
  exact .ok (.dict (Bindings.insert_alike key hv hes))

theorem dictMerge_alike (h : Forall₂ (Alike F) args args') (hn : 2 ≤ args.length) :
    ResultAlike (Alike F) (dictMerge args) (dictMerge args') :=
  (dict_alike h (by omega)).bind fun _ _ hes =>
    (dict_alike h (by omega)).bind fun _ _ hfs => .ok (.dict (Bindings.merge_alike hes hfs))

/-! ### Numbers -/

theorem function_alike (f : Float → Float) (h : Forall₂ (Alike F) args args')
    (hn : 1 ≤ args.length) : ResultAlike (Alike F) (function f args) (function f args') :=
  (number_alike h (by omega)).bind fun _ _ hx => .ok (hx ▸ .number _)

theorem squareRoot_alike (h : Forall₂ (Alike F) args args') (hn : 1 ≤ args.length) :
    ResultAlike (Alike F) (squareRoot args) (squareRoot args') := by
  refine (number_alike h (by omega)).bind fun x _ hx => ?_
  subst hx
  split
  · exact .error rfl
  · exact .ok (.number _)

theorem logarithm_alike (f : Float → Float) (h : Forall₂ (Alike F) args args')
    (hn : 1 ≤ args.length) : ResultAlike (Alike F) (logarithm f args) (logarithm f args') := by
  refine (number_alike h (by omega)).bind fun x _ hx => ?_
  subst hx
  split
  · exact .error rfl
  · exact .ok (.number _)

theorem extremumOf_alike (pick : Float → Float → Float) {vs : List (ValueOf β)}
    {ws : List (ValueOf γ)} (h : Forall₂ (Alike F) vs ws) (best : Option Float) :
    ResultAlike (Alike F) (extremumOf pick best vs) (extremumOf pick best ws) := by
  induction h generalizing best with
  | nil =>
    cases best with
    | none => exact .error rfl
    | some x => exact .ok (.number x)
  | cons hv _ ih => exact (asNumber_alike hv).bind fun x _ hx => hx ▸ ih _

theorem extremum_alike (pick : Float → Float → Float) (h : Forall₂ (Alike F) args args')
    (hn : 1 ≤ args.length) : ResultAlike (Alike F) (extremum pick args) (extremum pick args') := by
  simp only [extremum, ← h.length_eq]
  split
  · exact (number_alike h (by omega)).bind fun _ _ hx =>
      (number_alike h (by omega)).bind fun _ _ hy => .ok (hx ▸ hy ▸ .number _)
  · exact (list_alike h (by omega)).bind fun _ _ hvs => extremumOf_alike pick hvs none

end Library

end Estimation
