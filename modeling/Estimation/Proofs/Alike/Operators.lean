import Estimation.Compilation
import Estimation.Library.Operators
import Estimation.Proofs.Alike

/-!
Operators give alike results for alike operands, and the arguments that functions of the library ask
for are there where their number is right.
-/

namespace Estimation.Library

open List ValueOf

variable {α δ α' δ' β γ : Type}

inductive ResultAlike (R : α → δ → Prop) : Result α → Result δ → Prop
  | ok {a b} : R a b → ResultAlike R (.ok a) (.ok b)
  | error {e : Failure} : e.isInternal = false → ResultAlike R (.error e) (.error e)

namespace ResultAlike

variable {R : α → δ → Prop} {S : α' → δ' → Prop} {x : Result α} {y : Result δ}

theorem bind (h : ResultAlike R x y) {k : α → Result α'} {l : δ → Result δ'}
    (hk : ∀ a b, R a b → ResultAlike S (k a) (l b)) : ResultAlike S (x >>= k) (y >>= l) := by
  cases h with
  | ok h => exact hk _ _ h
  | error h => exact .error h

theorem refl {x : Result α} (h : ∀ e, x = .error e → e.isInternal = false) : ResultAlike Eq x x := by
  cases x with
  | ok a => exact .ok rfl
  | error e => exact .error (h e rfl)

end ResultAlike

variable {F : LambdaOf β → LambdaOf γ → Prop} {args : List (ValueOf β)} {args' : List (ValueOf γ)}
  {v : ValueOf β} {w : ValueOf γ} {i : Nat}

/-! ### Arguments -/

theorem argument_alike (h : Forall₂ (Alike F) args args') (hi : i < args.length) :
    ResultAlike (Alike F) (argument args i) (argument args' i) := by
  have hi' : i < args'.length := h.length_eq ▸ hi
  simp only [argument, getElem?_eq_getElem hi, getElem?_eq_getElem hi']
  exact .ok (h.get hi hi')

theorem asNumber_alike (h : Alike F v w) : ResultAlike Eq (asNumber v) (asNumber w) := by
  cases h with
  | number x => exact .ok rfl
  | _ => exact .error rfl

theorem asBool_alike (h : Alike F v w) : ResultAlike Eq (asBool v) (asBool w) := by
  cases h with
  | bool b => exact .ok rfl
  | _ => exact .error rfl

theorem number_alike (h : Forall₂ (Alike F) args args') (hi : i < args.length) :
    ResultAlike Eq (number args i) (number args' i) :=
  (argument_alike h hi).bind fun _ _ hv => asNumber_alike hv

theorem bool_alike (h : Forall₂ (Alike F) args args') (hi : i < args.length) :
    ResultAlike Eq (bool args i) (bool args' i) :=
  (argument_alike h hi).bind fun _ _ hv => asBool_alike hv

theorem string_alike (h : Forall₂ (Alike F) args args') (hi : i < args.length) :
    ResultAlike Eq (string args i) (string args' i) := by
  refine (argument_alike h hi).bind fun v w hv => ?_
  cases hv with
  | string s => exact .ok rfl
  | _ => exact .error rfl

theorem list_alike (h : Forall₂ (Alike F) args args') (hi : i < args.length) :
    ResultAlike (Forall₂ (Alike F)) (list args i) (list args' i) := by
  refine (argument_alike h hi).bind fun v w hv => ?_
  cases hv with
  | list hvs => exact .ok hvs
  | _ => exact .error rfl

theorem dict_alike (h : Forall₂ (Alike F) args args') (hi : i < args.length) :
    ResultAlike (Forall₂ (EntryAlike (Alike F))) (dict args i) (dict args' i) := by
  refine (argument_alike h hi).bind fun v w hv => ?_
  cases hv with
  | dict hes => exact .ok hes
  | _ => exact .error rfl

theorem lambda_alike (h : Forall₂ (Alike F) args args') (hi : i < args.length) :
    ResultAlike F (lambda args i) (lambda args' i) := by
  refine (argument_alike h hi).bind fun v w hv => ?_
  cases hv with
  | lambda hf => exact .ok hf
  | _ => exact .error rfl

theorem ofList_refl (xs : List Float) : ResultAlike Eq (Samples.ofList xs) (Samples.ofList xs) := by
  refine .refl fun e he => ?_
  unfold Samples.ofList at he
  split at he
  · cases he; rfl
  · split at he <;> cases he
    rfl

theorem samples_alike (h : Forall₂ (Alike F) args args') (hi : i < args.length) :
    ResultAlike Eq (samples args i) (samples args' i) := by
  refine (argument_alike h hi).bind fun v w hv => ?_
  cases hv with
  | samples s => exact .ok rfl
  | number x => exact ofList_refl [x]
  | _ => exact .error rfl

theorem integer_alike (h : Forall₂ (Alike F) args args') (hi : i < args.length) :
    ResultAlike Eq (integer args i) (integer args' i) := by
  refine (number_alike h hi).bind fun x _ hx => ?_
  subst hx
  refine .refl fun e he => ?_
  split at he <;> cases he
  rfl

/-! ### Operators -/

theorem arithmetic_alike (op : Float → Float → Float) (h : Forall₂ (Alike F) args args')
    (hn : 2 ≤ args.length) : ResultAlike (Alike F) (arithmetic op args) (arithmetic op args') := by
  refine (argument_alike h (by omega)).bind fun v w hv =>
    (argument_alike h (by omega)).bind fun v' w' hv' => ?_
  cases hv with
  | number x =>
    cases hv' with
    | number y => exact .ok (.number _)
    | samples t => exact (ofList_refl _).bind fun _ _ hs => .ok (hs ▸ .samples _)
    | _ => exact .error rfl
  | samples s =>
    cases hv' with
    | number y => exact (ofList_refl _).bind fun _ _ hs => .ok (hs ▸ .samples _)
    | samples t => exact (ofList_refl _).bind fun _ _ hs => .ok (hs ▸ .samples _)
    | _ => exact .error rfl
  | _ => cases hv' <;> exact .error rfl

theorem add_alike (hF : Respects F) (h : Forall₂ (Alike F) args args') (hn : 2 ≤ args.length) :
    ResultAlike (Alike F) (add args) (add args') := by
  refine (argument_alike h (by omega)).bind fun v w hv =>
    (argument_alike h (by omega)).bind fun v' w' hv' => ?_
  have hp := hv.plainText_eq hF
  have hp' := hv'.plainText_eq hF
  cases hv with
  | string s =>
    simp only [hp']
    exact .ok (.string _)
  | _ =>
    cases hv' with
    | string t =>
      simp only [hp]
      exact .ok (.string _)
    | _ => exact arithmetic_alike _ h hn

theorem negate_alike (h : Forall₂ (Alike F) args args') (hn : 1 ≤ args.length) :
    ResultAlike (Alike F) (negate args) (negate args') := by
  refine (argument_alike h (by omega)).bind fun v w hv => ?_
  cases hv with
  | number x => exact .ok (.number _)
  | samples s => exact (ofList_refl _).bind fun _ _ hs => .ok (hs ▸ .samples _)
  | _ => exact .error rfl

theorem order_alike (h : Forall₂ (Alike F) args args') (hn : 2 ≤ args.length) :
    ResultAlike Eq (order args) (order args') := by
  refine (argument_alike h (by omega)).bind fun v w hv =>
    (argument_alike h (by omega)).bind fun v' w' hv' => ?_
  cases hv with
  | number x =>
    cases hv' with
    | number y =>
      simp only
      split
      · exact .ok rfl
      · split
        · exact .ok rfl
        · split
          · exact .ok rfl
          · exact .error rfl
    | _ => exact .error rfl
  | string s =>
    cases hv' with
    | string t => exact .ok rfl
    | _ => exact .error rfl
  | _ => cases hv' <;> exact .error rfl

theorem comparison_alike (holds : Ordering → Bool) (h : Forall₂ (Alike F) args args')
    (hn : 2 ≤ args.length) : ResultAlike (Alike F) (comparison holds args) (comparison holds args') :=
  (order_alike h hn).bind fun _ _ ho => .ok (ho ▸ .bool _)

theorem equal_alike (hF : Respects F) (h : Forall₂ (Alike F) args args') (hn : 2 ≤ args.length) :
    ResultAlike Eq (equal args) (equal args') :=
  (argument_alike h (by omega)).bind fun _ _ hv =>
    (argument_alike h (by omega)).bind fun _ _ hv' => .ok (hv.equal_eq hF hv')

theorem both_alike (h : Forall₂ (Alike F) args args') (hn : 2 ≤ args.length) :
    ResultAlike (Alike F) (both args) (both args') := by
  refine (bool_alike h (by omega)).bind fun b _ hb => ?_
  subst hb
  cases b with
  | false => exact .ok (.bool _)
  | true => exact (bool_alike h (by omega)).bind fun _ _ hc => .ok (hc ▸ .bool _)

theorem either_alike (h : Forall₂ (Alike F) args args') (hn : 2 ≤ args.length) :
    ResultAlike (Alike F) (either args) (either args') := by
  refine (bool_alike h (by omega)).bind fun b _ hb => ?_
  subst hb
  cases b with
  | true => exact .ok (.bool _)
  | false => exact (bool_alike h (by omega)).bind fun _ _ hc => .ok (hc ▸ .bool _)

theorem not_alike (h : Forall₂ (Alike F) args args') (hn : 1 ≤ args.length) :
    ResultAlike (Alike F) (not args) (not args') :=
  (bool_alike h (by omega)).bind fun _ _ hb => .ok (hb ▸ .bool _)

theorem get?_alike {α δ : Type} {R : α → δ → Prop} {es : Bindings α} {fs : Bindings δ}
    (h : Forall₂ (EntryAlike R) es fs) (key : String) :
    Option.Rel R (es.get? key) (fs.get? key) := by
  induction h with
  | nil => exact .none
  | cons h hs ih =>
    obtain ⟨h⟩ := h
    simp only [Bindings.get?]
    split
    · exact .some h
    · exact ih

theorem libraryValue?_alike (hF : Respects F) (name : String) : Option.Rel (Alike F)
    (Compilation.libraryValue? name) (Compilation.libraryValue? name) := by
  unfold Compilation.libraryValue?
  cases Native.ofName? name with
  | some f => exact .some (.lambda (hF.native f))
  | none =>
    cases Constant.ofName? name with
    | some c => exact .some (.number _)
    | none => exact .none

theorem atIndex_alike (h : Forall₂ (Alike F) args args') (hn : 2 ≤ args.length) :
    ResultAlike (Alike F) (atIndex args) (atIndex args') := by
  refine (argument_alike h (by omega)).bind fun v w hv =>
    (argument_alike h (by omega)).bind fun v' w' hv' => ?_
  cases hv with
  | @list vs ws hvs =>
    cases hv' with
    | number x =>
      simp only
      split
      · by_cases hx : x.toUInt64.toNat < vs.length
        · have hx' := hvs.length_eq ▸ hx
          simp only [getElem?_eq_getElem hx, getElem?_eq_getElem hx']
          exact .ok (hvs.get hx hx')
        · have hx' := hvs.length_eq ▸ hx
          simp only [getElem?_eq_none (Nat.le_of_not_lt hx), getElem?_eq_none (Nat.le_of_not_lt hx'),
            hvs.length_eq]
          exact .error rfl
      · exact .error rfl
    | _ => exact .error rfl
  | dict hes =>
    cases hv' with
    | string key =>
      have hget := get?_alike hes key
      revert hget
      simp only
      generalize Bindings.get? key _ = a
      generalize Bindings.get? key _ = b
      intro hget
      cases hget with
      | none => exact .error rfl
      | some h => exact .ok h
    | _ => exact .error rfl
  | _ => cases hv' <;> exact .error rfl

theorem typeOf_alike (h : Forall₂ (Alike F) args args') (hn : 1 ≤ args.length) :
    ResultAlike (Alike F) (typeOf args) (typeOf args') :=
  (argument_alike h (by omega)).bind fun _ _ hv => .ok (hv.typeName_eq ▸ .string _)

theorem toText_alike (hF : Respects F) (h : Forall₂ (Alike F) args args') (hn : 1 ≤ args.length) :
    ResultAlike (Alike F) (toText args) (toText args') :=
  (argument_alike h (by omega)).bind fun _ _ hv => .ok (hv.plainText_eq hF ▸ .string _)

theorem throw_alike (hF : Respects F) (h : Forall₂ (Alike F) args args') :
    ResultAlike (Alike F) (throw args) (throw args') := by
  cases h with
  | nil => exact .error rfl
  | cons h hs =>
    simp only [throw, head?_cons, Option.map_some, h.plainText_eq hF]
    exact .error rfl

end Estimation.Library
