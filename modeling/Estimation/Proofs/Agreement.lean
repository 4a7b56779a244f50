import Estimation.Proofs.Lowering
import Estimation.Proofs.Naming
import Estimation.Proofs.Steps.Code

/-!
Code and the meaning of names agree. A closure of names agrees with one of code if its body was
lowered among the names that it kept, and the captured values are those of the captured names.
Closures of other programs may be admitted as they are; of these nothing is known but their code.
-/

namespace Estimation

open List

inductive Agrees (foreign : Prop) : LambdaOf Source → Lambda → Prop
  | native (f) : Agrees foreign (.native f) (.native f)
  | source {around ext externals captured vs ws parameters body code} (i name span) :
      Forall₂ (EntryAlike (ValueOf.Alike (Agrees foreign))) ext externals →
      Syntax.Expr.Lowered externals (around.map Prod.fst) captured (parameters.map Parameter.name)
        body code →
      Forall₂ (fun name v => Bindings.get? name around = some v) captured vs →
      Forall₂ (ValueOf.Alike (Agrees foreign)) vs ws →
      Agrees foreign
        (.closure i name parameters ((around ++ ext).map Prod.snd)
          (.expr ((around ++ ext).map Prod.fst) body) span)
        (.closure i name parameters ws code span)
  | code {vs ws c d} (i name parameters span) : foreign →
      Forall₂ (ValueOf.Alike (Agrees foreign)) vs ws → Code.Alike Eq c d →
      Agrees foreign (.closure i name parameters vs (.code c) span)
        (.closure i name parameters ws d span)

namespace Agrees

variable {foreign : Prop} {f : LambdaOf Source} {g : Lambda}

theorem same_eq {f' : LambdaOf Source} {g' : Lambda} (h : Agrees foreign f g)
    (h' : Agrees foreign f' g') : f.same f' = g.same g' := by
  cases h <;> cases h' <;> rfl

theorem respects : Respects (Agrees foreign) where
  native := .native
  shape h := by
    cases h with
    | native f => exact .inl ⟨f, rfl, rfl⟩
    | source i name span _ _ _ _ => exact .inr ⟨i, i, name, _, _, _, _, _, span, rfl, rfl⟩
    | code i name parameters span _ _ _ =>
      exact .inr ⟨i, i, name, parameters, _, _, _, _, span, rfl, rfl⟩
  same := same_eq

end Agrees

namespace Bindings

variable {α : Type} {name : String} {xs ys : List (String × α)}

theorem get?_append : get? name (xs ++ ys) = (get? name xs).or (get? name ys) := by
  induction xs with
  | nil => rfl
  | cons x xs ih =>
    simp only [cons_append, get?]
    split
    · rfl
    · exact ih

theorem get?_eq_none : get? name xs = none ↔ name ∉ xs.map Prod.fst := by
  induction xs with
  | nil => simp [get?]
  | cons x xs ih =>
    simp only [get?, map_cons, mem_cons, not_or]
    split
    · rename_i hx
      simp [hx]
    · rename_i hx
      rw [ih, and_iff_right fun h => hx h.symm]

theorem get?_reverse (i : Nat) : get? name xs.reverse =
    (FunctionScope.slot?.latest name i (xs.map Prod.fst)).bind fun n => (xs.map Prod.snd)[n - i]? := by
  induction xs generalizing i with
  | nil => rfl
  | cons x xs ih =>
    rw [reverse_cons, get?_append, ih (i + 1), map_cons, map_cons, FunctionScope.slot?.latest]
    cases h : FunctionScope.slot?.latest name (i + 1) (xs.map Prod.fst) with
    | none =>
      rw [Option.bind_none, Option.none_or, Option.none_or]
      simp only [get?]
      split <;> simp
    | some n =>
      obtain ⟨hn, hx⟩ := FunctionScope.getElem?_of_latest h
      have hlt : n - (i + 1) < (xs.map Prod.snd).length := by
        rw [length_map, ← length_map Prod.fst]
        exact (List.getElem?_eq_some_iff.1 hx).1
      rw [Option.some_or, Option.bind_some, Option.bind_some, getElem?_eq_getElem hlt,
        Option.some_or, show n - i = n - (i + 1) + 1 by omega, getElem?_cons_succ,
        getElem?_eq_getElem hlt]

end Bindings

namespace Naming

variable {foreign : Prop}

/-- What the names have that code was lowered among: the values `us` of the slots and `ws` of the
captures are those of their names. -/
inductive Holds (foreign : Prop) (externals : Bindings Value) (outer captured locals : List String) :
    Names → List Value → List Value → Prop
  | intro {inner around ext : Names} {vs : List (ValueOf Source)} {us ws : List Value} :
      inner.map Prod.fst = locals → around.map Prod.fst = outer →
      Forall₂ (ValueOf.Alike (Agrees foreign)) (inner.map Prod.snd) us →
      Forall₂ (fun name v => Bindings.get? name around = some v) captured vs →
      Forall₂ (ValueOf.Alike (Agrees foreign)) vs ws →
      Forall₂ (EntryAlike (ValueOf.Alike (Agrees foreign))) ext externals →
      Holds foreign externals outer captured locals (inner.reverse ++ (around ++ ext)) us ws

/-- The value that the running code finds for a variable. -/
def held? (us ws : List Value) : Variable → Option Value
  | .slot n => us[n]?
  | .capture n => ws[n]?

variable {externals : Bindings Value} {outer captured locals : List String} {names : Names}
  {us ws : List Value} {name : String}

theorem held?_located {inner around : Names} {vs : List (ValueOf Source)} {source : Variable}
    (hu : Forall₂ (ValueOf.Alike (Agrees foreign)) (inner.map Prod.snd) us)
    (hc : Forall₂ (fun name v => Bindings.get? name around = some v) captured vs)
    (hw : Forall₂ (ValueOf.Alike (Agrees foreign)) vs ws)
    (h : Located (around.map Prod.fst) captured (inner.map Prod.fst) name source) :
    ∃ v w, Bindings.get? name (inner.reverse ++ around) = some v ∧ held? us ws source = some w ∧
      ValueOf.Alike (Agrees foreign) v w := by
  rw [Bindings.get?_append]
  cases h with
  | @slot n h =>
    obtain ⟨-, hn⟩ := FunctionScope.getElem?_of_latest h
    have hlt : n < (inner.map Prod.snd).length := by
      rw [length_map, ← length_map Prod.fst]
      exact (List.getElem?_eq_some_iff.1 hn).1
    have hlt' : n < us.length := hu.length_eq ▸ hlt
    refine ⟨(inner.map Prod.snd)[n], us[n], ?_, getElem?_eq_getElem hlt', hu.get hlt hlt'⟩
    rw [Bindings.get?_reverse 0, h, Option.bind_some, Nat.sub_zero, getElem?_eq_getElem hlt,
      Option.some_or]
  | @capture n hl _ h =>
    obtain ⟨hlt, hn⟩ := List.getElem?_eq_some_iff.1 h
    have hlt' : n < vs.length := hc.length_eq ▸ hlt
    have hlt'' : n < ws.length := hw.length_eq ▸ hlt'
    refine ⟨vs[n], ws[n], ?_, getElem?_eq_getElem hlt'', hw.get hlt' hlt''⟩
    have hv := hc.get hlt hlt'
    rw [get_eq_getElem, get_eq_getElem, hn] at hv
    rw [hv, Bindings.get?_eq_none.2, Option.none_or]
    rwa [map_reverse, mem_reverse]

theorem Holds.value? {c : Code} {span : Span}
    (h : Holds foreign externals outer captured locals names us ws)
    (hc : Syntax.Expr.Lowered externals outer captured locals (.identifier name span) c) :
    ∃ v w, value? names name = some v ∧ ValueOf.Alike (Agrees foreign) v w ∧
      ((∃ source, c = .read source span ∧ held? us ws source = some w) ∨ c = .value w span) := by
  obtain ⟨rfl, rfl, hu, hk, hw, he⟩ := h
  rw [Syntax.Expr.Lowered] at hc
  rcases hc with ⟨source, hs, rfl⟩ | ⟨hl, ho, w, hw', rfl⟩
  · obtain ⟨v, w, hv, hw', hvw⟩ := held?_located hu hk hw hs
    refine ⟨v, w, ?_, hvw, .inl ⟨source, rfl, hw'⟩⟩
    rw [Naming.value?, ← append_assoc, Bindings.get?_append, hv, Option.some_or, Option.some_or]
  · rw [Naming.value?, Bindings.get?_append, Bindings.get?_append, Bindings.get?_eq_none.2,
      Bindings.get?_eq_none.2 ho, Option.none_or, Option.none_or]
    · have hx := Library.get?_alike he name
      generalize Bindings.get? name _ = x at hx
      generalize Bindings.get? name externals = y at hx hw'
      cases hx with
      | some hx =>
        rw [Option.some_or, Option.some.injEq] at hw'
        subst hw'
        exact ⟨_, _, rfl, hx, .inr rfl⟩
      | none =>
        have hx := Library.libraryValue?_alike (@Agrees.respects foreign) name
        rw [Option.none_or] at hw'
        rw [hw'] at hx
        rw [Option.none_or]
        generalize Compilation.libraryValue? name = x at hx
        cases hx with
        | some hx => exact ⟨_, _, rfl, hx, .inr rfl⟩
    · rwa [map_reverse, mem_reverse]

end Naming

end Estimation
