import Estimation.Compilation
import Estimation.Proofs.Steps.Code

/-!
A program whose external names have alike values compiles to alike code. Scopes do not depend on the
values, so that each step of the compiler leaves the same scopes on both sides.
-/

namespace Estimation

open List

namespace Compilation

variable {α δ α' δ' : Type} {R : Value → Value → Prop}

/-- Both leave the same scopes and related results, or miss the same name. -/
inductive Compiled (S : α → δ → Prop) :
    Except UnboundName (α × Scopes) → Except UnboundName (δ × Scopes) → Prop
  | ok {a b} (scopes) : S a b → Compiled S (.ok (a, scopes)) (.ok (b, scopes))
  | error (e) : Compiled S (.error e) (.error e)

def Corresponds (S : α → δ → Prop) (step : Compile α) (step' : Compile δ) : Prop :=
  ∀ scopes, Compiled S (step.run scopes) (step'.run scopes)

namespace Corresponds

variable {S : α → δ → Prop} {S' : α' → δ' → Prop} {step : Compile α} {step' : Compile δ}

theorem pure {a : α} {b : δ} (h : S a b) : Corresponds S (pure a) (pure b) :=
  fun scopes => .ok scopes h

theorem bind (h : Corresponds S step step') {k : α → Compile α'} {l : δ → Compile δ'}
    (hk : ∀ a b, S a b → Corresponds S' (k a) (l b)) :
    Corresponds S' (step >>= k) (step' >>= l) := by
  intro scopes
  rw [StateT.run_bind, StateT.run_bind]
  have hs := h scopes
  generalize step.run scopes = x at hs
  generalize step'.run scopes = y at hs
  cases hs with
  | ok scopes hab => exact hk _ _ hab scopes
  | error e => exact .error e

/-- A step that does not look at external names. -/
theorem refl (step : Compile α) : Corresponds Eq step step := by
  intro scopes
  generalize step.run scopes = x
  cases x with
  | error e => exact .error e
  | ok r => exact .ok r.2 rfl

end Corresponds

section

variable {F : Lambda → Lambda → Prop} (hF : Respects F) {externals externals' : Bindings Value}
  (he : Forall₂ (EntryAlike (ValueOf.Alike F)) externals externals')

include hF he

theorem identifier_corresponds (name : String) (span : Span) :
    Corresponds (Code.Alike (ValueOf.Alike F)) (identifier externals name span)
      (identifier externals' name span) := by
  refine (Corresponds.refl get).bind fun scopes _ hs => ?_
  subst hs
  cases scopes.resolve name with
  | some found => exact (Corresponds.refl _).bind fun _ _ _ => .pure (.read _ _)
  | none =>
    have hx : Option.Rel (ValueOf.Alike F) ((externals.get? name).or (libraryValue? name))
        ((externals'.get? name).or (libraryValue? name)) := by
      have hx := Library.get?_alike he name
      generalize externals.get? name = x at hx
      generalize externals'.get? name = y at hx
      cases hx with
      | some h => exact .some h
      | none => exact Library.libraryValue?_alike hF name
    dsimp only
    generalize (externals.get? name).or (libraryValue? name) = x at hx
    generalize (externals'.get? name).or (libraryValue? name) = y at hx
    cases hx with
    | some h => exact .pure (.value span h)
    | none => exact fun _ => .error _

omit he in
theorem nativeCall_corresponds (f : Native) {cs ds : List Code}
    (h : Forall₂ (Code.Alike (ValueOf.Alike F)) cs ds) (span : Span) :
    Corresponds (Code.Alike (ValueOf.Alike F)) (pure (nativeCall f cs span))
      (pure (nativeCall f ds span)) :=
  .pure (.call span (.value span (.lambda (hF.native f))) h)

set_option linter.unusedSectionVars false

mutual

theorem expr_corresponds : ∀ e : Syntax.Expr,
    Corresponds (Code.Alike (ValueOf.Alike F)) (expr externals e) (expr externals' e)
  | .number value span => by
    simp only [expr]
    exact .pure (.value span (.number value))
  | .string content span => by
    simp only [expr]
    exact .pure (.value span (.string content))
  | .bool value span => by
    simp only [expr]
    exact .pure (.value span (.bool value))
  | .identifier name span => by
    simp only [expr]
    exact identifier_corresponds hF he name span
  | .list items span => by
    simp only [expr]
    exact (exprs_corresponds items).bind fun _ _ hs => .pure (.list span hs)
  | .dict entries span => by
    simp only [expr]
    exact (dictEntries_corresponds entries).bind fun _ _ hs => .pure (.dict span hs)
  | .block statements result span => by
    simp only [expr]
    refine (Corresponds.refl get).bind fun scopes _ hscopes => ?_
    subst hscopes
    exact (block_corresponds statements).bind fun _ _ hs => (expr_corresponds result).bind fun _ _ h =>
      (Corresponds.refl _).bind fun _ _ _ => .pure (.block span hs h)
  | .lambda name ps body span => by
    simp only [expr]
    refine (parameters_corresponds ps).bind fun _ _ hps => (Corresponds.refl _).bind fun _ _ _ =>
      (expr_corresponds body).bind fun _ _ h => (Corresponds.refl get).bind fun scopes _ hscopes => ?_
    subst hscopes
    cases scopes.closeFunction? with
    | some closed =>
      exact (Corresponds.refl _).bind fun _ _ _ => .pure (.lambda name closed.1 span hps h)
    | none => exact .pure (.lambda name [] span hps h)
  | .call callee args span => by
    simp only [expr]
    exact (expr_corresponds callee).bind fun _ _ h => (exprs_corresponds args).bind fun _ _ hs =>
      .pure (.call span h hs)
  | .binary op left right span => by
    simp only [expr]
    exact (expr_corresponds left).bind fun _ _ h => (expr_corresponds right).bind fun _ _ h' =>
      nativeCall_corresponds hF _ (.cons h (.cons h' .nil)) span
  | .unary op operand span => by
    simp only [expr]
    exact (expr_corresponds operand).bind fun _ _ h =>
      nativeCall_corresponds hF _ (.cons h .nil) span
  | .pipe left callee args span => by
    simp only [expr]
    exact (expr_corresponds left).bind fun _ _ h => (exprs_corresponds args).bind fun _ _ hs =>
      (expr_corresponds callee).bind fun _ _ h' => .pure (.call span h' (.cons h hs))
  | .member target key span => by
    simp only [expr]
    exact (expr_corresponds target).bind fun _ _ h =>
      nativeCall_corresponds hF _ (.cons h (.cons (.value span (.string key)) .nil)) span
  | .lookup target index span => by
    simp only [expr]
    exact (expr_corresponds target).bind fun _ _ h => (expr_corresponds index).bind fun _ _ h' =>
      nativeCall_corresponds hF _ (.cons h (.cons h' .nil)) span
  | .choice condition ifTrue ifFalse span => by
    simp only [expr]
    exact (expr_corresponds condition).bind fun _ _ h => (expr_corresponds ifTrue).bind fun _ _ h' =>
      (expr_corresponds ifFalse).bind fun _ _ h'' => .pure (.choice span h h' h'')

theorem exprs_corresponds : ∀ es : List Syntax.Expr,
    Corresponds (Forall₂ (Code.Alike (ValueOf.Alike F))) (exprs externals es) (exprs externals' es)
  | [] => by
    simp only [exprs]
    exact .pure .nil
  | e :: es => by
    simp only [exprs]
    exact (expr_corresponds e).bind fun _ _ h => (exprs_corresponds es).bind fun _ _ hs =>
      .pure (.cons h hs)

theorem dictEntries_corresponds : ∀ es : List (Syntax.Entry Syntax.Expr),
    Corresponds (Forall₂ (PairAlike (Code.Alike (ValueOf.Alike F)))) (dictEntries externals es)
      (dictEntries externals' es)
  | [] => by
    simp only [dictEntries]
    exact .pure .nil
  | e :: es => by
    simp only [dictEntries]
    exact (dictEntry_corresponds e).bind fun _ _ h => (dictEntries_corresponds es).bind fun _ _ hs =>
      .pure (.cons h hs)

theorem dictEntry_corresponds : ∀ e : Syntax.Entry Syntax.Expr,
    Corresponds (PairAlike (Code.Alike (ValueOf.Alike F))) (dictEntry externals e)
      (dictEntry externals' e)
  | ⟨key, keySpan, value⟩ => by
    simp only [dictEntry]
    exact (expr_corresponds value).bind fun _ _ h => .pure ⟨.value keySpan (.string key), h⟩

theorem parameters_corresponds : ∀ ps : List (Syntax.Parameter Syntax.Expr),
    Corresponds (Forall₂ (CodeParameterAlike (Code.Alike (ValueOf.Alike F)))) (parameters externals ps)
      (parameters externals' ps)
  | [] => by
    simp only [parameters]
    exact .pure .nil
  | p :: ps => by
    simp only [parameters]
    exact (parameter_corresponds p).bind fun _ _ h => (parameters_corresponds ps).bind fun _ _ hs =>
      .pure (.cons h hs)

theorem parameter_corresponds : ∀ p : Syntax.Parameter Syntax.Expr,
    Corresponds (CodeParameterAlike (Code.Alike (ValueOf.Alike F))) (parameter externals p)
      (parameter externals' p)
  | ⟨_, _, range⟩ => by
    simp only [parameter]
    exact (optional_corresponds range).bind fun _ _ h => .pure ⟨h⟩

theorem optional_corresponds : ∀ e : Option Syntax.Expr,
    Corresponds (Option.Rel (Code.Alike (ValueOf.Alike F))) (optional externals e)
      (optional externals' e)
  | none => by
    simp only [optional]
    exact .pure .none
  | some e => by
    simp only [optional]
    exact (expr_corresponds e).bind fun _ _ h => .pure (.some h)

theorem definition_corresponds : ∀ s : Syntax.Statement Syntax.Expr,
    Corresponds (fun x y => Code.Alike (ValueOf.Alike F) x.1 y.1 ∧ x.2 = y.2)
      (definition externals s) (definition externals' s)
  | ⟨name, _, value, _, span⟩ => by
    simp only [definition]
    exact (expr_corresponds value).bind fun _ _ h => (Corresponds.refl _).bind fun _ _ hslot =>
      .pure ⟨.assign name span h, hslot⟩

theorem block_corresponds : ∀ ss : List (Syntax.Statement Syntax.Expr),
    Corresponds (Forall₂ (Code.Alike (ValueOf.Alike F))) (block externals ss) (block externals' ss)
  | [] => by
    simp only [block]
    exact .pure .nil
  | s :: ss => by
    simp only [block]
    exact (definition_corresponds s).bind fun _ _ h => (block_corresponds ss).bind fun _ _ hs =>
      .pure (.cons h.1 hs)

end

theorem definitions_corresponds (ss : List (Syntax.Statement Syntax.Expr)) (bs : List TopBinding) :
    Corresponds (fun x y => Forall₂ (Code.Alike (ValueOf.Alike F)) x.1 y.1 ∧ x.2 = y.2)
      (definitions externals ss bs) (definitions externals' ss bs) := by
  induction ss generalizing bs with
  | nil => exact .pure ⟨.nil, rfl⟩
  | cons s ss ih =>
    simp only [definitions]
    refine (definition_corresponds hF he s).bind fun x y h => ?_
    obtain ⟨h, hslot⟩ := h
    rw [hslot]
    exact (ih _).bind fun _ _ hs => .pure ⟨.cons h hs.1, hs.2⟩

end

end Compilation

/-- Alike external values compile to alike programs, or leave the same name unbound. -/
theorem steps_correspond {F : Lambda → Lambda → Prop} (hF : Respects F)
    {externals externals' : Bindings Value}
    (he : Forall₂ (EntryAlike (ValueOf.Alike F)) externals externals') (program : Syntax.Program) :
    Compilation.Corresponds (Code.Alike (ValueOf.Alike F))
      (do
        let (statements, bindings) ← Compilation.definitions externals program.statements []
        let result ← Compilation.optional externals program.result
        return .program statements result bindings program.span)
      (do
        let (statements, bindings) ← Compilation.definitions externals' program.statements []
        let result ← Compilation.optional externals' program.result
        return .program statements result bindings program.span) := by
  refine (Compilation.definitions_corresponds hF he _ _).bind fun x y h => ?_
  obtain ⟨hs, hbindings⟩ := h
  refine (Compilation.optional_corresponds hF he _).bind fun _ _ h => ?_
  rw [hbindings]
  exact .pure (.program y.2 program.span hs h)

theorem compile_alike {F : Lambda → Lambda → Prop} (hF : Respects F)
    {externals externals' : Bindings Value}
    (he : Forall₂ (EntryAlike (ValueOf.Alike F)) externals externals') (program : Syntax.Program) :
    Parallel (Code.Alike (ValueOf.Alike F)) (compile externals program)
      (compile externals' program) := by
  have h := steps_correspond hF he program .start
  unfold compile
  dsimp only
  generalize StateT.run _ _ = x at h ⊢
  generalize StateT.run _ _ = y at h ⊢
  cases h with
  | ok scopes h => exact .ok h
  | error e => exact .error e

end Estimation
