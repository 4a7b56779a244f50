import Estimation.Compilation
import Estimation.Proofs.Alike.Occurrences
import Estimation.Proofs.Layout
import Estimation.Proofs.Parts
import Estimation.Proofs.Tables
import Mathlib.Logic.Relation

/-!
Where code is from. The spans in the code that a program compiles to are those of its pieces, and the
functions in its values are those of its external values. A name that nothing has is at a piece too.
-/

namespace Estimation

open List

/-- The code of a function and of those that it holds has only spans of a kind. -/
inductive LambdaOf.Placed (S : Span → Prop) : Lambda → Prop
  | native (g) : Placed S (.native g)
  | closure {identity name parameters captures body span} :
      (∀ v ∈ captures, ∀ f, Occurs f v → Placed S f) →
      (∀ d : Code, d.PartOf body → S d.span) →
      (∀ v place, (Code.value v place).PartOf body → ∀ f, Occurs f v → Placed S f) →
      Placed S (.closure identity name parameters captures body span)

def ValueOf.Placed (S : Span → Prop) (v : Value) : Prop :=
  ∀ f : Lambda, Occurs f v → f.Placed S

/-- The spans of a piece, of the pieces of it and so on are of one kind. -/
def Syntax.Piece.Placed (T : Span → Prop) (p : Piece) : Prop :=
  ∀ q, Relation.ReflTransGen (fun q r => r ∈ q.pieces) p q → T q.span

/-- The spans of code are of one kind, those in the functions of its values of another. -/
structure Code.Placed (T S : Span → Prop) (c : Code) : Prop where
  spans : ∀ d : Code, d.PartOf c → T d.span
  values : ∀ v place, (Code.value v place).PartOf c → v.Placed S

variable {T S : Span → Prop}

namespace Syntax

namespace Piece

variable {p : Piece}

theorem Placed.span (h : p.Placed T) : T p.span := h p .refl

theorem Placed.pieces (h : p.Placed T) : ∀ q ∈ p.pieces, q.Placed T :=
  fun _ hq r hr => h r (.head hq hr)

theorem Laid.placed {tokens : List Token} (h : p.Laid tokens) (hT : ∀ span, Spells tokens span → T span) :
    p.Placed T := by
  intro q hq
  refine hT _ (Laid.spells ?_)
  induction hq with
  | refl => exact h
  | tail _ hr ih => exact ih.pieces _ hr

end Piece

end Syntax

namespace ValueOf.Placed

variable {v : Value} {vs : List Value} {es : Bindings Value} {f : Lambda}

theorem void : Placed S .void := nofun

theorem number (x : Float) : Placed S (.number x) := nofun

theorem string (s : String) : Placed S (.string s) := nofun

theorem bool (b : Bool) : Placed S (.bool b) := nofun

theorem lambda (h : f.Placed S) : Placed S (.lambda f) := by
  rintro _ ⟨⟩
  exact h

theorem native (g : Native) : Placed S (.lambda (.native g)) := lambda (.native g)

theorem list (h : ∀ v ∈ vs, v.Placed S) : Placed S (.list vs) := by
  rintro f ⟨⟩
  exact h _ ‹_› f ‹_›

theorem dict (h : ∀ e ∈ es, e.2.Placed S) : Placed S (.dict es) := by
  rintro f ⟨⟩
  exact h _ ‹_› f ‹_›

theorem of_lambda (h : Placed S (.lambda f)) : f.Placed S := h f .lambda

end ValueOf.Placed

namespace Code.Placed

variable {c d : Code}

theorem span (h : c.Placed T S) : T c.span := h.spans c .self

theorem piece (h : c.Placed T S) (hd : d ∈ c.pieces) : d.Placed T S where
  spans e he := h.spans e (he.trans (.of_mem hd))
  values v place hv := h.values v place (hv.trans (.of_mem hd))

theorem value {v : Value} {place : Span} (h : (Code.value v place).Placed T S) : v.Placed S :=
  h.values v place .self

theorem node (hspan : T c.span) (hvalue : ∀ v place, c = .value v place → v.Placed S)
    (h : ∀ d ∈ c.pieces, d.Placed T S) : c.Placed T S := by
  constructor
  · rintro d (_ | ⟨hd, hpiece⟩)
    · exact hspan
    · exact (h _ hpiece).spans d hd
  · intro v place hv
    generalize hc : Code.value v place = d at hv
    cases hv with
    | self => exact hvalue v place hc.symm
    | piece hv hpiece => exact (h _ hpiece).values v place (hc ▸ hv)

theorem constant {v : Value} {place : Span} (hspan : T place) (hv : v.Placed S) :
    (Code.value v place).Placed T S :=
  node hspan (fun _ _ h => by cases h; exact hv) nofun

/-- A closure of code whose spans are all of one kind. -/
theorem closure (h : c.Placed T S) (hTS : ∀ span, T span → S span) {captures : List Value}
    (hcaptures : ∀ v ∈ captures, v.Placed S) (identity : Identity) (name : Option String)
    (parameters : List Parameter) (span : Span) :
    LambdaOf.Placed S (.closure identity name parameters captures c span) :=
  .closure hcaptures (fun d hd => hTS _ (h.spans d hd)) h.values

end Code.Placed

namespace Compilation

variable {α β : Type} {P : α → Prop} {Q : β → Prop}

/-- A step has a result with a property, or misses a name at a span of a kind. -/
def Finds (T : Span → Prop) (Q : α → Prop) (step : Compile α) : Prop :=
  ∀ scopes, Meets (fun e : UnboundName => T e.span) (fun p => Q p.1) (step scopes)

namespace Finds

theorem pure {a : α} (h : P a) : Finds T P (pure a) := fun _ => h

theorem bind {step : Compile α} (h : Finds T P step) {k : α → Compile β}
    (hk : ∀ a, P a → Finds T Q (k a)) : Finds T Q (step >>= k) :=
  fun scopes => (h scopes).bind fun p hp => hk p.1 hp p.2

/-- Steps with scopes only. -/
theorem silent {step : Compile α} (h : ∀ scopes, ∃ p, step scopes = .ok p) {k : α → Compile β}
    (hk : ∀ a, Finds T Q (k a)) : Finds T Q (step >>= k) := by
  refine bind (P := fun _ => True) (fun scopes => ?_) fun a _ => hk a
  obtain ⟨p, hp⟩ := h scopes
  rw [hp]
  trivial

end Finds

theorem libraryValue?_placed {name : String} {v : Value} (h : libraryValue? name = some v) :
    v.Placed S := by
  unfold libraryValue? at h
  cases hf : Native.ofName? name with
  | some f =>
    rw [hf] at h
    cases h
    exact .native f
  | none =>
    rw [hf] at h
    cases hc : Constant.ofName? name with
    | some c =>
      rw [hc] at h
      cases h
      exact .number _
    | none =>
      rw [hc] at h
      cases h

theorem nativeCall_placed (f : Native) {cs : List Code} {span : Span} (hspan : T span)
    (h : ∀ c ∈ cs, c.Placed T S) : (nativeCall f cs span).Placed T S :=
  .node hspan nofun (forall_mem_cons.2 ⟨.constant hspan (.native f), h⟩)

section

variable {externals : Bindings Value} (hext : ∀ e ∈ externals, e.2.Placed S)

include hext in
theorem identifier_placed (name : String) {span : Span} (hspan : T span) :
    Finds T (Code.Placed T S) (identifier externals name span) := by
  refine .silent (fun scopes => ⟨_, rfl⟩) fun scopes => ?_
  cases scopes.resolve name with
  | some found =>
    exact .silent (fun scopes => ⟨_, rfl⟩) fun _ => .pure (.node hspan nofun nofun)
  | none =>
    cases hv : (externals.get? name).or (libraryValue? name) with
    | none => exact fun _ => hspan
    | some v =>
      refine .pure (.constant hspan ?_)
      rcases Option.or_eq_some_iff.1 hv with h | ⟨-, h⟩
      · exact hext _ (Table.mem_of_get? (Bindings.get?_eq_get? ▸ h))
      · exact libraryValue?_placed h

set_option linter.unusedSectionVars false

include hext

open Syntax in
mutual

theorem expr_placed : ∀ e : Expr, (Piece.expr e).Placed T →
    Finds T (Code.Placed T S) (expr externals e)
  | .number value span, h => by
    simp only [expr]
    exact .pure (.constant (h.span) (.number value))
  | .string content span, h => by
    simp only [expr]
    exact .pure (.constant (h.span) (.string content))
  | .bool value span, h => by
    simp only [expr]
    exact .pure (.constant (h.span) (.bool value))
  | .identifier name span, h => by
    simp only [expr]
    exact identifier_placed hext name (h.span)
  | .list items span, h => by
    simp only [expr]
    exact (exprs_placed items h.pieces).bind fun _ hs => .pure (.node (h.span) nofun hs)
  | .dict entries span, h => by
    simp only [expr]
    refine (dictEntries_placed entries h.pieces).bind fun _ hs => .pure (.node (h.span) nofun ?_)
    exact hs
  | .block statements result span, h => by
    simp only [expr]
    obtain ⟨hstatements, hresult⟩ := forall_mem_append.1 h.pieces
    exact .silent (fun _ => ⟨_, rfl⟩) fun _ => (block_placed statements hstatements).bind fun _ hs =>
      (expr_placed result (hresult _ mem_cons_self)).bind fun _ hr =>
        .silent (fun _ => ⟨_, rfl⟩) fun _ =>
          .pure (.node (h.span) nofun (forall_mem_append.2 ⟨hs, forall_mem_singleton.2 hr⟩))
  | .lambda name ps body span, h => by
    simp only [expr]
    obtain ⟨hps, hbody⟩ := forall_mem_append.1 h.pieces
    refine (parameters_placed ps hps).bind fun qs hqs => .silent (fun _ => ⟨_, rfl⟩) fun _ =>
      (expr_placed body (hbody _ mem_cons_self)).bind fun c hc => ?_
    have hpieces := forall_mem_append.2 ⟨hqs, forall_mem_singleton.2 hc⟩
    refine .silent (fun _ => ⟨_, rfl⟩) fun scopes => ?_
    cases scopes.closeFunction? with
    | some closed =>
      exact .silent (fun _ => ⟨_, rfl⟩) fun _ => .pure (.node (h.span) nofun hpieces)
    | none => exact .pure (.node (h.span) nofun hpieces)
  | .call callee args span, h => by
    simp only [expr]
    obtain ⟨hcallee, hargs⟩ := forall_mem_cons.1 h.pieces
    exact (expr_placed callee hcallee).bind fun _ hc => (exprs_placed args hargs).bind fun _ hs =>
      .pure (.node (h.span) nofun (forall_mem_cons.2 ⟨hc, hs⟩))
  | .binary op left right span, h => by
    simp only [expr]
    obtain ⟨hleft, hright⟩ := forall_mem_cons.1 h.pieces
    exact (expr_placed left hleft).bind fun _ hl =>
      (expr_placed right (hright _ mem_cons_self)).bind fun _ hr =>
        .pure (nativeCall_placed _ (h.span)
          (forall_mem_cons.2 ⟨hl, forall_mem_singleton.2 hr⟩))
  | .unary op operand span, h => by
    simp only [expr]
    exact (expr_placed operand (h.pieces _ mem_cons_self)).bind fun _ ho =>
      .pure (nativeCall_placed _ (h.span) (forall_mem_singleton.2 ho))
  | .pipe left callee args span, h => by
    simp only [expr]
    obtain ⟨hleft, hrest⟩ := forall_mem_cons.1 h.pieces
    obtain ⟨hcallee, hargs⟩ := forall_mem_cons.1 hrest
    exact (expr_placed left hleft).bind fun _ hl => (exprs_placed args hargs).bind fun _ hs =>
      (expr_placed callee hcallee).bind fun _ hc =>
        .pure (.node (h.span) nofun (forall_mem_cons.2 ⟨hc, forall_mem_cons.2 ⟨hl, hs⟩⟩))
  | .member target key span, h => by
    simp only [expr]
    exact (expr_placed target (h.pieces _ mem_cons_self)).bind fun _ ht =>
      .pure (nativeCall_placed _ (h.span) (forall_mem_cons.2
        ⟨ht, forall_mem_singleton.2 (.constant (h.span) (.string key))⟩))
  | .lookup target index span, h => by
    simp only [expr]
    obtain ⟨htarget, hindex⟩ := forall_mem_cons.1 h.pieces
    exact (expr_placed target htarget).bind fun _ ht =>
      (expr_placed index (hindex _ mem_cons_self)).bind fun _ hi =>
        .pure (nativeCall_placed _ (h.span)
          (forall_mem_cons.2 ⟨ht, forall_mem_singleton.2 hi⟩))
  | .choice condition ifTrue ifFalse span, h => by
    simp only [expr]
    obtain ⟨hcondition, hrest⟩ := forall_mem_cons.1 h.pieces
    obtain ⟨htrue, hfalse⟩ := forall_mem_cons.1 hrest
    exact (expr_placed condition hcondition).bind fun _ hc =>
      (expr_placed ifTrue htrue).bind fun _ ht =>
        (expr_placed ifFalse (hfalse _ mem_cons_self)).bind fun _ hf =>
          .pure (.node (h.span) nofun (forall_mem_cons.2 ⟨hc, forall_mem_cons.2
            ⟨ht, forall_mem_singleton.2 hf⟩⟩))

theorem exprs_placed : ∀ es : List Expr, (∀ q ∈ es.map Piece.expr, q.Placed T) →
    Finds T (fun cs => ∀ c ∈ cs, c.Placed T S) (exprs externals es)
  | [], _ => by
    simp only [exprs]
    exact .pure nofun
  | e :: es, h => by
    simp only [exprs]
    obtain ⟨he, hes⟩ := forall_mem_cons.1 h
    exact (expr_placed e he).bind fun _ hc => (exprs_placed es hes).bind fun _ hs =>
      .pure (forall_mem_cons.2 ⟨hc, hs⟩)

theorem dictEntries_placed : ∀ es : List (Entry Expr),
    (∀ q ∈ es.flatMap Piece.ofEntry, q.Placed T) →
    Finds T (fun pairs => ∀ c ∈ pairs.flatMap fun p => [p.1, p.2], c.Placed T S)
      (dictEntries externals es)
  | [], _ => by
    simp only [dictEntries]
    exact .pure nofun
  | e :: es, h => by
    simp only [dictEntries]
    rw [flatMap_cons] at h
    obtain ⟨he, hes⟩ := forall_mem_append.1 h
    refine (dictEntry_placed e he).bind fun _ hc => (dictEntries_placed es hes).bind fun _ hs => .pure ?_
    rw [flatMap_cons]
    exact forall_mem_append.2 ⟨hc, hs⟩

theorem dictEntry_placed : ∀ e : Entry Expr, (∀ q ∈ Piece.ofEntry e, q.Placed T) →
    Finds T (fun p => ∀ c ∈ [p.1, p.2], c.Placed T S) (dictEntry externals e)
  | ⟨key, keySpan, value⟩, h => by
    simp only [dictEntry]
    obtain ⟨hkey, hvalue⟩ := forall_mem_cons.1 h
    exact (expr_placed value (hvalue _ mem_cons_self)).bind fun _ hv => .pure (forall_mem_cons.2
      ⟨.constant (hkey.span) (.string key), forall_mem_singleton.2 hv⟩)

theorem parameters_placed : ∀ ps : List (Syntax.Parameter Expr),
    (∀ q ∈ ps.flatMap Piece.ofParameter, q.Placed T) →
    Finds T (fun qs => ∀ c ∈ qs.filterMap CodeParameter.range, c.Placed T S) (parameters externals ps)
  | [], _ => by
    simp only [parameters]
    exact .pure nofun
  | p :: ps, h => by
    simp only [parameters]
    rw [flatMap_cons] at h
    obtain ⟨hp, hps⟩ := forall_mem_append.1 h
    refine (parameter_placed p hp).bind fun q hq => (parameters_placed ps hps).bind fun qs hqs => .pure ?_
    rw [filterMap_cons]
    split
    · exact hqs
    · next c hc => exact forall_mem_cons.2 ⟨hq c hc, hqs⟩

theorem parameter_placed : ∀ p : Syntax.Parameter Expr, (∀ q ∈ Piece.ofParameter p, q.Placed T) →
    Finds T (fun q => ∀ c, q.range = some c → c.Placed T S) (parameter externals p)
  | ⟨_, _, range⟩, h => by
    simp only [parameter]
    exact (optional_placed range (forall_mem_cons.1 h).2).bind fun _ hr => .pure hr

theorem optional_placed : ∀ o : Option Expr, (∀ q ∈ o.toList.map Piece.expr, q.Placed T) →
    Finds T (fun r => ∀ c, r = some c → c.Placed T S) (optional externals o)
  | none, _ => by
    simp only [optional]
    exact .pure nofun
  | some e, h => by
    simp only [optional]
    exact (expr_placed e (h _ mem_cons_self)).bind fun _ hc => .pure fun _ h => by cases h; exact hc

theorem definition_placed : ∀ s : Statement Expr, (Piece.statement s).Placed T →
    Finds T (fun p => p.1.Placed T S) (definition externals s)
  | ⟨name, _, value, _, span⟩, h => by
    simp only [definition]
    exact (expr_placed value (h.pieces _ mem_cons_self)).bind fun _ hc =>
      .silent (fun _ => ⟨_, rfl⟩) fun _ =>
        .pure (.node (h.span) nofun (forall_mem_singleton.2 hc))

theorem block_placed : ∀ ss : List (Statement Expr),
    (∀ q ∈ ss.map Piece.statement, q.Placed T) →
    Finds T (fun cs => ∀ c ∈ cs, c.Placed T S) (block externals ss)
  | [], _ => by
    simp only [block]
    exact .pure nofun
  | s :: ss, h => by
    simp only [block]
    obtain ⟨hs, hss⟩ := forall_mem_cons.1 h
    exact (definition_placed s hs).bind fun _ hc => (block_placed ss hss).bind fun _ hcs =>
      .pure (forall_mem_cons.2 ⟨hc, hcs⟩)

end

omit hext in
theorem forall_rebind {P : TopBinding → Prop} {binding : TopBinding} {bindings : List TopBinding}
    (hb : P binding) (h : ∀ b ∈ bindings, P b) : ∀ b ∈ rebind binding bindings, P b := by
  induction bindings with
  | nil => exact forall_mem_singleton.2 hb
  | cons first rest ih =>
    obtain ⟨hfirst, hrest⟩ := forall_mem_cons.1 h
    rw [rebind]
    split
    · exact forall_mem_cons.2 ⟨hb, hrest⟩
    · exact forall_mem_cons.2 ⟨hfirst, ih hrest⟩

theorem definitions_placed (ss : List (Syntax.Statement Syntax.Expr))
    (h : ∀ q ∈ ss.map Syntax.Piece.statement, q.Placed T) {bindings : List TopBinding}
    (hb : ∀ b ∈ bindings, T b.span) :
    Finds T (fun p => (∀ c ∈ p.1, c.Placed T S) ∧ ∀ b ∈ p.2, T b.span)
      (definitions externals ss bindings) := by
  induction ss generalizing bindings with
  | nil => exact .pure ⟨nofun, hb⟩
  | cons s ss ih =>
    simp only [definitions]
    obtain ⟨hs, hss⟩ := forall_mem_cons.1 h
    refine (definition_placed hext s hs).bind fun p hc => ?_
    have hspan : T s.span := hs.span
    exact (ih hss (forall_rebind hspan hb)).bind fun _ hcs =>
      .pure ⟨forall_mem_cons.2 ⟨hc, hcs.1⟩, hcs.2⟩

theorem steps_placed {program : Syntax.Program} (h : ∀ q ∈ program.pieces, q.Placed T) :
    Finds T (fun code => ∃ statements result bindings,
        code = .program statements result bindings program.span ∧
        (∀ c ∈ code.pieces, c.Placed T S) ∧ ∀ b ∈ bindings, T b.span) (do
      let (statements, bindings) ← definitions externals program.statements []
      let result ← optional externals program.result
      return Code.program statements result bindings program.span) := by
  obtain ⟨hfirst, hresult⟩ := forall_mem_append.1 h
  obtain ⟨-, hstatements⟩ := forall_mem_append.1 hfirst
  refine (definitions_placed hext _ hstatements (forall_mem_nil _)).bind fun p hp => ?_
  refine (optional_placed hext _ hresult).bind fun r hr => .pure ?_
  refine ⟨p.1, r, p.2, rfl, forall_mem_append.2 ⟨hp.1, fun c hc => ?_⟩, hp.2⟩
  exact hr c (Option.mem_toList.1 hc)

end

end Compilation

/-- What a program compiles to, or the name that it misses. -/
theorem compile_placed {program : Syntax.Program} (h : ∀ q ∈ program.pieces, q.Placed T)
    {externals : Bindings Value} (hext : ∀ e ∈ externals, e.2.Placed S) : Meets (fun e => T e.span)
      (fun code => ∃ statements result bindings,
        code = .program statements result bindings program.span ∧
        (∀ c ∈ code.pieces, c.Placed T S) ∧ ∀ b ∈ bindings, T b.span)
      (compile externals program) :=
  (Compilation.steps_placed hext h .start).bind fun _ hp => hp

end Estimation
