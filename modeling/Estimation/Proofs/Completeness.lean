import Estimation.Proofs.Restoration
import Estimation.Proofs.Tables

/-!
Values without void. Void is what a definition comes to, so a value is complete only where the code that
its functions run is no definition either.
-/

namespace Estimation

open List

/-- A value is somewhere in another one: among its items and entries, the values that its functions captured,
or those in their code. -/
inductive ValueOf.Within (w : Value) : Value → Prop
  | self : Within w w
  | item {v vs} : v ∈ vs → Within w v → Within w (.list vs)
  | entry {e es} : e ∈ es → Within w e.2 → Within w (.dict es)
  | captured {identity name parameters captures body span v} : v ∈ captures → Within w v →
      Within w (.lambda (.closure identity name parameters captures body span))
  | constant {identity name parameters captures body span v place} :
      (Code.value v place).PartOf body → Within w v →
      Within w (.lambda (.closure identity name parameters captures body span))

/-- A value that is not void by itself, nor a function that may come to void. -/
def ValueOf.Whole : Value → Prop
  | .void => False
  | .lambda (.closure _ _ _ _ body _) => body.Expression
  | _ => True

/-- All that is somewhere in a value is whole. -/
def ValueOf.Complete (v : Value) : Prop := ∀ w : Value, w.Within v → w.Whole

/-- The values in code have a property. -/
def Code.Holds (P : Value → Prop) (c : Code) : Prop :=
  ∀ v place, (Code.value v place).PartOf c → P v

namespace ValueOf

variable {v w : Value} {vs : List Value} {es : Bindings Value}

theorem Within.trans {u : Value} (h : u.Within v) (h' : v.Within w) : u.Within w := by
  induction h' with
  | self => exact h
  | item hv _ ih => exact .item hv ih
  | entry he _ ih => exact .entry he ih
  | captured hv _ ih => exact .captured hv ih
  | constant hv _ ih => exact .constant hv ih

namespace Complete

theorem ne_void (h : v.Complete) : v ≠ .void := by
  rintro rfl
  exact h _ .self

theorem of_within (h : v.Complete) (hw : w.Within v) : w.Complete := fun u hu => h u (hu.trans hw)

theorem number (x : Float) : Complete (.number x) := by
  rintro w ⟨⟩
  trivial

theorem string (s : String) : Complete (.string s) := by
  rintro w ⟨⟩
  trivial

theorem bool (b : Bool) : Complete (.bool b) := by
  rintro w ⟨⟩
  trivial

theorem samples (s : Samples) : Complete (.samples s) := by
  rintro w ⟨⟩
  trivial

theorem native (g : Native) : Complete (.lambda (.native g)) := by
  rintro w ⟨⟩
  trivial

theorem list (h : ∀ v ∈ vs, v.Complete) : Complete (.list vs) := by
  intro w hw
  cases hw with
  | self => trivial
  | item hv hw => exact h _ hv w hw

theorem dict (h : ∀ e ∈ es, e.2.Complete) : Complete (.dict es) := by
  intro w hw
  cases hw with
  | self => trivial
  | entry he hw => exact h _ he w hw

theorem closure {captures : List Value} {body : Code} (hcaptures : ∀ v ∈ captures, v.Complete)
    (hbody : body.Expression) (hholds : body.Holds Complete) (identity : Identity) (name : Option String)
    (parameters : List Parameter) (span : Span) :
    Complete (.lambda (.closure identity name parameters captures body span)) := by
  intro w hw
  cases hw with
  | self => exact hbody
  | captured hv hw => exact hcaptures _ hv w hw
  | constant hv hw => exact hholds _ _ hv w hw

theorem items (h : Complete (.list vs)) : ∀ v ∈ vs, v.Complete :=
  fun _ hv => h.of_within (.item hv .self)

theorem entries (h : Complete (.dict es)) : ∀ e ∈ es, e.2.Complete :=
  fun _ he => h.of_within (.entry he .self)

end Complete

end ValueOf

namespace Code.Holds

variable {P : Value → Prop} {c d : Code} {v : Value} {place : Span}

theorem piece (h : c.Holds P) (hd : d ∈ c.pieces) : d.Holds P :=
  fun v place hv => h v place (hv.trans (.of_mem hd))

theorem value (h : (Code.value v place).Holds P) : P v := h v place .self

theorem node (hvalue : ∀ v place, c = .value v place → P v) (h : ∀ d ∈ c.pieces, d.Holds P) :
    c.Holds P := by
  intro v place hv
  generalize hc : Code.value v place = d at hv
  cases hv with
  | self => exact hvalue v place hc.symm
  | piece hv hpiece => exact h _ hpiece v place (hc ▸ hv)

theorem constant (hv : P v) (place : Span) : (Code.value v place).Holds P :=
  node (fun _ _ h => by cases h; exact hv) nofun

end Code.Holds

/-! ### Compiled code -/

/-- A property that the values in compiled code have: literals, what the library has, and external
values. -/
structure Supplied (P : Value → Prop) (externals : Bindings Value) : Prop where
  number : ∀ x, P (.number x)
  string : ∀ s, P (.string s)
  bool : ∀ b, P (.bool b)
  native : ∀ g, P (.lambda (.native g))
  external : ∀ e ∈ externals, P e.2

namespace Supplied

variable {P : Value → Prop} {externals : Bindings Value} (h : Supplied P externals)

include h

theorem library {name : String} {v : Value} (hv : Compilation.libraryValue? name = some v) : P v := by
  unfold Compilation.libraryValue? at hv
  cases hf : Native.ofName? name with
  | some f =>
    rw [hf] at hv
    cases hv
    exact h.native f
  | none =>
    rw [hf] at hv
    cases hc : Constant.ofName? name with
    | some c =>
      rw [hc] at hv
      cases hv
      exact h.number _
    | none =>
      rw [hc] at hv
      cases hv

theorem global {name : String} {v : Value}
    (hv : (externals.get? name).or (Compilation.libraryValue? name) = some v) : P v := by
  rcases Option.or_eq_some_iff.1 hv with hv | ⟨-, hv⟩
  · exact h.external _ (Table.mem_of_get? (Bindings.get?_eq_get? ▸ hv))
  · exact h.library hv

theorem nativeCall (f : Native) {cs : List Code} (hcs : ∀ c ∈ cs, c.Holds P) (span : Span) :
    (Compilation.nativeCall f cs span).Holds P :=
  .node nofun (forall_mem_cons.2 ⟨.constant (h.native f) span, hcs⟩)

end Supplied

namespace Syntax.Expr

variable {P : Value → Prop} {externals : Bindings Value} (h : Supplied P externals)

set_option linter.unusedSectionVars false

include h

mutual

theorem Lowered.holds : ∀ (e : Expr) {outer captured locals : List String} {c : Code},
    Lowered externals outer captured locals e c → c.Holds P
  | .number _ _, _, _, _, _, hc => hc ▸ .constant (h.number _) _
  | .string _ _, _, _, _, _, hc => hc ▸ .constant (h.string _) _
  | .bool _ _, _, _, _, _, hc => hc ▸ .constant (h.bool _) _
  | .identifier _ _, _, _, _, _, hc => by
    rw [Lowered] at hc
    rcases hc with ⟨source, -, rfl⟩ | ⟨-, -, v, hv, rfl⟩
    · exact .node nofun nofun
    · exact .constant (h.global hv) _
  | .list items _, _, _, _, _, hc => by
    rw [Lowered] at hc
    obtain ⟨cs, hcs, rfl⟩ := hc
    exact .node nofun (LoweredAll.holds items hcs)
  | .dict entries _, _, _, _, _, hc => by
    rw [Lowered] at hc
    obtain ⟨pairs, hpairs, rfl⟩ := hc
    refine .node nofun fun c hc => ?_
    obtain ⟨pair, hpair, hc⟩ := mem_flatMap.1 hc
    exact LoweredEntries.holds entries hpairs pair hpair c hc
  | .block statements result _, _, _, _, _, hc => by
    rw [Lowered] at hc
    obtain ⟨cs, d, hcs, hd, rfl⟩ := hc
    exact .node nofun (forall_mem_append.2 ⟨LoweredStatements.holds statements hcs,
      forall_mem_singleton.2 (Lowered.holds result hd)⟩)
  | .lambda _ ps body _, _, _, _, _, hc => by
    rw [Lowered] at hc
    obtain ⟨qs, inner, sources, d, hqs, -, hd, rfl⟩ := hc
    refine .node nofun (forall_mem_append.2 ⟨fun c hc => ?_,
      forall_mem_singleton.2 (Lowered.holds body hd)⟩)
    obtain ⟨q, hq, hc⟩ := mem_filterMap.1 hc
    exact LoweredParameters.holds ps hqs q hq c hc
  | .call callee args _, _, _, _, _, hc => by
    rw [Lowered] at hc
    obtain ⟨d, ds, hd, hds, rfl⟩ := hc
    exact .node nofun (forall_mem_cons.2 ⟨Lowered.holds callee hd, LoweredAll.holds args hds⟩)
  | .binary _ left right _, _, _, _, _, hc => by
    rw [Lowered] at hc
    obtain ⟨d, e, hd, he, rfl⟩ := hc
    exact h.nativeCall _ (forall_mem_cons.2 ⟨Lowered.holds left hd,
      forall_mem_singleton.2 (Lowered.holds right he)⟩) _
  | .unary _ operand _, _, _, _, _, hc => by
    rw [Lowered] at hc
    obtain ⟨d, hd, rfl⟩ := hc
    exact h.nativeCall _ (forall_mem_singleton.2 (Lowered.holds operand hd)) _
  | .pipe left callee args _, _, _, _, _, hc => by
    rw [Lowered] at hc
    obtain ⟨d, ds, e, hd, hds, he, rfl⟩ := hc
    exact .node nofun (forall_mem_cons.2 ⟨Lowered.holds callee he,
      forall_mem_cons.2 ⟨Lowered.holds left hd, LoweredAll.holds args hds⟩⟩)
  | .member target _ _, _, _, _, _, hc => by
    rw [Lowered] at hc
    obtain ⟨d, hd, rfl⟩ := hc
    exact h.nativeCall _ (forall_mem_cons.2 ⟨Lowered.holds target hd,
      forall_mem_singleton.2 (.constant (h.string _) _)⟩) _
  | .lookup target index _, _, _, _, _, hc => by
    rw [Lowered] at hc
    obtain ⟨d, e, hd, he, rfl⟩ := hc
    exact h.nativeCall _ (forall_mem_cons.2 ⟨Lowered.holds target hd,
      forall_mem_singleton.2 (Lowered.holds index he)⟩) _
  | .choice condition ifTrue ifFalse _, _, _, _, _, hc => by
    rw [Lowered] at hc
    obtain ⟨d, e, f, hd, he, hf, rfl⟩ := hc
    exact .node nofun (forall_mem_cons.2 ⟨Lowered.holds condition hd, forall_mem_cons.2
      ⟨Lowered.holds ifTrue he, forall_mem_singleton.2 (Lowered.holds ifFalse hf)⟩⟩)

theorem LoweredAll.holds : ∀ (es : List Expr) {outer captured locals : List String}
    {cs : List Code}, LoweredAll externals outer captured locals es cs → ∀ c ∈ cs, c.Holds P
  | [], _, _, _, _, hc => by
    rw [LoweredAll] at hc
    simp [hc]
  | e :: es, _, _, _, _, hc => by
    rw [LoweredAll] at hc
    obtain ⟨d, ds, hd, hds, rfl⟩ := hc
    exact forall_mem_cons.2 ⟨Lowered.holds e hd, LoweredAll.holds es hds⟩

theorem LoweredEntries.holds : ∀ (es : List (Entry Expr)) {outer captured locals : List String}
    {pairs : List (Code × Code)}, LoweredEntries externals outer captured locals es pairs →
    ∀ p ∈ pairs, ∀ c ∈ [p.1, p.2], c.Holds P
  | [], _, _, _, _, hc => by
    rw [LoweredEntries] at hc
    simp [hc]
  | e :: es, _, _, _, _, hc => by
    rw [LoweredEntries] at hc
    obtain ⟨p, ps, hp, hps, rfl⟩ := hc
    exact forall_mem_cons.2 ⟨LoweredEntry.holds e hp, LoweredEntries.holds es hps⟩

theorem LoweredEntry.holds : ∀ (e : Entry Expr) {outer captured locals : List String}
    {pair : Code × Code}, LoweredEntry externals outer captured locals e pair →
    ∀ c ∈ [pair.1, pair.2], c.Holds P
  | ⟨_, _, value⟩, _, _, _, _, hc => by
    rw [LoweredEntry] at hc
    obtain ⟨d, hd, rfl⟩ := hc
    exact forall_mem_cons.2 ⟨.constant (h.string _) _, forall_mem_singleton.2 (Lowered.holds value hd)⟩

theorem LoweredParameters.holds : ∀ (ps : List (Parameter Expr))
    {outer captured locals : List String} {qs : List (CodeParameter Code)},
    LoweredParameters externals outer captured locals ps qs →
    ∀ q ∈ qs, ∀ c, q.range = some c → c.Holds P
  | [], _, _, _, _, hc => by
    rw [LoweredParameters] at hc
    simp [hc]
  | p :: ps, _, _, _, _, hc => by
    rw [LoweredParameters] at hc
    obtain ⟨q, rest, hq, hrest, rfl⟩ := hc
    exact forall_mem_cons.2 ⟨LoweredParameter.holds p hq, LoweredParameters.holds ps hrest⟩

theorem LoweredParameter.holds : ∀ (p : Parameter Expr) {outer captured locals : List String}
    {q : CodeParameter Code}, LoweredParameter externals outer captured locals p q →
    ∀ c, q.range = some c → c.Holds P
  | ⟨_, _, range⟩, _, _, _, _, hc => by
    rw [LoweredParameter] at hc
    obtain ⟨r, hr, rfl⟩ := hc
    exact LoweredOption.holds range hr

theorem LoweredOption.holds : ∀ (o : Option Expr) {outer captured locals : List String}
    {r : Option Code}, LoweredOption externals outer captured locals o r →
    ∀ c, r = some c → c.Holds P
  | none, _, _, _, _, hc => by
    rw [LoweredOption] at hc
    simp [hc]
  | some e, _, _, _, _, hc => by
    rw [LoweredOption] at hc
    obtain ⟨d, hd, rfl⟩ := hc
    rintro c ⟨⟩
    exact Lowered.holds e hd

theorem LoweredStatements.holds : ∀ (ss : List (Statement Expr))
    {outer captured locals : List String} {cs : List Code},
    LoweredStatements externals outer captured locals ss cs → ∀ c ∈ cs, c.Holds P
  | [], _, _, _, _, hc => by
    rw [LoweredStatements] at hc
    simp [hc]
  | s :: ss, _, _, _, _, hc => by
    rw [LoweredStatements] at hc
    obtain ⟨c, rest, hc, hrest, rfl⟩ := hc
    exact forall_mem_cons.2 ⟨LoweredStatement.holds s hc, LoweredStatements.holds ss hrest⟩

theorem LoweredStatement.holds : ∀ (s : Statement Expr) {outer captured locals : List String}
    {c : Code}, LoweredStatement externals outer captured locals s c → c.Holds P
  | ⟨_, _, value, _, _⟩, _, _, _, _, hc => by
    rw [LoweredStatement] at hc
    obtain ⟨d, hd, rfl⟩ := hc
    exact .node nofun (forall_mem_singleton.2 (Lowered.holds value hd))

end

end Syntax.Expr

/-- A program compiles to definitions and a result, whose values are supplied. -/
theorem compile_holds {P : Value → Prop} {externals : Bindings Value} (h : Supplied P externals)
    {program : Syntax.Program} {code : Code} (hc : compile externals program = .ok code) :
    ∃ cs r bindings, code = .program cs r bindings program.span ∧
      (∀ c ∈ cs, c.Statement ∧ c.Holds P) ∧ (∀ c, r = some c → c.Expression ∧ c.Holds P) ∧
      (r = none ↔ program.result = none) := by
  obtain ⟨cs, r, hcs, hr, rfl⟩ := compile_lowered hc
  refine ⟨cs, r, _, rfl, fun c hc => ?_, fun c hc => ?_, ?_⟩
  · exact ⟨Syntax.Expr.LoweredStatements.statement _ hcs c hc,
      Syntax.Expr.LoweredStatements.holds h _ hcs c hc⟩
  · exact ⟨Syntax.Expr.LoweredOption.expression _ hr c hc, Syntax.Expr.LoweredOption.holds h _ hr c hc⟩
  · cases hresult : program.result with
    | none =>
      rw [hresult, Syntax.Expr.LoweredOption] at hr
      simp [hr]
    | some e =>
      rw [hresult, Syntax.Expr.LoweredOption] at hr
      obtain ⟨d, -, rfl⟩ := hr
      simp

end Estimation
