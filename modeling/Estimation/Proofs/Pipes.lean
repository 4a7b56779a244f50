import Estimation.Proofs.Alike.Occurrences
import Estimation.Proofs.Visibility

/-!
Pipes written as calls. Whichever pipes of a program are replaced by calls with what stood before the pipe
as their first argument, the same names stand in it where the same names are visible.
-/

namespace Estimation.Syntax

open List

section

variable {α δ : Type} (R : α → δ → Prop)

inductive EntryAlong : Entry α → Entry δ → Prop
  | intro {key keySpan a b} : R a b → EntryAlong ⟨key, keySpan, a⟩ ⟨key, keySpan, b⟩

inductive ParameterAlong : Parameter α → Parameter δ → Prop
  | intro {name span a b} : Option.Rel R a b → ParameterAlong ⟨name, span, a⟩ ⟨name, span, b⟩

inductive StatementAlong : Statement α → Statement δ → Prop
  | intro {name nameSpan exported span a b} : R a b →
      StatementAlong ⟨name, nameSpan, a, exported, span⟩ ⟨name, nameSpan, b, exported, span⟩

end

/-- Some pipes have been replaced by calls, with what is piped as their first argument. -/
inductive Expr.Unpiped : Expr → Expr → Prop
  | number (x span) : Unpiped (.number x span) (.number x span)
  | string (s span) : Unpiped (.string s span) (.string s span)
  | bool (b span) : Unpiped (.bool b span) (.bool b span)
  | identifier (name span) : Unpiped (.identifier name span) (.identifier name span)
  | list {es fs} (span) : Forall₂ Unpiped es fs → Unpiped (.list es span) (.list fs span)
  | dict {es fs} (span) : Forall₂ (EntryAlong Unpiped) es fs → Unpiped (.dict es span) (.dict fs span)
  | block {ss ts e f} (span) : Forall₂ (StatementAlong Unpiped) ss ts → Unpiped e f →
      Unpiped (.block ss e span) (.block ts f span)
  | lambda {ps qs e f} (name span) : Forall₂ (ParameterAlong Unpiped) ps qs → Unpiped e f →
      Unpiped (.lambda name ps e span) (.lambda name qs f span)
  | call {e f es fs} (span) : Unpiped e f → Forall₂ Unpiped es fs →
      Unpiped (.call e es span) (.call f fs span)
  | binary {l l' r r'} (op span) : Unpiped l l' → Unpiped r r' →
      Unpiped (.binary op l r span) (.binary op l' r' span)
  | unary {e f} (op span) : Unpiped e f → Unpiped (.unary op e span) (.unary op f span)
  | pipe {l l' e f es fs} (span) : Unpiped l l' → Unpiped e f → Forall₂ Unpiped es fs →
      Unpiped (.pipe l e es span) (.pipe l' f fs span)
  | called {l l' e f es fs} (span) : Unpiped l l' → Unpiped e f → Forall₂ Unpiped es fs →
      Unpiped (.pipe l e es span) (.call f (l' :: fs) span)
  | member {e f} (key span) : Unpiped e f → Unpiped (.member e key span) (.member f key span)
  | lookup {e e' f f'} (span) : Unpiped e e' → Unpiped f f' →
      Unpiped (.lookup e f span) (.lookup e' f' span)
  | choice {c c' e e' f f'} (span) : Unpiped c c' → Unpiped e e' → Unpiped f f' →
      Unpiped (.choice c e f span) (.choice c' e' f' span)

structure Program.Unpiped (p q : Program) : Prop where
  imports : p.imports = q.imports
  statements : Forall₂ (StatementAlong Expr.Unpiped) p.statements q.statements
  result : Option.Rel Expr.Unpiped p.result q.result
  span : p.span = q.span

namespace Piece

inductive Unpiped : Piece → Piece → Prop
  | expr {e f} : e.Unpiped f → Unpiped (.expr e) (.expr f)
  | statement {s t} : StatementAlong Expr.Unpiped s t → Unpiped (.statement s) (.statement t)
  | mark (span) : Unpiped (.mark span) (.mark span)

/-- Pieces where the same names are visible, and how they come out. -/
abbrev Together (a b : List String × Piece) : Prop := a.1 = b.1 ∧ a.2.Unpiped b.2

variable {p q : Piece} {es fs : List Expr} {visible : List String}

theorem exprs_together (h : Forall₂ Expr.Unpiped es fs) (visible : List String) :
    Forall₂ Together ((es.map Piece.expr).map (visible, ·)) ((fs.map Piece.expr).map (visible, ·)) := by
  induction h with
  | nil => exact .nil
  | cons h _ ih => exact .cons ⟨rfl, .expr h⟩ ih

theorem entries_together {es fs : List (Entry Expr)} (h : Forall₂ (EntryAlong Expr.Unpiped) es fs)
    (visible : List String) :
    Forall₂ Together ((es.flatMap ofEntry).map (visible, ·)) ((fs.flatMap ofEntry).map (visible, ·)) := by
  induction h with
  | nil => exact .nil
  | cons h _ ih =>
    obtain ⟨h⟩ := h
    exact .cons ⟨rfl, .mark _⟩ (.cons ⟨rfl, .expr h⟩ ih)

theorem parameters_together {ps qs : List (Parameter Expr)}
    (h : Forall₂ (ParameterAlong Expr.Unpiped) ps qs) (visible : List String) :
    ps.map Parameter.name = qs.map Parameter.name ∧
    Forall₂ Together ((ps.flatMap ofParameter).map (visible, ·))
      ((qs.flatMap ofParameter).map (visible, ·)) := by
  induction h with
  | nil => exact ⟨rfl, .nil⟩
  | cons h _ ih =>
    obtain ⟨h⟩ := h
    refine ⟨congrArg (_ :: ·) ih.1, ?_⟩
    cases h with
    | none => exact .cons ⟨rfl, .mark _⟩ ih.2
    | some h => exact .cons ⟨rfl, .mark _⟩ (.cons ⟨rfl, .expr h⟩ ih.2)

theorem statements_together {ss ts : List (Statement Expr)}
    (h : Forall₂ (StatementAlong Expr.Unpiped) ss ts) (visible : List String) :
    ss.map Statement.name = ts.map Statement.name ∧
    Forall₂ Together (inTurn visible ss) (inTurn visible ts) := by
  induction h generalizing visible with
  | nil => exact ⟨rfl, .nil⟩
  | cons h _ ih =>
    obtain ⟨h⟩ := h
    exact ⟨congrArg (_ :: ·) (ih visible).1, .cons ⟨rfl, .statement (.intro h)⟩ (ih _).2⟩

/-- The pieces come out one by one, but that the function of a call stands before what was piped. -/
theorem Unpiped.within (h : p.Unpiped q) (visible : List String) :
    ∃ ps, ps.Perm (p.within visible) ∧ Forall₂ Together ps (q.within visible) := by
  cases h with
  | mark span => exact ⟨_, .refl _, .nil⟩
  | statement h =>
    obtain ⟨h⟩ := h
    exact ⟨_, .refl _, .cons ⟨rfl, .expr h⟩ .nil⟩
  | expr h =>
    cases h with
    | number | string | bool | identifier => exact ⟨_, .refl _, .nil⟩
    | list span hs => exact ⟨_, .refl _, exprs_together hs visible⟩
    | dict span hs => exact ⟨_, .refl _, entries_together hs visible⟩
    | block span hs h =>
      obtain ⟨hnames, hs⟩ := statements_together hs visible
      exact ⟨_, .refl _, rel_append hs (.cons ⟨by rw [hnames], .expr h⟩ .nil)⟩
    | lambda name span hs h =>
      obtain ⟨hnames, hs⟩ := parameters_together hs visible
      exact ⟨_, .refl _, rel_append hs (.cons ⟨by rw [hnames], .expr h⟩ .nil)⟩
    | call span h hs => exact ⟨_, .refl _, .cons ⟨rfl, .expr h⟩ (exprs_together hs visible)⟩
    | binary op span h h' => exact ⟨_, .refl _, .cons ⟨rfl, .expr h⟩ (.cons ⟨rfl, .expr h'⟩ .nil)⟩
    | unary op span h => exact ⟨_, .refl _, .cons ⟨rfl, .expr h⟩ .nil⟩
    | pipe span h h' hs =>
      exact ⟨_, .refl _, .cons ⟨rfl, .expr h⟩ (.cons ⟨rfl, .expr h'⟩ (exprs_together hs visible))⟩
    | called span h h' hs =>
      exact ⟨_, .swap _ _ _, .cons ⟨rfl, .expr h'⟩ (.cons ⟨rfl, .expr h⟩ (exprs_together hs visible))⟩
    | member key span h => exact ⟨_, .refl _, .cons ⟨rfl, .expr h⟩ .nil⟩
    | lookup span h h' => exact ⟨_, .refl _, .cons ⟨rfl, .expr h⟩ (.cons ⟨rfl, .expr h'⟩ .nil)⟩
    | choice span h h' h'' =>
      exact ⟨_, .refl _, .cons ⟨rfl, .expr h⟩ (.cons ⟨rfl, .expr h'⟩ (.cons ⟨rfl, .expr h''⟩ .nil))⟩

theorem Unpiped.mem_within (h : p.Unpiped q) {a : List String × Piece} (ha : a ∈ p.within visible) :
    ∃ b ∈ q.within visible, Together a b := by
  obtain ⟨ps, hperm, hall⟩ := h.within visible
  exact related_of_mem hall.flip (hperm.mem_iff.2 ha)

theorem Unpiped.of_mem_within (h : p.Unpiped q) {b : List String × Piece} (hb : b ∈ q.within visible) :
    ∃ a ∈ p.within visible, Together a b := by
  obtain ⟨ps, hperm, hall⟩ := h.within visible
  obtain ⟨a, ha, hab⟩ := related_of_mem hall hb
  exact ⟨a, hperm.mem_iff.1 ha, hab⟩

theorem Unpiped.mentions (h : p.Unpiped q) {names : List String} {name : String} {span : Span} :
    p.Mentions visible names name span ↔ q.Mentions visible names name span := by
  constructor
  · intro hp
    induction hp generalizing q with
    | name =>
      cases h with
      | expr h =>
        cases h with
        | identifier => exact .name
    | inner hmem _ ih =>
      obtain ⟨⟨_, _⟩, hb, rfl, hab⟩ := h.mem_within hmem
      exact .inner hb (ih hab)
  · intro hq
    induction hq generalizing p with
    | name =>
      cases h with
      | expr h =>
        cases h with
        | identifier => exact .name
    | inner hmem _ ih =>
      obtain ⟨⟨_, _⟩, ha, rfl, hab⟩ := h.of_mem_within hmem
      exact .inner ha (ih hab)

end Piece

namespace Program.Unpiped

variable {p q : Program}

theorem scopes (h : p.Unpiped q) : Forall₂ Piece.Together p.scopes q.scopes := by
  obtain ⟨hnames, hstatements⟩ := Piece.statements_together h.statements []
  refine rel_append hstatements ?_
  rw [hnames]
  have hresult := h.result
  generalize p.result = r at hresult
  generalize q.result = r' at hresult
  cases hresult with
  | none => exact .nil
  | some h => exact .cons ⟨rfl, .expr h⟩ .nil

theorem mentions (h : p.Unpiped q) {names : List String} {name : String} {span : Span} :
    p.Mentions names name span ↔ q.Mentions names name span := by
  constructor
  · rintro ⟨⟨_, _⟩, ha, hmentions⟩
    obtain ⟨⟨_, _⟩, hb, rfl, hab⟩ := related_of_mem h.scopes.flip ha
    exact ⟨_, hb, hab.mentions.1 hmentions⟩
  · rintro ⟨⟨_, _⟩, hb, hmentions⟩
    obtain ⟨⟨_, _⟩, ha, rfl, hab⟩ := related_of_mem h.scopes hb
    exact ⟨_, ha, hab.mentions.2 hmentions⟩

/-- Pipes written as calls lack no other names. -/
theorem compile_iff (h : p.Unpiped q) (externals : Bindings Value) :
    (∃ c, compile externals p = .ok c) ↔ ∃ d, compile externals q = .ok d := by
  simp only [compile_ok_iff, h.mentions]

end Program.Unpiped

end Estimation.Syntax
