import Estimation.Proofs.Layout
import Estimation.Proofs.Lowering

/-!
Which names are visible at the pieces of a program. Compilation looks names up in functions that are open
one in another, and in the slots of each; what it finds are the names that stand before a piece.
-/

namespace Estimation

open List

namespace Syntax

namespace Piece

/-- Statements in turn, each behind the names of those before it. -/
def inTurn (visible : List String) : List (Statement Expr) → List (List String × Piece)
  | [] => []
  | s :: ss => (visible, .statement s) :: inTurn (visible ++ [s.name]) ss

/-- The pieces that a piece is made of, with the names visible at each. The result of a block is behind
its statements, the body of a function behind its parameters, which their own ranges are not. -/
def within (visible : List String) : Piece → List (List String × Piece)
  | .expr (.block statements result _) =>
    inTurn visible statements ++ [(visible ++ statements.map Statement.name, .expr result)]
  | .expr (.lambda _ parameters body _) =>
    (parameters.flatMap ofParameter).map (visible, ·) ++
      [(visible ++ parameters.map Parameter.name, .expr body)]
  | p => p.pieces.map (visible, ·)

/-- In a piece where some names are visible, a name stands at a span where others are. -/
inductive Mentions : Piece → List String → List String → String → Span → Prop
  | name {visible : List String} {name : String} {span : Span} :
      Mentions (.expr (.identifier name span)) visible visible name span
  | inner {visible visible' names : List String} {p q : Piece} {name : String} {span : Span} :
      (visible', q) ∈ p.within visible → Mentions q visible' names name span →
      Mentions p visible names name span

end Piece

/-- The pieces of a program that can have names in them, with the names visible at each. -/
def Program.scopes (program : Program) : List (List String × Piece) :=
  Piece.inTurn [] program.statements ++
    program.result.toList.map fun e => (program.statements.map Statement.name, .expr e)

/-- In a program, a name stands at a span where others are visible. -/
def Program.Mentions (program : Program) (names : List String) (name : String) (span : Span) : Prop :=
  ∃ p ∈ program.scopes, p.2.Mentions p.1 names name span

end Syntax

namespace Compilation

open Syntax (Piece Expr)
open Scopes

variable {α β : Type}

variable (externals : Bindings Value)

/-- A name is visible, or external, or one of the library. -/
def Bound (visible : List String) (name : String) : Prop :=
  name ∈ visible ∨ (externals.get? name).isSome ∨ (libraryValue? name : Option Value).isSome

/-- The slots of the open functions have the names `l` and `ls`. -/
def Open (l : List String) (ls : List (List String)) (scopes : Scopes) : Prop :=
  ∃ k ks, At l ls k ks scopes

/-- From slots with the names `l` to slots with the names `l'`, a step goes through pieces: every name in
them is bound, or it fails at one that is not. -/
def Checks (ls : List (List String)) (l l' : List String) (ps : List (List String × Piece))
    (step : Compile α) : Prop :=
  ∀ scopes, Open l ls scopes → Meets
    (fun e => ∃ names, (∃ p ∈ ps, p.2.Mentions p.1 names e.name e.span) ∧ ¬ Bound externals names e.name)
    (fun r => Open l' ls r.2 ∧ ∀ names name span,
      (∃ p ∈ ps, p.2.Mentions p.1 names name span) → Bound externals names name)
    (step scopes)

variable {externals}

namespace Checks

variable {ls : List (List String)} {l l' l'' : List String} {ps qs : List (List String × Piece)}
  {step : Compile α}

theorem pure (a : α) : Checks externals ls l l [] (pure a : Compile α) :=
  fun _ hopen => ⟨hopen, fun _ _ _ h => by simp at h⟩

theorem bind (h : Checks externals ls l l' ps step) {next : α → Compile β}
    (hnext : ∀ a, Checks externals ls l' l'' qs (next a)) :
    Checks externals ls l l'' (ps ++ qs) (step >>= next) := by
  intro scopes hopen
  have hstep := h scopes hopen
  change Meets _ _ (step scopes >>= fun r => next r.1 r.2)
  cases hs : step scopes with
  | error e =>
    rw [hs] at hstep
    obtain ⟨names, ⟨p, hp, hmentions⟩, hnot⟩ := hstep
    exact ⟨names, ⟨p, mem_append_left _ hp, hmentions⟩, hnot⟩
  | ok r =>
    rw [hs] at hstep
    obtain ⟨hopen', hps⟩ := hstep
    have hrest := hnext r.1 r.2 hopen'
    change Meets _ _ (next r.1 r.2)
    cases hr : next r.1 r.2 with
    | error e =>
      rw [hr] at hrest
      obtain ⟨names, ⟨p, hp, hmentions⟩, hnot⟩ := hrest
      exact ⟨names, ⟨p, mem_append_right _ hp, hmentions⟩, hnot⟩
    | ok r' =>
      rw [hr] at hrest
      refine ⟨hrest.1, ?_⟩
      rintro names name span ⟨p, hp, hmentions⟩
      rcases mem_append.1 hp with hp | hp
      · exact hps _ _ _ ⟨p, hp, hmentions⟩
      · exact hrest.2 _ _ _ ⟨p, hp, hmentions⟩

/-- What matters of pieces are the names that stand in them. -/
theorem congr (h : Checks externals ls l l' ps step)
    (hpq : ∀ names name span, (∃ p ∈ ps, p.2.Mentions p.1 names name span) ↔
      ∃ q ∈ qs, q.2.Mentions q.1 names name span) : Checks externals ls l l' qs step := by
  intro scopes hopen
  have hstep := h scopes hopen
  cases hs : step scopes with
  | error e =>
    rw [hs] at hstep
    obtain ⟨names, hmentions, hnot⟩ := hstep
    exact ⟨names, (hpq _ _ _).1 hmentions, hnot⟩
  | ok r =>
    rw [hs] at hstep
    exact ⟨hstep.1, fun names name span h => hstep.2 _ _ _ ((hpq names name span).2 h)⟩

/-- The order of the pieces is no matter, and marks have no names. -/
theorem mono (h : Checks externals ls l l' ps step) (hsub : ps ⊆ qs)
    (hmore : ∀ q ∈ qs, q ∈ ps ∨ ∃ span, q.2 = .mark span) : Checks externals ls l l' qs step := by
  refine h.congr fun names name span => ⟨fun ⟨p, hp, hmentions⟩ => ⟨p, hsub hp, hmentions⟩, ?_⟩
  rintro ⟨q, hq, hmentions⟩
  rcases hmore q hq with hp | ⟨place, hmark⟩
  · exact ⟨q, hp, hmentions⟩
  · rw [hmark] at hmentions
    cases hmentions with
    | inner hq => cases hq

theorem mark {visible : List String} {place : Span} (h : Checks externals ls l l' ps step) :
    Checks externals ls l l' ((visible, .mark place) :: ps) step := by
  refine h.mono (subset_cons_self _ _) fun q hq => ?_
  rcases mem_cons.1 hq with rfl | hq
  · exact .inr ⟨place, rfl⟩
  · exact .inl hq

/-- The result of a step goes into what it is part of. -/
theorem map (h : Checks externals ls l l' ps step) (f : α → β) :
    Checks externals ls l l' ps (do return f (← step)) := by
  simpa only [append_nil] using h.bind fun a => pure (f a)

/-- A piece by the pieces that it is made of. -/
theorem node {visible : List String} {p : Piece} (h : Checks externals ls l l' (p.within visible) step)
    (hp : ∀ name span, p ≠ .expr (.identifier name span)) :
    Checks externals ls l l' [(visible, p)] step := by
  refine h.congr fun names name span => ⟨?_, ?_⟩
  · rintro ⟨q, hq, hmentions⟩
    exact ⟨(visible, p), mem_cons_self, .inner hq hmentions⟩
  · rintro ⟨_, hmem, hmentions⟩
    obtain rfl := mem_singleton.1 hmem
    cases hmentions with
    | name => exact absurd rfl (hp _ _)
    | inner hq hmentions => exact ⟨_, hq, hmentions⟩

theorem get {next : Scopes → Compile α}
    (h : ∀ scopes, scopes.current.locals = l → Checks externals ls l l' ps (next scopes)) :
    Checks externals ls l l' ps (get >>= next) := by
  intro scopes hopen
  obtain ⟨k, ks, hat⟩ := hopen
  exact h scopes hat.locals scopes ⟨k, ks, hat⟩

theorem define {name : String} {next : Nat → Compile α}
    (h : Checks externals ls (l ++ [name]) l' ps (next l.length)) :
    Checks externals ls l l' ps (modifyGet (Scopes.define name) >>= next) := by
  rintro scopes ⟨k, ks, rfl, ho, hj⟩
  exact h (scopes.define name).2 ⟨k, ks, rfl, ho, hj.relocate _⟩

theorem truncate {more : List String} {next : PUnit → Compile α}
    (h : Checks externals ls l l' ps (next ⟨⟩)) :
    Checks externals ls (l ++ more) l' ps (modify (Scopes.truncate l.length) >>= next) := by
  rintro scopes ⟨k, ks, hl, ho, hj⟩
  refine h (scopes.truncate l.length) ⟨k, ks, ?_, ho, hj.relocate _⟩
  change scopes.current.locals.take l.length = l
  rw [hl, take_left]

/-- What is behind the body of a function is done in the functions around it. -/
theorem function {names : List String} {body : Compile α}
    (h : Checks externals (l :: ls) names names ps body) (f : α → List Variable → β) (g : α → β) :
    Checks externals ls l l ps (do
      modify (·.openFunction names)
      let a ← body
      match (← MonadState.get).closeFunction? with
      | some (captures, scopes) =>
        set scopes
        return f a captures
      | none => return g a) := by
  rintro scopes ⟨k, ks, rfl, rfl, hj⟩
  have hbody := h (scopes.openFunction names) ⟨[], k :: ks, rfl, rfl, .function .nil hj⟩
  change Meets _ _ (body (scopes.openFunction names) >>= fun p => _)
  cases hs : body (scopes.openFunction names) with
  | error e =>
    rw [hs] at hbody
    exact hbody
  | ok p =>
    rw [hs] at hbody
    obtain ⟨a, current, outer⟩ := p
    obtain ⟨⟨k', ks', hl', ho', hj'⟩, hps⟩ := hbody
    cases hj' with
    | program => cases ho'
    | @function _ t rest _ _ _ _ hj' =>
      obtain ⟨ht, hrest⟩ : t.locals = _ ∧ localsOf rest = _ := cons.inj ho'
      exact ⟨⟨_, _, ht, hrest, hj'⟩, hps⟩

end Checks

/-- The names visible are those of the slots of the open functions. -/
def Visible (l : List String) (ls : List (List String)) (visible : List String) : Prop :=
  ∀ name, name ∈ visible ↔ name ∈ l ∨ name ∈ outside ls

namespace Visible

variable {l : List String} {ls : List (List String)} {visible : List String}

theorem define (h : Visible l ls visible) (names : List String) :
    Visible (l ++ names) ls (visible ++ names) := by
  intro name
  rw [mem_append, mem_append, h name, or_right_comm]

theorem openFunction (h : Visible l ls visible) (names : List String) :
    Visible names (l :: ls) (visible ++ names) := by
  intro name
  rw [mem_append, h name, outside, mem_append, mem_reverse, or_comm]

end Visible

theorem identifier_checks {l : List String} {ls : List (List String)} {visible : List String}
    (hv : Visible l ls visible) (name : String) (span : Span) :
    Checks externals ls l l [(visible, .expr (.identifier name span))]
      (identifier externals name span) := by
  have hmentions : ∀ {names name' span'}, (∃ p ∈ [(visible, Piece.expr (.identifier name span))],
      p.2.Mentions p.1 names name' span') → names = visible ∧ name' = name := by
    rintro names name' span' ⟨_, hmem, hmentions⟩
    obtain rfl := mem_singleton.1 hmem
    cases hmentions with
    | name => exact ⟨rfl, rfl⟩
    | inner hq => cases hq
  rintro scopes ⟨k, ks, rfl, rfl, hj⟩
  rw [Lowers.identifier_run, Scopes.resolve]
  cases hr : resolveIn name scopes.current scopes.outer with
  | some found =>
    obtain ⟨source, current, outer⟩ := found
    obtain ⟨k', ks', -, -, hj', hl, ho, hs⟩ := resolveIn_located hj hr
    refine ⟨⟨k', ks', hl, ho, hj'⟩, fun names name' span' h => ?_⟩
    obtain ⟨rfl, rfl⟩ := hmentions h
    exact .inl ((hv name').2 hs.mem)
  | none =>
    dsimp only [Option.map_none]
    cases hvalue : (externals.get? name).or (libraryValue? name) with
    | none =>
      obtain ⟨hexternal, hlibrary⟩ := Option.or_eq_none_iff.1 hvalue
      refine ⟨visible, ⟨_, mem_cons_self, .name⟩, ?_⟩
      rintro (h | h | h)
      · exact not_or.2 (not_mem_of_resolveIn hr) ((hv name).1 h)
      · exact absurd h (by simp [hexternal])
      · exact absurd h (by simp [hlibrary])
    | some v =>
      refine ⟨⟨k, ks, rfl, rfl, hj⟩, fun names name' span' h => ?_⟩
      obtain ⟨rfl, rfl⟩ := hmentions h
      refine .inr ((Option.or_eq_some_iff.1 hvalue).imp ?_ fun h => ?_)
      · exact fun h => by rw [h]; rfl
      · rw [h.2]; rfl

section

open Syntax

mutual

theorem expr_checks : ∀ (e : Expr) {ls : List (List String)} {l visible : List String},
    Visible l ls visible → Checks externals ls l l [(visible, .expr e)] (expr externals e)
  | .number _ _, _, _, _, _ => by
    simp only [expr]
    exact .node (.pure _) nofun
  | .string _ _, _, _, _, _ => by
    simp only [expr]
    exact .node (.pure _) nofun
  | .bool _ _, _, _, _, _ => by
    simp only [expr]
    exact .node (.pure _) nofun
  | .identifier name span, _, _, _, h => by
    rw [expr]
    exact identifier_checks h name span
  | .list items _, _, _, _, h => by
    simp only [expr]
    refine .node ?_ nofun
    simpa only [Piece.within, Piece.pieces, Piece.ofExpr, map_map] using (exprs_checks items h).map _
  | .dict entries _, _, _, _, h => by
    simp only [expr]
    exact .node ((dictEntries_checks entries h).map _) nofun
  | .block statements result _, ls, l, visible, h => by
    simp only [expr]
    refine .node (.get fun scopes hl => ?_) nofun
    rw [Scopes.localCount, hl]
    refine (block_checks statements h).bind fun _ => ?_
    refine ((expr_checks result (h.define _)).bind fun _ => .truncate (.pure _))
  | .lambda name ps body place, _, _, _, h => by
    simp only [expr]
    refine .node ((parameters_checks ps h).bind fun qs => ?_) nofun
    exact .function (expr_checks body (h.openFunction _)) (fun d sources => Code.lambda name qs sources d place)
      fun d => Code.lambda name qs [] d place
  | .call callee args _, _, _, _, h => by
    simp only [expr]
    exact .node ((expr_checks callee h).bind fun _ => (exprs_checks args h).map _) nofun
  | .binary _ left right _, _, _, _, h => by
    simp only [expr]
    exact .node ((expr_checks left h).bind fun _ => (expr_checks right h).map _) nofun
  | .unary _ operand _, _, _, _, h => by
    simp only [expr]
    exact .node ((expr_checks operand h).map _) nofun
  | .pipe left callee args _, _, _, _, h => by
    simp only [expr]
    refine .node (((expr_checks left h).bind fun _ => (exprs_checks args h).bind fun _ =>
      (expr_checks callee h).map _).mono ?_ fun q hq => .inl ?_) nofun
    · simp [Piece.within, Piece.pieces, Piece.ofExpr]
    · simpa [Piece.within, Piece.pieces, Piece.ofExpr, or_comm, or_left_comm] using hq
  | .member target _ _, _, _, _, h => by
    simp only [expr]
    exact .node ((expr_checks target h).map _) nofun
  | .lookup target index _, _, _, _, h => by
    simp only [expr]
    exact .node ((expr_checks target h).bind fun _ => (expr_checks index h).map _) nofun
  | .choice condition ifTrue ifFalse _, _, _, _, h => by
    simp only [expr]
    exact .node ((expr_checks condition h).bind fun _ => (expr_checks ifTrue h).bind fun _ =>
      (expr_checks ifFalse h).map _) nofun

theorem exprs_checks : ∀ (es : List Expr) {ls : List (List String)} {l visible : List String},
    Visible l ls visible →
    Checks externals ls l l ((es.map Piece.expr).map (visible, ·)) (exprs externals es)
  | [], _, _, _, _ => by
    simp only [exprs]
    exact .pure _
  | e :: es, _, _, _, h => by
    simp only [exprs]
    exact (expr_checks e h).bind fun _ => (exprs_checks es h).map _

theorem dictEntries_checks : ∀ (entries : List (Entry Expr)) {ls : List (List String)}
    {l visible : List String}, Visible l ls visible →
    Checks externals ls l l ((entries.flatMap Piece.ofEntry).map (visible, ·))
      (dictEntries externals entries)
  | [], _, _, _, _ => by
    simp only [dictEntries]
    exact .pure _
  | entry :: entries, _, _, _, h => by
    simp only [dictEntries, flatMap_cons, map_append]
    exact (dictEntry_checks entry h).bind fun _ => (dictEntries_checks entries h).map _

theorem dictEntry_checks : ∀ (entry : Entry Expr) {ls : List (List String)} {l visible : List String},
    Visible l ls visible →
    Checks externals ls l l ((Piece.ofEntry entry).map (visible, ·)) (dictEntry externals entry)
  | ⟨_, _, value⟩, _, _, _, h => by
    simp only [dictEntry]
    exact .mark ((expr_checks value h).map _)

theorem parameters_checks : ∀ (ps : List (Syntax.Parameter Expr)) {ls : List (List String)}
    {l visible : List String}, Visible l ls visible →
    Checks externals ls l l ((ps.flatMap Piece.ofParameter).map (visible, ·)) (parameters externals ps)
  | [], _, _, _, _ => by
    simp only [parameters]
    exact .pure _
  | p :: ps, _, _, _, h => by
    simp only [parameters, flatMap_cons, map_append]
    exact (parameter_checks p h).bind fun _ => (parameters_checks ps h).map _

theorem parameter_checks : ∀ (p : Syntax.Parameter Expr) {ls : List (List String)} {l visible : List String},
    Visible l ls visible →
    Checks externals ls l l ((Piece.ofParameter p).map (visible, ·)) (parameter externals p)
  | ⟨_, _, range⟩, _, _, _, h => by
    simp only [parameter]
    exact .mark ((optional_checks range h).map _)

theorem optional_checks : ∀ (o : Option Expr) {ls : List (List String)} {l visible : List String},
    Visible l ls visible →
    Checks externals ls l l ((o.toList.map Piece.expr).map (visible, ·)) (optional externals o)
  | none, _, _, _, _ => by
    simp only [optional]
    exact .pure _
  | some e, _, _, _, h => by
    simp only [optional]
    exact (expr_checks e h).map _

theorem definition_checks : ∀ (s : Statement Expr) {ls : List (List String)} {l visible : List String},
    Visible l ls visible →
    Checks externals ls l (l ++ [s.name]) [(visible, .statement s)] (definition externals s)
  | ⟨_, _, value, _, _⟩, _, _, _, h => by
    simp only [definition]
    exact .node ((expr_checks value h).bind fun _ => .define (.pure _)) nofun

theorem block_checks : ∀ (ss : List (Statement Expr)) {ls : List (List String)} {l visible : List String},
    Visible l ls visible →
    Checks externals ls l (l ++ ss.map Statement.name) (Piece.inTurn visible ss) (block externals ss)
  | [], _, _, _, _ => by
    simp only [block, map_nil, append_nil]
    exact .pure _
  | s :: ss, _, _, _, h => by
    simp only [block, map_cons]
    rw [append_cons]
    exact (definition_checks s h).bind fun _ => (block_checks ss (h.define [s.name])).map _

end

theorem definitions_checks (ss : List (Statement Expr)) {ls : List (List String)}
    {l visible : List String} (h : Visible l ls visible) (bindings : List TopBinding) :
    Checks externals ls l (l ++ ss.map Statement.name) (Piece.inTurn visible ss)
      (definitions externals ss bindings) := by
  induction ss generalizing l visible bindings with
  | nil =>
    simp only [definitions, map_nil, append_nil]
    exact .pure _
  | cons s ss ih =>
    simp only [definitions, map_cons]
    rw [append_cons]
    exact (definition_checks s h).bind fun p => (ih (h.define [s.name]) _).map _

end

end Compilation

open Compilation

theorem Native.libraryValue_name (f : Native) :
    libraryValue? f.name = some (.lambda (.native f) : Value) := by
  have hname : Native.ofName? f.name = some f := by cases f <;> rfl
  rw [libraryValue?, hname]
  rfl

/-- A program compiles if all names in it are bound, and what it lacks otherwise is not. -/
theorem compile_checks (externals : Bindings Value) (program : Syntax.Program) : Meets
    (fun e => ∃ names, program.Mentions names e.name e.span ∧ ¬ Bound externals names e.name)
    (fun _ => ∀ names name span, program.Mentions names name span → Bound externals names name)
    (compile externals program) := by
  have hstart : Visible [] [] [] := fun name => by simp [Scopes.outside]
  have hresult : Visible (program.statements.map Syntax.Statement.name) []
      (program.statements.map Syntax.Statement.name) := hstart.define _
  have hsteps : Checks externals _ _ _ _ _ := (definitions_checks program.statements hstart []).bind
    fun p => (optional_checks program.result hresult).map fun r =>
      Code.program p.1 r p.2 program.span
  have hrun := hsteps .start ⟨[], [], rfl, rfl, .program⟩
  rw [map_map] at hrun
  exact hrun.bind fun r hr => hr.2

theorem compile_ok_iff (externals : Bindings Value) (program : Syntax.Program) :
    (∃ code, compile externals program = .ok code) ↔
      ∀ names name span, program.Mentions names name span → Bound externals names name := by
  have hchecks := compile_checks externals program
  cases hcompile : compile externals program with
  | ok code =>
    rw [hcompile] at hchecks
    exact iff_of_true ⟨code, rfl⟩ hchecks
  | error e =>
    rw [hcompile] at hchecks
    obtain ⟨names, hmentions, hnot⟩ := hchecks
    exact iff_of_false nofun fun hbound => hnot (hbound _ _ _ hmentions)

/-- Programs compile whose names are all bound, each where it stands: by a statement before it in a block
or the program around it, by a parameter of a function around it, as an external name or as one of the
library. No other program does, and what is missing is then a name that is not bound where it stands. The
functions that operators stand for are never missing. -/
theorem compile_iff_bound (externals : Bindings Value) (program : Syntax.Program) :
    ((∃ code, compile externals program = .ok code) ↔
      ∀ names name span, program.Mentions names name span → Bound externals names name) ∧
    (∀ e, compile externals program = .error e →
      ∃ names, program.Mentions names e.name e.span ∧ ¬ Bound externals names e.name) ∧
    ∀ f : Native, libraryValue? f.name = some (.lambda (.native f) : Value) := by
  refine ⟨compile_ok_iff externals program, fun e he => ?_, Native.libraryValue_name⟩
  have hchecks := compile_checks externals program
  rw [he] at hchecks
  exact hchecks

end Estimation
