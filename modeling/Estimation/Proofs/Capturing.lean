import Estimation.Proofs.Lowering
import Estimation.Proofs.Parts

/-!
What compiled functions capture: each variable once, and none that they do not need. While captures are
found, those that are new in a function are needed by the code that was compiled meanwhile, and those that
are new in the function around it by the captures of the inner one.
-/

namespace Estimation

open List

namespace Code

/-- The code that is run where code stands, which of a lambda are the ranges of its parameters. -/
def own : Code → List Code
  | .lambda _ parameters _ _ _ => parameters.filterMap CodeParameter.range
  | c => c.pieces

/-- Where it stands, code needs what is captured under an index. -/
inductive Captures (i : Nat) : Code → Prop
  | read {span} : Captures i (.read (.capture i) span)
  | taken {name parameters sources body span} : .capture i ∈ sources →
      Captures i (.lambda name parameters sources body span)
  | own {c d} : d ∈ c.own → Captures i d → Captures i c

/-- Lambdas capture each variable once, and none that their bodies do not need. -/
def Snug (c : Code) : Prop :=
  ∀ ⦃name parameters sources body span⦄, (Code.lambda name parameters sources body span).PartOf c →
    sources.Nodup ∧ ∀ i < sources.length, body.Captures i

variable {c d : Code}

theorem Snug.piece (h : c.Snug) (hd : d ∈ c.pieces) : d.Snug :=
  fun _ _ _ _ _ hpart => h (hpart.trans (.of_mem hd))

theorem Snug.node (h : ∀ d ∈ c.pieces, d.Snug)
    (hc : ∀ name parameters sources body span, c = .lambda name parameters sources body span →
      sources.Nodup ∧ ∀ i < sources.length, body.Captures i) : c.Snug := by
  intro name parameters sources body span hpart
  generalize hl : Code.lambda name parameters sources body span = l at hpart
  cases hpart with
  | self => exact hc _ _ _ _ _ hl.symm
  | piece hpart hpiece => exact h _ hpiece (hl ▸ hpart)

/-- Code is snug and needs what is captured under some indexes. -/
structure Tidy (used : Nat → Prop) (c : Code) : Prop where
  snug : c.Snug
  captures : ∀ i, used i → c.Captures i

structure AllTidy (used : Nat → Prop) (cs : List Code) : Prop where
  snug : ∀ c ∈ cs, c.Snug
  captures : ∀ i, used i → ∃ c ∈ cs, c.Captures i

namespace AllTidy

variable {used used' : Nat → Prop} {cs ds : List Code}

theorem nil : AllTidy (fun _ => False) [] := ⟨nofun, nofun⟩

theorem mono (h : AllTidy used cs) (hused : ∀ i, used' i → used i) : AllTidy used' cs :=
  ⟨h.snug, fun i hi => h.captures i (hused i hi)⟩

theorem append (h : AllTidy used cs) (h' : AllTidy used' ds) :
    AllTidy (fun i => used i ∨ used' i) (cs ++ ds) := by
  refine ⟨forall_mem_append.2 ⟨h.snug, h'.snug⟩, ?_⟩
  rintro i (hi | hi)
  · obtain ⟨c, hc, hi⟩ := h.captures i hi
    exact ⟨c, mem_append_left _ hc, hi⟩
  · obtain ⟨c, hc, hi⟩ := h'.captures i hi
    exact ⟨c, mem_append_right _ hc, hi⟩

theorem single (h : c.Tidy used) : AllTidy used [c] :=
  ⟨forall_mem_singleton.2 h.snug, fun i hi => ⟨c, mem_singleton_self c, h.captures i hi⟩⟩

theorem cons (h : c.Tidy used) (h' : AllTidy used' cs) :
    AllTidy (fun i => used i ∨ used' i) (c :: cs) := (single h).append h'

/-- Constants need nothing. -/
theorem value (h : AllTidy used cs) (v : Value) (span : Span) : AllTidy used (.value v span :: cs) := by
  refine ⟨forall_mem_cons.2 ⟨.node nofun nofun, h.snug⟩, fun i hi => ?_⟩
  obtain ⟨c, hc, hi⟩ := h.captures i hi
  exact ⟨c, mem_cons_of_mem _ hc, hi⟩

end AllTidy

variable {used used' : Nat → Prop}

/-- All code but lambdas is run where it stands. -/
theorem Tidy.node (h : AllTidy used c.pieces) (hc : c.own = c.pieces)
    (hl : ∀ name parameters sources body span, c ≠ .lambda name parameters sources body span) :
    c.Tidy used where
  snug := .node h.snug fun _ _ _ _ _ heq => absurd heq (hl _ _ _ _ _)
  captures i hi := by
    obtain ⟨d, hd, hi⟩ := h.captures i hi
    exact .own (hc ▸ hd) hi

theorem Tidy.lambda {ps : List (CodeParameter Code)} {sources : List Variable}
    (hps : AllTidy used (ps.filterMap CodeParameter.range)) (hbody : c.Tidy used')
    (hsources : sources.Nodup) (hused : ∀ i < sources.length, used' i) (name : Option String)
    (span : Span) :
    (Code.lambda name ps sources c span).Tidy (fun i => used i ∨ .capture i ∈ sources) where
  snug := by
    refine .node (forall_mem_append.2 ⟨hps.snug, forall_mem_singleton.2 hbody.snug⟩) ?_
    rintro _ _ _ _ _ ⟨⟩
    exact ⟨hsources, fun i hi => hbody.captures i (hused i hi)⟩
  captures := by
    rintro i (hi | hi)
    · obtain ⟨d, hd, hi⟩ := hps.captures i hi
      exact .own hd hi
    · exact .taken hi

end Code

namespace Scopes

/-- Captures have been added to those of functions, the innermost first. The new ones of the first function
are used under their indexes, those of another by the captures of the one before it. -/
inductive Grown : (Nat → Prop) → List FunctionScope → List FunctionScope → Prop
  | nil {used} : Grown used [] []
  | cons {used s s' rest rest'} : s.captures <+: s'.captures →
      (s.captures.Nodup → s'.captures.Nodup) →
      (∀ i, s.captures.length ≤ i → i < s'.captures.length → used i) →
      Grown (fun i => .capture i ∈ s'.captures) rest rest' → Grown used (s :: rest) (s' :: rest')

namespace Grown

variable {used used' : Nat → Prop} {xs ys zs : List FunctionScope}

theorem mono (h : Grown used xs ys) (hused : ∀ i, used i → used' i) : Grown used' xs ys := by
  cases h with
  | nil => exact .nil
  | cons hpre hnodup hnew hrest =>
    exact .cons hpre hnodup (fun i hi hi' => hused i (hnew i hi hi')) hrest

theorem refl (used : Nat → Prop) (xs : List FunctionScope) : Grown used xs xs := by
  induction xs generalizing used with
  | nil => exact .nil
  | cons s xs ih =>
    exact .cons prefix_rfl id (fun i hi hi' => absurd hi (Nat.not_le.2 hi')) (ih _)

theorem trans (h : Grown used xs ys) (h' : Grown used' ys zs) :
    Grown (fun i => used i ∨ used' i) xs zs := by
  induction h generalizing used' zs with
  | nil =>
    cases h' with
    | nil => exact .nil
  | @cons used s s' _ _ hpre hnodup hnew _ ih =>
    cases h' with
    | cons hpre' hnodup' hnew' hrest' =>
      refine .cons (hpre.trans hpre') (fun h => hnodup' (hnodup h)) (fun i hi hi' => ?_)
        ((ih hrest').mono fun i => Or.rec (fun hi => hpre'.subset hi) id)
      rcases Nat.lt_or_ge i s'.captures.length with hlt | hge
      · exact .inl (hnew i hi hlt)
      · exact .inr (hnew' i hge hi')

end Grown

theorem capture_grown {scope scope' : FunctionScope} {source : Variable} {n : Nat}
    (h : scope.capture source = (n, scope')) : scope.captures <+: scope'.captures ∧
      (scope.captures.Nodup → scope'.captures.Nodup) ∧
      (∀ i, scope.captures.length ≤ i → i < scope'.captures.length → i = n) ∧
      source ∈ scope'.captures := by
  unfold FunctionScope.capture at h
  split at h
  · next hi =>
    cases h
    obtain ⟨hn, hsource, -⟩ := idxOf?_eq_some_iff.1 hi
    exact ⟨prefix_rfl, id, fun i hi hi' => absurd hi (Nat.not_le.2 hi'), hsource ▸ getElem_mem hn⟩
  · next hnone =>
    cases h
    have hsource : source ∉ scope.captures := idxOf?_eq_none_iff.1 hnone
    refine ⟨prefix_append _ _, fun hnodup => ?_, fun i hi hi' => ?_, mem_append_right _ mem_cons_self⟩
    · refine nodup_append.2 ⟨hnodup, pairwise_singleton _ _, ?_⟩
      rintro a ha b hb rfl
      exact hsource (mem_singleton.1 hb ▸ ha)
    · rw [length_append, length_singleton] at hi'
      exact Nat.le_antisymm (Nat.le_of_lt_succ hi') hi

theorem resolveIn_grown {name : String} {scope scope' : FunctionScope}
    {outer outer' : List FunctionScope} {source : Variable}
    (h : resolveIn name scope outer = some (source, scope', outer')) :
    Grown (fun i => source = .capture i) (scope :: outer) (scope' :: outer') := by
  induction outer generalizing scope scope' outer' source with
  | nil =>
    simp only [resolveIn, Option.map_eq_some_iff] at h
    obtain ⟨n, -, heq⟩ := h
    cases heq
    exact .refl _ _
  | cons next rest ih =>
    simp only [resolveIn] at h
    split at h
    · cases h
      exact .refl _ _
    · split at h
      · cases h
      · next source' next' rest' hr =>
        rcases hc : scope.capture source' with ⟨n, scope''⟩
        rw [hc] at h
        cases h
        obtain ⟨hpre, hnodup, hnew, hmem⟩ := capture_grown hc
        refine .cons hpre hnodup (fun i hi hi' => by rw [hnew i hi hi']) ((ih hr).mono ?_)
        rintro i rfl
        exact hmem

end Scopes

namespace Compilation

open Scopes
open Code (AllTidy Tidy)

variable {α β : Type} {P : (Nat → Prop) → α → Prop} {Q : (Nat → Prop) → β → Prop}

/-- A step adds captures, and what comes out uses those that are new in the innermost function. -/
def Gathers (Q : (Nat → Prop) → α → Prop) (step : Compile α) : Prop :=
  ∀ scopes a scopes', step scopes = .ok (a, scopes') → ∃ used,
    Grown used (scopes.current :: scopes.outer) (scopes'.current :: scopes'.outer) ∧ Q used a

namespace Gathers

variable {step : Compile α}

theorem pure {b : β} (h : Q (fun _ => False) b) : Gathers Q (pure b) := by
  intro scopes a scopes' hstep
  cases hstep
  exact ⟨_, .refl _ _, h⟩

theorem bind (h : Gathers P step) {next : α → Compile β}
    (hnext : ∀ a used, P used a → Gathers (fun used' b => Q (fun i => used i ∨ used' i) b) (next a)) :
    Gathers Q (step >>= next) := by
  intro scopes b scopes'' hstep
  obtain ⟨a, scopes', hs, hstep⟩ := ok_of_bind hstep
  obtain ⟨used, hgrown, hP⟩ := h _ _ _ hs
  obtain ⟨used', hgrown', hQ⟩ := hnext _ _ hP _ _ _ hstep
  exact ⟨_, hgrown.trans hgrown', hQ⟩

theorem map (h : Gathers P step) {f : α → β} (hf : ∀ used a, P used a → Q used (f a)) :
    Gathers Q (do return f (← step)) := by
  intro scopes b scopes' hstep
  obtain ⟨a, _, hs, ⟨⟩⟩ := ok_of_bind hstep
  obtain ⟨used, hgrown, hP⟩ := h _ _ _ hs
  exact ⟨used, hgrown, hf _ _ hP⟩

/-- Steps that change slots only. -/
theorem silent {step : Compile α} (h : ∀ scopes a scopes', step scopes = .ok (a, scopes') →
      scopes'.current.captures = scopes.current.captures ∧ scopes'.outer = scopes.outer)
    {next : α → Compile β} (hnext : ∀ a, Gathers Q (next a)) : Gathers Q (step >>= next) := by
  intro scopes b scopes'' hstep
  obtain ⟨a, scopes', hs, hstep⟩ := ok_of_bind hstep
  obtain ⟨hcaptures, houter⟩ := h _ _ _ hs
  obtain ⟨used, hgrown, hQ⟩ := hnext _ _ _ _ hstep
  refine ⟨used, ?_, hQ⟩
  cases hgrown with
  | cons hpre hnodup hnew hrest =>
    rw [hcaptures] at hpre hnodup hnew
    rw [houter] at hrest
    exact .cons hpre hnodup hnew hrest

/-- All captures of a function are new in its body. -/
theorem function {names : List String} {body : Compile α} (h : Gathers P body)
    {f : α → List Variable → β} {g : α → β}
    (hf : ∀ used a sources, P used a → sources.Nodup → (∀ i < sources.length, used i) →
      Q (fun i => .capture i ∈ sources) (f a sources)) :
    Gathers Q (do
      modify (·.openFunction names)
      let a ← body
      match (← MonadState.get).closeFunction? with
      | some (captures, scopes) =>
        set scopes
        return f a captures
      | none => return g a) := by
  intro scopes b scopes' hstep
  obtain ⟨_, _, ⟨⟩, hstep⟩ := ok_of_bind hstep
  obtain ⟨a, ⟨current, outer⟩, hs, hstep⟩ := ok_of_bind hstep
  obtain ⟨used, hgrown, hP⟩ := h _ _ _ hs
  cases hgrown with
  | cons _ hnodup hnew hrest =>
    cases hrest with
    | cons hpre hnodup' hnew' hrest =>
      cases hstep
      exact ⟨_, .cons hpre hnodup' hnew' hrest,
        hf _ _ _ hP (hnodup nodup_nil) fun i hi => hnew i (Nat.zero_le i) hi⟩

theorem of_start {step : Compile β} (hs : Gathers Q step) {b : β}
    (h : (do return (← step.run .start).1 : Except UnboundName β) = .ok b) : ∃ used, Q used b := by
  change (step .start >>= fun p => .ok p.1) = _ at h
  cases hstep : step .start with
  | error e =>
    rw [hstep] at h
    cases h
  | ok p =>
    rw [hstep] at h
    cases h
    obtain ⟨used, -, hQ⟩ := hs _ _ _ hstep
    exact ⟨used, hQ⟩

end Gathers

section

variable {externals : Bindings Value}

theorem identifier_gathers (name : String) (span : Span) :
    Gathers Tidy (identifier externals name span) := by
  intro scopes c scopes' hstep
  rw [Lowers.identifier_run, Scopes.resolve] at hstep
  cases hr : resolveIn name scopes.current scopes.outer with
  | some found =>
    obtain ⟨source, current, outer⟩ := found
    rw [hr] at hstep
    cases hstep
    refine ⟨_, resolveIn_grown hr, .node (forall_mem_nil _) (by simp), ?_⟩
    rintro i rfl
    exact .read
  | none =>
    rw [hr] at hstep
    dsimp only [Option.map_none] at hstep
    split at hstep
    · cases hstep
      exact ⟨_, .refl _ _, .node .nil rfl (by simp)⟩
    · cases hstep

theorem nativeCall_tidy {used : Nat → Prop} {args : List Code} (h : AllTidy used args) (f : Native)
    (span : Span) : (nativeCall f args span).Tidy used :=
  .node (h.value _ _) rfl nofun

section

open Syntax

mutual

theorem expr_gathers : ∀ e : Expr, Gathers Tidy (expr externals e)
  | .number _ _ => by
    simp only [expr]
    exact .pure (.node .nil rfl nofun)
  | .string _ _ => by
    simp only [expr]
    exact .pure (.node .nil rfl nofun)
  | .bool _ _ => by
    simp only [expr]
    exact .pure (.node .nil rfl nofun)
  | .identifier name span => by
    rw [expr]
    exact identifier_gathers name span
  | .list items _ => by
    simp only [expr]
    exact (exprs_gathers items).map fun _ _ h => .node h rfl nofun
  | .dict entries _ => by
    simp only [expr]
    exact (dictEntries_gathers entries).map fun _ _ h => .node h rfl nofun
  | .block statements result _ => by
    simp only [expr]
    refine .silent (fun _ _ _ h => ?_) fun _ => ?_
    · cases h
      exact ⟨rfl, rfl⟩
    refine (block_gathers statements).bind fun cs _ hcs => (expr_gathers result).bind fun d _ hd => ?_
    refine .silent (fun _ _ _ h => ?_) fun _ => .pure ?_
    · cases h
      exact ⟨rfl, rfl⟩
    · exact .node ((hcs.append (.single hd)).mono (by simp)) rfl nofun
  | .lambda name ps body span => by
    simp only [expr]
    exact (parameters_gathers ps).bind fun _ _ hqs => .function (expr_gathers body)
      fun _ _ _ hc hsources hused => Tidy.lambda hqs hc hsources hused name span
  | .call callee args _ => by
    simp only [expr]
    exact (expr_gathers callee).bind fun _ _ hc => (exprs_gathers args).map fun _ _ hcs =>
      .node (.cons hc hcs) rfl nofun
  | .binary _ left right _ => by
    simp only [expr]
    exact (expr_gathers left).bind fun _ _ hl => (expr_gathers right).map fun _ _ hr =>
      nativeCall_tidy (.cons hl (.single hr)) _ _
  | .unary _ operand _ => by
    simp only [expr]
    exact (expr_gathers operand).map fun _ _ h => nativeCall_tidy (.single h) _ _
  | .pipe left callee args _ => by
    simp only [expr]
    refine (expr_gathers left).bind fun _ _ hl => (exprs_gathers args).bind fun _ _ hcs =>
      (expr_gathers callee).map fun _ _ hc => .node ?_ rfl nofun
    refine (AllTidy.cons hc (.cons hl hcs)).mono fun i hi => ?_
    rwa [← or_assoc, or_comm] at hi
  | .member target key _ => by
    simp only [expr]
    exact (expr_gathers target).map fun _ _ h =>
      nativeCall_tidy ((AllTidy.cons h (.value .nil _ _)).mono (by simp)) _ _
  | .lookup target index _ => by
    simp only [expr]
    exact (expr_gathers target).bind fun _ _ ht => (expr_gathers index).map fun _ _ hi =>
      nativeCall_tidy (.cons ht (.single hi)) _ _
  | .choice condition ifTrue ifFalse _ => by
    simp only [expr]
    exact (expr_gathers condition).bind fun _ _ hc => (expr_gathers ifTrue).bind fun _ _ ht =>
      (expr_gathers ifFalse).map fun _ _ hf => .node (.cons hc (.cons ht (.single hf))) rfl nofun

theorem exprs_gathers : ∀ es : List Expr, Gathers AllTidy (exprs externals es)
  | [] => by
    simp only [exprs]
    exact .pure .nil
  | e :: es => by
    simp only [exprs]
    exact (expr_gathers e).bind fun _ _ hc => (exprs_gathers es).map fun _ _ hcs => .cons hc hcs

theorem dictEntries_gathers : ∀ entries : List (Entry Expr),
    Gathers (fun used pairs => AllTidy used (pairs.flatMap fun p => [p.1, p.2]))
      (dictEntries externals entries)
  | [] => by
    simp only [dictEntries]
    exact .pure .nil
  | entry :: entries => by
    simp only [dictEntries]
    refine (dictEntry_gathers entry).bind fun _ _ hp => (dictEntries_gathers entries).map fun _ _ hps => ?_
    rw [flatMap_cons]
    exact hp.append hps

theorem dictEntry_gathers : ∀ entry : Entry Expr,
    Gathers (fun used p => AllTidy used [p.1, p.2]) (dictEntry externals entry)
  | ⟨_, _, value⟩ => by
    simp only [dictEntry]
    exact (expr_gathers value).map fun _ _ h => .value (.single h) _ _

theorem parameters_gathers : ∀ ps : List (Syntax.Parameter Expr),
    Gathers (fun used qs => AllTidy used (qs.filterMap CodeParameter.range)) (parameters externals ps)
  | [] => by
    simp only [parameters]
    exact .pure .nil
  | p :: ps => by
    simp only [parameters]
    refine (parameter_gathers p).bind fun q _ hq => (parameters_gathers ps).map fun _ _ hqs => ?_
    have happend := hq.append hqs
    rw [filterMap_cons]
    cases hrange : q.range with
    | none => simpa [hrange] using happend
    | some c => simpa [hrange] using happend

theorem parameter_gathers : ∀ p : Syntax.Parameter Expr,
    Gathers (fun used q => AllTidy used q.range.toList) (parameter externals p)
  | ⟨_, _, range⟩ => by
    simp only [parameter]
    exact (optional_gathers range).map fun _ _ h => h

theorem optional_gathers : ∀ o : Option Expr,
    Gathers (fun used r => AllTidy used r.toList) (optional externals o)
  | none => by
    simp only [optional]
    exact .pure .nil
  | some e => by
    simp only [optional]
    exact (expr_gathers e).map fun _ _ h => .single h

theorem definition_gathers : ∀ s : Statement Expr,
    Gathers (fun used p => p.1.Tidy used) (definition externals s)
  | ⟨_, _, value, _, _⟩ => by
    simp only [definition]
    refine (expr_gathers value).bind fun _ _ h => .silent (fun _ _ _ h => ?_) fun _ => .pure ?_
    · cases h
      exact ⟨rfl, rfl⟩
    · exact .node ((AllTidy.single h).mono (by simp)) rfl nofun

theorem block_gathers : ∀ ss : List (Statement Expr), Gathers AllTidy (block externals ss)
  | [] => by
    simp only [block]
    exact .pure .nil
  | s :: ss => by
    simp only [block]
    exact (definition_gathers s).bind fun _ _ h => (block_gathers ss).map fun _ _ hs => .cons h hs

end

theorem definitions_gathers (ss : List (Statement Expr)) (bindings : List TopBinding) :
    Gathers (fun used p => AllTidy used p.1) (definitions externals ss bindings) := by
  induction ss generalizing bindings with
  | nil =>
    simp only [definitions]
    exact .pure .nil
  | cons s ss ih =>
    simp only [definitions]
    exact (definition_gathers s).bind fun _ _ h => (ih _).map fun _ _ hs => .cons h hs

theorem steps_gather (program : Program) :
    Gathers Tidy (do
      let (statements, bindings) ← definitions externals program.statements []
      let result ← optional externals program.result
      return Code.program statements result bindings program.span) :=
  (definitions_gathers program.statements []).bind fun _ _ hs =>
    (optional_gathers program.result).map fun _ _ hr => .node (hs.append hr) rfl (by simp)

end

end

end Compilation

open Compilation

theorem compile_snug {externals : Bindings Value} {program : Syntax.Program} {code : Code}
    (h : compile externals program = .ok code) : code.Snug := by
  obtain ⟨used, htidy⟩ := (steps_gather program).of_start h
  exact htidy.snug

end Estimation
