import Estimation.Proofs.Layout.Readers
import Estimation.Proofs.Making
import Estimation.Proofs.Traces

/-!
Where modules fail. What is wrong with a module or its imports is at a place in its own code. A run
that fails within a call may be at a place in the code of another module, but it got there from a call
in the module's own code.
-/

namespace Estimation

open List

theorem Syntax.Spells.isIn {code : String} {tokens : List Token} {stop : Token} {span : Span}
    (h : Spells tokens span) (hlexes : Token.Lexes code .origin tokens stop) : span.In code := by
  obtain ⟨t, ht, hstart⟩ := h.start
  obtain ⟨u, hu, hstop⟩ := h.stop
  exact ⟨hstart ▸ hlexes.starts t (mem_append_left _ ht), hstop ▸ hlexes.stops u (mem_append_left _ hu),
    Nat.le_of_lt h.nonempty⟩

/-- In the code of a module of a kind. -/
def Span.Within (K : Module → Prop) (span : Span) : Prop := ∃ m, K m ∧ span.In m.code

/-- Where an error is: in some code, or if a run failed then where calls from there led to. -/
structure ModuleError.Located (code : String) (S : Span → Prop) (e : ModuleError) : Prop where
  still : (∀ cause, e ≠ .run cause) → ∀ span, e.span? = some span → span.In code
  running : ∀ cause, e = .run cause → Traced (Span.In code) S cause.trace

/-- What a module offers has functions from code of a kind only. -/
structure Success.Placed (S : Span → Prop) (s : Success) : Prop where
  result : s.result.Placed S
  bindings : ∀ e ∈ s.bindings, e.2.Placed S
  imports : ∀ e ∈ s.imports, e.2.Placed S
  exports : ∀ e ∈ s.exports, e.2.Placed S

/-- If an output is a success, it has functions from code of a kind only. -/
def Output.Offers (S : Span → Prop) (o : Output) : Prop := ∀ s, o.result = .ok s → s.Placed S

namespace ModuleError.Located

variable {code : String} {S : Span → Prop} {e : ModuleError}

theorem of_still (hrun : ∀ cause, e ≠ .run cause) (h : ∀ span, e.span? = some span → span.In code) :
    e.Located code S := ⟨fun _ => h, fun cause he => absurd he (hrun cause)⟩

theorem syntactic {error : Syntax.Error} (h : error.In code) :
    (ModuleError.source (.syntactic error)).Located code S := by
  refine of_still nofun fun span hspan => ?_
  obtain ⟨place, hplace, rfl⟩ := Option.map_eq_some_iff.1 hspan
  refine .point ?_
  cases error with
  | lexical e =>
    cases hplace
    exact h
  | grammatical e => exact h place hplace

theorem unbound {error : UnboundName} (h : error.span.In code) :
    (ModuleError.source (.unbound error)).Located code S := by
  refine of_still nofun fun span hspan => ?_
  cases hspan
  exact .point h.start

theorem ofRun {error : RunError} (h : Traced (Span.In code) S error.trace) :
    (ModuleError.ofRun error).Located code S := by
  rw [ModuleError.ofRun]
  split
  · exact of_still nofun nofun
  · refine ⟨fun hrun => absurd rfl (hrun error), fun cause hcause => ?_⟩
    cases hcause
    exact h

end ModuleError.Located

theorem Module.span_in_of_namedImports {m : Module} {i : Import} {is : List Import}
    (h : m.namedImports = .ok is) (hi : i ∈ is) {span : Span} (hspan : i.span = some span) :
    span.In m.code := by
  have hparse := Syntax.parse_laid m.code
  change (Syntax.parse m.code).map _ = _ at h
  cases hp : Syntax.parse m.code with
  | error e =>
    rw [hp] at h
    cases h
  | ok program =>
    rw [hp] at h hparse
    cases h
    obtain ⟨tokens, stop, -, hlexes, hlaid⟩ := hparse
    obtain ⟨written, hwritten, rfl⟩ := mem_map.1 hi
    cases hspan
    have hmark : Syntax.Piece.mark written.span ∈ program.pieces :=
      mem_append_left _ (mem_append_left _ (mem_map_of_mem hwritten))
    exact (hlaid.pieces _ hmark).spells.isIn hlexes

theorem Sources.span_in_of_knownImports {s : Sources} {name : String} {m : Module} {i : Import}
    (hi : i ∈ s.knownImports name m) {span : Span} (hspan : i.span = some span) :
    span.In m.code := by
  have hcontinued : ∀ j ∈ s.continuedImports name, j.span ≠ some span := by
    intro j hj
    obtain ⟨specifier, -, rfl⟩ := mem_map.1 hj
    nofun
  unfold knownImports importsOf at hi
  cases hnamed : m.namedImports with
  | error e =>
    rw [hnamed] at hi
    exact absurd hspan (hcontinued i hi)
  | ok is =>
    rw [hnamed] at hi
    have hall : ∀ j ∈ s.continuedImports name ++ is, j.span = some span → span.In m.code := by
      intro j hj hspan
      rcases mem_append.1 hj with hj | hj
      · exact absurd hspan (hcontinued j hj)
      · exact Module.span_in_of_namedImports hnamed hj hspan
    cases hpins : s.pins.get? name with
    | none =>
      rw [hpins] at hi
      exact hall i hi hspan
    | some pins =>
      rw [hpins] at hi
      obtain ⟨j, hj, rfl⟩ := mem_map.1 hi
      exact hall j hj hspan

/-- A program of some code, among values with functions from code of a kind only. -/
structure Runnable.Laid (code : String) (S : Span → Prop) (r : Runnable) : Prop where
  program : ∃ tokens, r.program.Laid tokens ∧ ∀ span, Syntax.Spells tokens span → span.In code
  externals : ∀ e ∈ r.externals, e.2.Placed S
  imports : ∀ e ∈ r.imports, e.2.Placed S

namespace Module

variable {m : Module} {S : Span → Prop} {i : Import} {imports : List (Import × ImportOutcome)}

theorem importedBy_located {outcome : ImportOutcome} (hi : ∀ span, i.span = some span → span.In m.code)
    (h : ∀ o, outcome = .ready o → o.Offers S) :
    Meets (ModuleError.Located m.code S) (Success.Placed S) (importedBy i outcome) := by
  cases outcome with
  | failed e => exact .of_still nofun hi
  | ready o =>
    rw [importedBy]
    cases ho : o.result with
    | error e => exact ModuleError.Located.of_still nofun hi
    | ok s => exact h o rfl s ho

theorem gather_located {externals named : Bindings Value}
    (hspans : ∀ i x, (i, x) ∈ imports → ∀ span, i.span = some span → span.In m.code)
    (hoffers : ∀ i o, (i, .ready o) ∈ imports → o.Offers S)
    (hexternals : ∀ e ∈ externals, e.2.Placed S) (hnamed : ∀ e ∈ named, e.2.Placed S) :
    Meets (ModuleError.Located m.code S)
      (fun p => (∀ e ∈ p.1, e.2.Placed S) ∧ ∀ e ∈ p.2, e.2.Placed S)
      (gather imports externals named) := by
  induction imports generalizing externals named with
  | nil => exact ⟨hexternals, hnamed⟩
  | cons outcome rest ih =>
    obtain ⟨i, x⟩ := outcome
    replace ih := fun {externals named} => @ih externals named
      (fun i x hx => hspans i x (mem_cons_of_mem _ hx)) fun i o ho => hoffers i o (mem_cons_of_mem _ ho)
    have hbrought : Meets (ModuleError.Located m.code S) (Success.Placed S) (importedBy i x) :=
      importedBy_located (hspans i x mem_cons_self) fun o ho => hoffers i o (ho ▸ mem_cons_self)
    rw [gather]
    refine hbrought.bind fun s hs => ?_
    cases i.form with
    | continued => exact ih (Bindings.forall_merge hexternals hs.bindings) hnamed
    | named name =>
      have hexports := ValueOf.Placed.dict hs.exports
      exact ih (Bindings.forall_insert hexports hexternals) (Bindings.forall_insert hexports hnamed)

theorem program_laid (m : Module) : Meets (Syntax.Error.In m.code)
    (fun program => ∃ tokens, program.Laid tokens ∧ ∀ span, Syntax.Spells tokens span → span.In m.code)
    m.program :=
  (Syntax.parse_laid m.code).mono fun _ ⟨tokens, _, _, hlexes, hlaid⟩ =>
    ⟨tokens, hlaid, fun _ hspan => hspan.isIn hlexes⟩

theorem runnable_laid (hspans : ∀ i x, (i, x) ∈ imports → ∀ span, i.span = some span → span.In m.code)
    (hoffers : ∀ i o, (i, .ready o) ∈ imports → o.Offers S) :
    Meets (ModuleError.Located m.code S) (Runnable.Laid m.code S) (m.runnable imports) := by
  have hgather : Meets (ModuleError.Located m.code S)
      (fun p => (∀ e ∈ p.1, e.2.Placed S) ∧ ∀ e ∈ p.2, e.2.Placed S) (gather imports [] []) :=
    gather_located hspans hoffers (forall_mem_nil _) (forall_mem_nil _)
  have hprogram := m.program_laid.mapError fun e he => ModuleError.Located.syntactic (S := S) he
  exact hgather.bind fun p hp => hprogram.bind fun program hlaid => ⟨hlaid, hp.1, hp.2⟩

end Module

theorem Runnable.success_located {code : String} {S : Span → Prop} {r : Runnable}
    (h : r.Laid code S) (hown : ∀ span, span.In code → S span) (run : Run)
    (imports : List (Import × ImportOutcome)) :
    Meets (ModuleError.Located code S) (Success.Placed S) (r.success run imports) := by
  obtain ⟨tokens, hprogram, hspells⟩ := h.program
  have houtcome : Meets (ModuleError.Located code S) (Outcome.Placed S) (r.outcome run) := by
    have hplaced (q : Syntax.Piece) (hq : q ∈ r.program.pieces) := (hprogram.pieces q hq).placed hspells
    have hcompile := (compile_placed hplaced h.externals).mapError fun e he =>
      ModuleError.Located.unbound (S := S) he
    refine hcompile.bind ?_
    rintro _ ⟨statements, result, bindings, rfl, hpieces, hbindings⟩
    exact (Evaluation.runFresh_placed run hown hpieces hbindings).mapError fun e he =>
      ModuleError.Located.ofRun he
  rw [success]
  cases ho : r.outcome run with
  | error e =>
    rw [ho] at houtcome
    exact houtcome
  | ok outcome =>
    rw [ho] at houtcome
    exact ⟨houtcome.result, houtcome.bindings, h.imports, houtcome.exports⟩

namespace Output

/-- A module fails in its own code, or by calls from there in that of the functions that its imports
bring. -/
theorem make_located {s : Sources} {S : Span → Prop} {name : String} {m : Module} {run : Run}
    {outcomes : List (Import × ImportOutcome)}
    (himports : outcomes.map Prod.fst = s.knownImports name m)
    (hown : ∀ span, span.In m.code → S span)
    (hoffers : ∀ i o, (i, .ready o) ∈ outcomes → o.Offers S) :
    Meets (ModuleError.Located m.code S) (Success.Placed S) (make name m run outcomes).result := by
  have hspans : ∀ i x, (i, x) ∈ outcomes → ∀ span, i.span = some span → span.In m.code :=
    fun i x hx span => Sources.span_in_of_knownImports (himports ▸ mem_map_of_mem hx)
  exact (Module.runnable_laid hspans hoffers).bind fun r hr => r.success_located hr hown run outcomes

theorem Made.offers {K : Module → Prop} {o : Output} (h : o.Made K) : o.Offers (Span.Within K) := by
  induction h with
  | @run s name m run outcomes hm himports _ ih =>
    intro success hsuccess
    have hresult : Meets (ModuleError.Located m.code (Span.Within K))
        (Success.Placed (Span.Within K)) (make name m run outcomes).result :=
      make_located himports (fun span hspan => ⟨m, hm, hspan⟩) ih
    rw [hsuccess] at hresult
    exact hresult
  | cyclic hm => exact nofun

end Output

/-- The places of the active calls, if a module failed while it was run. -/
def ModuleError.calls? : ModuleError → Option (List Span)
  | .run cause => some (cause.trace.map TraceFrame.span)
  | _ => none

namespace Project

/-- A module fails in its own code, unless it fails while it is run. The calls of a run lead from the
module's own code into that of functions which its imports bring, and so of versions that are known. -/
theorem poll_located (environment : Environment) (limits : Limits) (resolver : Option Resolver)
    (actions : List Action) (name : String) :
    let p := (start environment limits resolver).perform actions
    ∀ o e, ((poll name).run p).1 = .ok (.ready o) → o.result = .error e →
      p.sources.Knows o.module ∧
      ((∀ cause, e ≠ .run cause) → ∀ span, e.span? = some span → span.In o.module.code) ∧
      ∀ cause, e = .run cause → ∃ run outcomes, o = .make o.name o.module run outcomes ∧
        (∀ i c, (i, .ready c) ∈ outcomes → c.Offers (Span.Within p.sources.Knows)) ∧
        ∀ S : Span → Prop, (∀ span, span.In o.module.code → S span) →
          (∀ i c, (i, .ready c) ∈ outcomes → c.Offers S) →
          Traced (Span.In o.module.code) S cause.trace := by
  intro p o e ho he
  have hp : Traceable p := (traceable_start environment limits resolver).perform actions
  cases (poll_made hp name).2 o ho with
  | @run s name m run outcomes hm himports hmade =>
    have hready : ∀ i c, (i, .ready c) ∈ outcomes → c.Offers (Span.Within p.sources.Knows) :=
      fun i c hc => (hmade i c hc).offers
    have hlocated : ∀ S : Span → Prop, (∀ span, span.In m.code → S span) →
        (∀ i c, (i, .ready c) ∈ outcomes → c.Offers S) → e.Located m.code S := by
      intro S hown hoffers
      have hresult : Meets (ModuleError.Located m.code S) (Success.Placed S)
          (Output.make name m run outcomes).result := Output.make_located himports hown hoffers
      rw [he] at hresult
      exact hresult
    refine ⟨hm, (hlocated _ (fun span hspan => ⟨m, hm, hspan⟩) hready).still, fun cause hcause => ?_⟩
    exact ⟨run, outcomes, rfl, hready, fun S hown hoffers => (hlocated S hown hoffers).running cause hcause⟩
  | cyclic hm =>
    cases he
    exact ⟨hm, fun _ => nofun, nofun⟩

/-- The code of a module that fails, with the place of its failure and, if it failed while it was run,
the places of the calls. -/
def failure? : Except GraphError Poll → Option (String × Option Span × Option (List Span))
  | .ok (.ready ⟨_, _, m, _, .error e⟩) => some (m.code, e.span?, e.calls?)
  | _ => none

theorem exists_of_failure? {answer : Except GraphError Poll} {code : String} {place : Option Span}
    {calls : Option (List Span)} (h : failure? answer = some (code, place, calls)) :
    ∃ o e, answer = .ok (.ready o) ∧ o.result = .error e ∧ o.module.code = code ∧ e.span? = place ∧
      e.calls? = calls := by
  unfold failure? at h
  split at h
  · cases h
    exact ⟨_, _, rfl, rfl, rfl, rfl, rfl⟩
  · cases h

/-- A module that calls a function of another, which fails there on the third line. -/
def losing : Project :=
  (start .default .default none).perform
    [.setSource "lib" "export a = 1\nexport b = 2\nexport f(x) = throw(x)",
      .setSource "main" "import \"lib\" as lib\nlib.f(\"lost\")"]

/-- A module with a name on its second line that it does not have. -/
def unnamed : Project :=
  (start .default .default none).perform [.setSource "main" "true\nlost"]

set_option maxRecDepth 100000 in
theorem failure_losing : failure? ((poll "main").run losing).1 =
    some ("import \"lib\" as lib\nlib.f(\"lost\")", some ⟨⟨3, 15, 40⟩, ⟨3, 23, 48⟩⟩,
      some [⟨⟨3, 15, 40⟩, ⟨3, 23, 48⟩⟩, ⟨⟨3, 15, 40⟩, ⟨3, 23, 48⟩⟩, ⟨⟨2, 1, 20⟩, ⟨2, 14, 33⟩⟩]) := by
  decide +kernel

set_option maxRecDepth 100000 in
theorem poll_located_losing :
    (∃ o cause, ((poll "main").run losing).1 = .ok (.ready o) ∧ o.result = .error (.run cause) ∧
      cause.trace.length = 3 ∧ losing.sources.Knows o.module ∧
      Traced (Span.In o.module.code) (Span.Within losing.sources.Knows) cause.trace) ∧
    ∃ o e, ((poll "main").run unnamed).1 = .ok (.ready o) ∧ o.result = .error e ∧
      e.span? = some (.point ⟨2, 1, 5⟩) ∧ (Span.point ⟨2, 1, 5⟩).In o.module.code := by
  refine ⟨?_, ?_⟩
  · obtain ⟨o, e, ho, he, -, -, hcalls⟩ := exists_of_failure? failure_losing
    obtain ⟨hm, -, hrun⟩ := poll_located .default .default none _ "main" o e ho he
    cases e with
    | run cause =>
      obtain ⟨run, outcomes, -, hready, htraced⟩ := hrun cause rfl
      have hlength : cause.trace.length = 3 := by simpa using congrArg length (Option.some.inj hcalls)
      exact ⟨o, cause, ho, he, hlength, hm, htraced _ (fun span hspan => ⟨_, hm, hspan⟩) hready⟩
    | _ => cases hcalls
  · have hfailure : failure? ((poll "main").run unnamed).1 =
        some ("true\nlost", some (.point ⟨2, 1, 5⟩), none) := by decide +kernel
    obtain ⟨o, e, ho, he, -, hspan, hcalls⟩ := exists_of_failure? hfailure
    obtain ⟨-, hstill, -⟩ := poll_located .default .default none _ "main" o e ho he
    refine ⟨o, e, ho, he, hspan, hstill (fun cause hcause => ?_) _ hspan⟩
    rw [hcause] at hcalls
    cases hcalls

/-- But a call may lead to a place that the module's own code does not have. -/
theorem poll_fails_elsewhere : ∃ o e span, ((poll "main").run losing).1 = .ok (.ready o) ∧
    o.result = .error e ∧ e.span? = some span ∧ o.module.code.utf8ByteSize < span.start.offset ∧
    ¬ span.In o.module.code := by
  obtain ⟨o, e, ho, he, hcode, hspan, -⟩ := exists_of_failure? failure_losing
  have hsize : o.module.code.utf8ByteSize < 40 := by
    rw [hcode]
    decide
  exact ⟨o, e, _, ho, he, hspan, hsize, fun h => absurd h.start.offset_le (Nat.not_le.2 hsize)⟩

end Project

end Estimation
