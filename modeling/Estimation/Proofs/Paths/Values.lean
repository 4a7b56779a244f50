import Estimation.Proofs.Making
import Estimation.Proofs.Meaning
import Estimation.Proofs.Paths
import Estimation.Proofs.Renaming.Outputs

/-!
Values of paths. A path that a program writes out leads somewhere in what the program leaves, since lists
and dictionaries that are written out come to lists and dictionaries of the values of their parts.
-/

namespace Estimation

open List ValuePath

namespace Eval

variable {β α δ : Type} {step : Eval β α} {k : α → Eval β δ} {m after : MachineOf β} {b : δ}

theorem ok_of_bind (h : (step >>= k) m = (.ok b, after)) :
    ∃ a m', step m = (.ok a, m') ∧ k a m' = (.ok b, after) := by
  rcases hstep : step m with ⟨x, m'⟩
  cases x with
  | ok a =>
    rw [bind_ok hstep] at h
    exact ⟨a, m', rfl, h⟩
  | error e =>
    rw [bind_error hstep] at h
    cases h

end Eval

/-- Edges lead to a part of a value. -/
inductive ValueOf.Has {β : Type} : List Edge → ValueOf β → Prop
  | nil {v : ValueOf β} : Has [] v
  | key {name : String} {edges : List Edge} {entries : Bindings (ValueOf β)} {v : ValueOf β} :
      Bindings.get? name entries = some v → Has edges v → Has (.key name :: edges) (.dict entries)
  | index {n : Nat} {edges : List Edge} {items : List (ValueOf β)} {v : ValueOf β} :
      items[n]? = some v → Has edges v → Has (.index n :: edges) (.list items)

/-- Alike values have alike parts. -/
theorem Value.isSome_part {β : Type} {F : LambdaOf β → Lambda → Prop} {v : ValueOf β} {w : Value}
    {edges : List Edge} (h : v.Has edges) (hvw : ValueOf.Alike F v w) : (Value.part? edges w).isSome := by
  induction h generalizing w with
  | nil => rfl
  | @key name edges entries v hv _ ih =>
    cases hvw with
    | @dict _ fs hentries =>
      have hrel := Library.get?_alike hentries name
      rw [hv] at hrel
      generalize hw : Bindings.get? name fs = x at hrel
      cases hrel with
      | @some _ w hvw =>
        have hchild : Value.child? (.key name) (.dict fs) = some w := hw
        rw [part?, hchild]
        exact ih hvw
  | @index n edges items v hv _ ih =>
    cases hvw with
    | @list _ ws hitems =>
      obtain ⟨hn, rfl⟩ := List.getElem?_eq_some_iff.1 hv
      have hn' : n < ws.length := hitems.length_eq ▸ hn
      have hchild : Value.child? (.index n) (.list ws) = some ws[n] := getElem?_eq_getElem hn'
      rw [part?, hchild]
      exact ih (hitems.get hn hn')

/-- Values are put under the keys of what they belong to, one after the other. -/
inductive Bindings.Puts {α β : Type} (key : α → String) (R : α → β → Prop) :
    Bindings β → List α → Bindings β → Prop
  | nil {done : Bindings β} : Puts key R done [] done
  | cons {done all : Bindings β} {a : α} {as : List α} {v : β} :
      R a v → Puts key R (done.insert (key a) v) as all → Puts key R done (a :: as) all

/-- Of what has the same key the last one counts. -/
theorem Bindings.Puts.get {α β : Type} {key : α → String} {R : α → β → Prop} {done all : Bindings β}
    {as : List α} (h : Puts key R done as all) (name : String) :
    (∃ a v, as.reverse.find? (fun a => key a = name) = some a ∧ get? name all = some v ∧ R a v) ∨
    as.reverse.find? (fun a => key a = name) = none ∧ get? name all = get? name done := by
  induction h with
  | nil => exact .inr ⟨rfl, rfl⟩
  | @cons done all a as v ha _ ih =>
    rw [reverse_cons, find?_append]
    rcases ih with ⟨b, w, hb, hw, hR⟩ | ⟨hnone, hall⟩
    · exact .inl ⟨b, w, by rw [hb, Option.some_or], hw, hR⟩
    · rw [hnone, Option.none_or, find?_singleton, hall, get?_insert]
      by_cases hkey : key a = name
      · exact .inl ⟨a, v, by simp [hkey], if_pos hkey, ha⟩
      · exact .inr ⟨by simp [hkey], if_neg hkey⟩

namespace Naming

open Syntax.Expr

variable {run : Run} {call : Evaluation.Caller Source} {frames : List Frame} {names : Names}
  {m after : MachineOf Source} {v : ValueOf Source} {e d : Syntax.Expr}

/-- An expression comes to a value somewhere in a run. -/
def ComesTo (run : Run) (call : Evaluation.Caller Source) (frames : List Frame) (e : Syntax.Expr)
    (v : ValueOf Source) : Prop :=
  ∃ names m after, eval run call frames names e m = (.ok v, after)

theorem ComesTo.unblocked (h : ComesTo run call frames e v) : ComesTo run call frames e.unblocked v := by
  fun_induction Syntax.Expr.unblocked e with
  | case1 statements result span ih =>
    obtain ⟨names, m, after, h⟩ := h
    rw [eval] at h
    obtain ⟨inner, m', -, h⟩ := Eval.ok_of_bind h
    exact ih ⟨inner, m', after, h⟩
  | case2 => exact h

theorem evalAll_comes {items : List Syntax.Expr} {vs : List (ValueOf Source)} {n : Nat}
    (h : evalAll run call frames names items m = (.ok vs, after)) (hd : items[n]? = some d) :
    ∃ w, vs[n]? = some w ∧ ComesTo run call frames d w := by
  induction items generalizing vs n m with
  | nil => cases hd
  | cons e es ih =>
    rw [evalAll] at h
    obtain ⟨v, m₁, he, h⟩ := Eval.ok_of_bind h
    obtain ⟨ws, m₂, hes, h⟩ := Eval.ok_of_bind h
    cases h
    cases n with
    | zero =>
      cases hd
      exact ⟨v, rfl, names, m, m₁, he⟩
    | succ n =>
      rw [getElem?_cons_succ] at hd ⊢
      exact ih hes hd

theorem evalEntries_puts {entries : List (Syntax.Entry Syntax.Expr)}
    {done all : Bindings (ValueOf Source)}
    (h : evalEntries run call frames names done entries m = (.ok all, after)) :
    Bindings.Puts Syntax.Entry.key (fun entry => ComesTo run call frames entry.value) done entries all := by
  induction entries generalizing done m with
  | nil =>
    rw [evalEntries] at h
    cases h
    exact .nil
  | cons entry entries ih =>
    rw [evalEntries] at h
    obtain ⟨⟨key, v⟩, m₁, hentry, h⟩ := Eval.ok_of_bind h
    rw [evalEntry] at hentry
    obtain ⟨w, m₂, hvalue, hentry⟩ := Eval.ok_of_bind hentry
    cases hentry
    exact .cons ⟨names, m, m₁, hvalue⟩ (ih h)

/-- What is written out of an expression is there in its value. -/
theorem ComesTo.has {edges : List Edge} (hpart : e.part? edges = some d)
    (h : ComesTo run call frames e v) : v.Has edges := by
  induction edges generalizing e v with
  | nil => exact .nil
  | cons edge edges ih =>
    obtain ⟨c, hc, hrest⟩ := Option.bind_eq_some_iff.1 hpart
    have h := h.unblocked
    generalize e.unblocked = e' at hc h
    obtain ⟨names, m, after, h⟩ := h
    unfold child? at hc
    split at hc
    · next name entries span =>
      rw [eval] at h
      obtain ⟨all, m₁, hentries, h⟩ := Eval.ok_of_bind h
      cases h
      obtain ⟨entry, hentry, rfl⟩ := Option.map_eq_some_iff.1 hc
      rcases (evalEntries_puts hentries).get name with ⟨last, w, hlast, hw, hcomes⟩ | ⟨hnone, -⟩
      · obtain rfl : last = entry := Option.some.inj (hlast.symm.trans hentry)
        exact .key hw (ih hrest hcomes)
      · exact absurd (hnone.symm.trans hentry) nofun
    · next n items span =>
      rw [eval] at h
      obtain ⟨vs, m₁, hitems, h⟩ := Eval.ok_of_bind h
      cases h
      obtain ⟨w, hw, hcomes⟩ := evalAll_comes hitems hc
      exact .index hw (ih hrest hcomes)
    · cases hc

/-- What a program leaves: the values of its last definitions and of its result. -/
theorem evalProgram_puts {result : Option Syntax.Expr} {bindings exports : Bindings (ValueOf Source)}
    {ss : List (Syntax.Statement Syntax.Expr)} {o : Outcome}
    (h : evalProgram run result names bindings exports ss m = (.ok o, after)) :
    Bindings.Puts Syntax.Statement.name (fun s => ComesTo run (apply run) [] s.value)
      bindings ss o.bindings ∧
    ∀ e, result = some e → ComesTo run (apply run) [] e o.result := by
  induction ss generalizing names bindings exports m with
  | nil =>
    rw [evalProgram] at h
    obtain ⟨v, m₁, hresult, h⟩ := Eval.ok_of_bind h
    obtain ⟨profile, m₂, -, h⟩ := Eval.ok_of_bind h
    cases h
    refine ⟨.nil, ?_⟩
    rintro e rfl
    rw [evalResult] at hresult
    obtain ⟨w, m₃, hw, hresult⟩ := Eval.ok_of_bind hresult
    obtain ⟨_, _, -, hresult⟩ := Eval.ok_of_bind hresult
    cases hresult
    exact ⟨names, m, m₃, hw⟩
  | cons s ss ih =>
    rw [evalProgram] at h
    obtain ⟨v, m₁, hv, h⟩ := Eval.ok_of_bind h
    obtain ⟨_, m₂, -, h⟩ := Eval.ok_of_bind h
    obtain ⟨hputs, hresult⟩ := ih h
    exact ⟨.cons ⟨names, m, m₁, hv⟩ hputs, hresult⟩

end Naming

namespace Module

variable {outcomes : List (Import × ImportOutcome)} {externals externals' named named' : Bindings Value}

/-- A name stays, and each named import gets its own. -/
theorem gather_names (h : gather outcomes externals named = .ok (externals', named')) {name : String}
    (hname : (∃ i ∈ outcomes.map Prod.fst, i.form = .named name) ∨ (Bindings.get? name named).isSome) :
    (Bindings.get? name named').isSome := by
  induction outcomes generalizing externals named with
  | nil =>
    cases h
    exact hname.resolve_left nofun
  | cons entry outcomes ih =>
    obtain ⟨i, outcome⟩ := entry
    rw [gather] at h
    cases hbrought : importedBy i outcome with
    | error e =>
      rw [hbrought] at h
      cases h
    | ok success =>
      rw [hbrought] at h
      dsimp only [bind, Except.bind] at h
      split at h
      · next hform =>
        refine ih h (hname.imp_left ?_)
        rintro ⟨j, hj, hnamed⟩
        rcases mem_cons.1 hj with rfl | hj
        · rw [hform] at hnamed
          cases hnamed
        · exact ⟨j, hj, hnamed⟩
      · next own hform =>
        refine ih h ?_
        by_cases hown : own = name
        · exact .inr (by rw [Bindings.get?_insert, if_pos hown]; rfl)
        · rw [Bindings.get?_insert, if_neg hown]
          refine hname.imp_left ?_
          rintro ⟨j, hj, hnamed⟩
          rcases mem_cons.1 hj with rfl | hj
          · rw [hform] at hnamed
            cases hnamed
            exact absurd rfl hown
          · exact ⟨j, hj, hnamed⟩

theorem runnable_eq_ok {m : Module} {r : Runnable} (h : m.runnable outcomes = .ok r) :
    m.program = .ok r.program ∧ gather outcomes [] [] = .ok (r.externals, r.imports) := by
  rw [runnable] at h
  cases hgather : gather outcomes [] [] with
  | error e =>
    rw [hgather] at h
    cases h
  | ok gathered =>
    rw [hgather] at h
    cases hprogram : m.program with
    | error e =>
      rw [hprogram] at h
      cases h
    | ok program =>
      rw [hprogram] at h
      cases h
      exact ⟨rfl, rfl⟩

end Module

namespace Naming

/-- What code leaves that was run is what the program comes to among names. -/
theorem comes_of_runFresh {externals : Bindings Value} {program : Syntax.Program} {code : Code} {run : Run}
    {out : Estimation.Outcome} (hcompile : compile externals program = .ok code)
    (hrun : Evaluation.runFresh run code = .ok out) :
    ∃ o : Outcome, OutcomesAlike True o out ∧
      Bindings.Puts Syntax.Statement.name (fun s => ComesTo run (apply run) [] s.value)
        [] program.statements o.bindings ∧
      ∀ e, program.result = some e → ComesTo run (apply run) [] e o.result := by
  have hexternals : Forall₂ (EntryAlike (ValueOf.Alike (Agrees True)))
      (mapEntries .code externals) externals := mapEntries_alike trivial externals
  have hends := runProgram_ends hcompile hexternals run
  unfold Evaluation.runFresh at hrun
  rcases hcode : Evaluation.runProgram run code (.start run.environment) with ⟨x, after⟩
  rw [hcode] at hrun hends
  subst hrun
  generalize hnames : evalProgram run _ _ [] [] _ _ = y at hends
  cases hends with
  | @ok o _ m _ halike => exact ⟨o, halike.1, evalProgram_puts hnames⟩

end Naming

theorem Runnable.outcome_eq_ok {r : Runnable} {run : Run} {out : Outcome} (h : r.outcome run = .ok out) :
    ∃ code, compile r.externals r.program = .ok code ∧ Evaluation.runFresh run code = .ok out := by
  rw [outcome] at h
  cases hcode : compile r.externals r.program with
  | error e =>
    rw [hcode] at h
    cases h
  | ok code =>
    rw [hcode] at h
    cases hout : Evaluation.runFresh run code with
    | error e =>
      simp only [Except.mapError, bind, Except.bind, hout] at h
      cases h
    | ok out =>
      simp only [Except.mapError, bind, Except.bind, hout] at h
      cases h
      exact ⟨code, rfl, hout⟩

namespace Output

variable {sources : Sources} {name : String} {m : Module} {run : Run}
  {outcomes : List (Import × ImportOutcome)} {program : Syntax.Program} {path : ValuePath}

/-- The success of a module: what its program leaves, with the dictionaries of its named imports. -/
theorem success_of_isOk (h : (make name m run outcomes).isOk) : ∃ r out,
    m.runnable outcomes = .ok r ∧ r.outcome run = .ok out ∧ (make name m run outcomes).result =
      .ok ⟨out.result, out.bindings, r.imports, out.exports,
        out.profile.map (· ++ Module.importEntries outcomes)⟩ := by
  have hrunnable := runnable_of_isOk h
  cases hr : m.runnable outcomes with
  | error e =>
    rw [hr] at hrunnable
    cases hrunnable
  | ok r =>
    have hresult : (make name m run outcomes).result = r.success run outcomes := by
      rw [make, ofImports, hr]
      rfl
    rw [isOk, hresult, Runnable.success] at h
    cases hout : r.outcome run with
    | error e =>
      rw [hout] at h
      cases h
    | ok out =>
      refine ⟨r, out, rfl, hout, ?_⟩
      rw [hresult, Runnable.success, hout]
      rfl

/-- The imports that a program writes are among those that are known of its module. -/
theorem named_of_imports {i : Syntax.Import} (hm : m.program = .ok program) (hi : i ∈ program.imports) :
    ∃ j ∈ sources.knownImports name m, j.form = .named i.name := by
  let own : Import := ⟨i.path, .named i.name, none, some i.span⟩
  have hown : own ∈ program.imports.map fun i => (⟨i.path, .named i.name, none, some i.span⟩ : Import) :=
    mem_map_of_mem hi
  rw [Sources.knownImports, Sources.importsOf, Module.namedImports, hm]
  dsimp only [Except.map, bind, Except.bind]
  cases sources.pins.get? name with
  | none => exact ⟨own, mem_append_right _ hown, rfl⟩
  | some pins => exact ⟨_, mem_map_of_mem (mem_append_right _ hown), rfl⟩

/-- Where a module is run, each path that its program writes out leads to a value. -/
theorem valueAt_of_writes (himports : outcomes.map Prod.fst = sources.knownImports name m)
    (hok : (make name m run outcomes).isOk) (hm : m.program = .ok program) (hpath : program.Writes path) :
    ((make name m run outcomes).valueAt? path).isSome := by
  obtain ⟨r, out, hr, hout, hs⟩ := success_of_isOk hok
  obtain ⟨code, hcode, hrun⟩ := Runnable.outcome_eq_ok hout
  obtain ⟨hprogram, hgather⟩ := Module.runnable_eq_ok hr
  obtain rfl : r.program = program := Except.ok.inj (hprogram.symm.trans hm)
  obtain ⟨o, halike, hputs, hcomes⟩ := Naming.comes_of_runFresh hcode hrun
  rw [valueAt?, hs]
  unfold Syntax.Program.Writes at hpath
  split at hpath
  · obtain ⟨e, he, hpart⟩ := hpath
    obtain ⟨d, hd⟩ := Option.isSome_iff_exists.1 hpart
    exact Value.isSome_part ((hcomes e he).has hd) halike.result
  · next key edges =>
    obtain ⟨last, hlast, hpart⟩ := hpath
    obtain ⟨d, hd⟩ := Option.isSome_iff_exists.1 hpart
    rcases hputs.get key with ⟨other, v, hother, hv, hcomes⟩ | ⟨hnone, -⟩
    · obtain rfl : other = last := Option.some.inj (hother.symm.trans hlast)
      exact Value.isSome_part (.key hv (hcomes.has hd)) (.dict halike.bindings)
    · exact absurd (hnone.symm.trans hlast) nofun
  · next key =>
    obtain ⟨i, hi, rfl⟩ := hpath
    obtain ⟨j, hj, hform⟩ : ∃ j ∈ sources.knownImports name m, j.form = .named i.name :=
      named_of_imports hm hi
    rw [← himports] at hj
    have hget := Module.gather_names hgather (.inl ⟨j, hj, hform⟩)
    obtain ⟨v, hv⟩ := Option.isSome_iff_exists.1 hget
    have hchild : Value.child? (.key i.name) (.dict r.imports) = some v := hv
    dsimp only
    rw [Value.part?, hchild]
    rfl
  · exact hpath.elim

end Output

namespace Project

/-- A path that is found at an offset of a module that could be run leads to a value, unless a definition
or an entry is found with another one of its name behind it, which counts instead. -/
theorem valueAt_of_pathAt (environment : Environment) (limits : Limits) (resolver : Option Resolver)
    (actions : List Action) {name : String} {o : Output} {offset : Nat} {path : ValuePath}
    (hpoll : ((poll name).run ((start environment limits resolver).perform actions)).1 = .ok (.ready o))
    (hok : o.isOk) (hpath : o.pathAt? offset = some path) :
    (o.valueAt? path).isSome ∨ ∃ program, o.module.program = .ok program ∧ program.Replaced offset := by
  have htraceable := (traceable_start environment limits resolver).perform actions
  cases (poll_made htraceable name).2 o hpoll with
  | cyclic => cases hok
  | @run sources own m run outcomes _ himports _ =>
    obtain ⟨program, hm⟩ := Output.program_of_isOk hok
    have hprogram : (Output.make own m run outcomes).module.program = .ok program := hm
    rw [Output.pathAt?, hprogram] at hpath
    refine (Syntax.Program.writes_or_replaced hpath).imp (fun hwrites => ?_) fun h => ⟨program, hm, h⟩
    exact Output.valueAt_of_writes himports hok hm hwrites

namespace Finding

/-- What a request finds at an offset in what could be run: the path, and whether there is a value. -/
def find? (answer : Except GraphError Poll) (offset : Nat) : Option (ValuePath × Bool) :=
  match answer with
  | .ok (.ready o) =>
    if o.isOk then (o.pathAt? offset).map fun path => (path, (o.valueAt? path).isSome) else none
  | _ => none

/-- A module with a name and a key that are there more than once. -/
def repeating : List Action :=
  [.setSource "main" "x = [true]\nx = {k: x, k: {y = x; [{a: y}]}}"]

set_option maxRecDepth 100000 in
theorem find_repeating :
    find? ((poll "main").run ((start .default .default none).perform repeating)).1 38 =
      some (⟨.bindings, [.key "x", .key "k", .index 0, .key "a"]⟩, true) := by
  decide +kernel

theorem valueAt_of_repeating :
    ∃ o path, ((poll "main").run ((start .default .default none).perform repeating)).1 = .ok (.ready o) ∧
      o.isOk ∧ o.pathAt? 38 = some path ∧ path.edges.length = 4 ∧
      ((o.valueAt? path).isSome ∨ ∃ program, o.module.program = .ok program ∧ program.Replaced 38) := by
  have hfind := find_repeating
  unfold find? at hfind
  split at hfind
  · next o hpoll =>
    split at hfind
    · next hok =>
      obtain ⟨path, hpath, hvalue⟩ := Option.map_eq_some_iff.1 hfind
      obtain ⟨rfl, -⟩ := Prod.mk.inj hvalue
      exact ⟨o, _, hpoll, hok, hpath, rfl,
        valueAt_of_pathAt .default .default none repeating hpoll hok hpath⟩
    · cases hfind
  · cases hfind

/-- A definition with a part, and a later one of the same name without. -/
def replaced : List Action := [.setSource "main" "x = [true]\nx = true"]

set_option maxRecDepth 100000 in
/-- In the definition that does not count a path is found, but no value. -/
theorem valueAt_none_of_replaced :
    find? ((poll "main").run ((start .default .default none).perform replaced)).1 5 =
      some (⟨.bindings, [.key "x", .index 0]⟩, false) := by
  decide +kernel

end Finding

end Project

end Estimation
