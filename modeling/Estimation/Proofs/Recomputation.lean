import Estimation.Proofs.Invalidation
import Mathlib.Data.List.Nodup
import Mathlib.Data.List.Perm.Subperm
import Mathlib.Logic.Relation

/-!
A successful output is never out of date: made anew, with no outputs there, it has the same
identity. Nothing that it is derived from leads back to it, so there are never more names waiting
than there are names, and no way to it meets a cycle.
-/

namespace Estimation

open List

namespace Hashed

def key? : Hashed → Option OutputKey
  | key k => some k
  | _ => none

def keys (l : List Hashed) : List OutputKey := l.filterMap key?

theorem injOn_of_nodup {l : List Hashed} (h : ((keys l).map OutputKey.id).Nodup) :
    Set.InjOn OutputKey.id {k | key k ∈ l} := by
  have hmem : ∀ k, key k ∈ l → k ∈ keys l := fun k hk => mem_filterMap.2 ⟨_, hk, rfl⟩
  exact fun k hk k' hk' heq => inj_on_of_nodup_map h (hmem k hk) (hmem k' hk') heq

end Hashed

namespace Module

variable {m : Module} {outcomes : List (Import × ImportOutcome)}

theorem ready_of_gather {externals named : Bindings Value} {r : Bindings Value × Bindings Value}
    (h : gather outcomes externals named = .ok r) {i : Import} {x : ImportOutcome}
    (hx : (i, x) ∈ outcomes) : ∃ o, x = .ready o ∧ o.isOk := by
  induction outcomes generalizing externals named with
  | nil => cases hx
  | cons e outcomes ih =>
    obtain ⟨j, y⟩ := e
    rw [gather] at h
    cases y with
    | failed cause => cases h
    | ready o =>
      cases hr : o.result with
      | error cause =>
        rw [importedBy, hr] at h
        cases h
      | ok success =>
        rcases mem_cons.1 hx with heq | hx
        · cases heq
          exact ⟨o, rfl, by rw [Output.isOk, hr]⟩
        · rw [importedBy, hr] at h
          cases hj : j.form <;> rw [hj] at h <;> exact ih h hx

end Module

namespace Output

variable {name : String} {m : Module} {run : Run} {outcomes : List (Import × ImportOutcome)}

theorem ready_of_isOk (h : (make name m run outcomes).isOk) {i : Import} {x : ImportOutcome}
    (hx : (i, x) ∈ outcomes) : ∃ o, x = .ready o ∧ o.isOk := by
  cases hg : Module.gather outcomes [] [] with
  | ok r => exact Module.ready_of_gather hg hx
  | error e =>
    rw [isOk, make, ofImports, Module.runnable, hg] at h
    cases h

end Output

namespace Sources

/-- `b` is below `a` if `a` depends on it. -/
def Below (s : Sources) (resolver : Option Resolver) (b a : String) : Prop :=
  s.DependsOn resolver a b

end Sources

namespace Derived

variable {R : Regime} {B : Basis} {o : Output}

theorem acc_below (hgiven : ∀ o, ¬ R.given o) (h : Derived R B o) (hok : o.isOk) :
    Acc (B.sources.Below B.resolver) o.name := by
  induction h with
  | given h => exact absurd h (hgiven _)
  | @made name m run outcomes h _ ih =>
    refine .intro _ fun b hb => ?_
    obtain ⟨m', hm', i, hi, ht⟩ := hb
    cases hm'.symm.trans h.head
    replace hi : i ∈ outcomes.map Prod.fst := h.imports ▸ hi
    obtain ⟨⟨_, x⟩, hx, rfl⟩ := mem_map.1 hi
    obtain ⟨c, rfl, hc⟩ := Output.ready_of_isOk hok hx
    cases ht.symm.trans (h.target _ c hx)
    exact ih _ c hx hc
  | cyclic => cases hok

end Derived

namespace Project

variable {R : Regime} {B : Basis} {p q : Project} {o : Output}

/-- A state with the sources of a basis and whatever outputs, each under its identity. -/
structure Based (B : Basis) (q : Project) : Prop where
  sources : q.sources = B.sources
  resolver : q.resolver = B.resolver
  ids : ∀ id o, q.store.outputs.get? id = some o → o.id = id

theorem Based.quiet (h : Based B p) (hq : Quiet p q) : Based B q :=
  ⟨hq.sources.trans h.sources, hq.resolver.trans h.resolver, hq.outputs ▸ h.ids⟩

theorem stored_based {id : OutputId} {make : Work Output} (h : Based B p)
    (hid : (make.run p).1.id = id) (hmake : Based B (make.run p).2) :
    ((stored id make).run p).1.id = id ∧ Based B ((stored id make).run p).2 := by
  cases ho : p.store.outputs.get? id with
  | some o =>
    rw [stored_of_get? ho]
    exact ⟨h.ids id o ho, h⟩
  | none =>
    rw [stored_of_none ho]
    refine ⟨hid, hmake.sources, hmake.resolver, fun id' o' ho' => ?_⟩
    change ((make.run p).2.store.outputs.set (make.run p).1.id (make.run p).1).get? id' = _ at ho'
    rw [Table.get?_set] at ho'
    split at ho'
    · rename_i heq
      cases ho'
      exact heq
    · exact hmake.ids id' o' ho'

/-- A request finds an output with the identity of `o`, whatever outputs there are. -/
def Finds (B : Basis) (o : Output) (answer : Work Poll) (q : Project) : Prop :=
  ∃ o', (answer.run q).1 = .ready o' ∧ o'.id = o.id ∧ Based B (answer.run q).2

/-- An import is found where `o` comes from, and asking for it finds `o`. -/
structure Reaches (B : Basis) (answer : List String → String → Module → Work Poll)
    (chain : List String) (importer : String) (i : Import) (o : Output) : Prop where
  target : Sources.target B.resolver importer i = .ok o.name
  pin : i.pin = none
  head : B.sources.headModule? o.name = some o.module
  acyclic : o.name ∉ chain
  finds : ∀ q, Based B q → Finds B o (answer chain o.name o.module) q

theorem gather_finds {answer : List String → String → Module → Work Poll} {chain : List String}
    {importer : String} {outcomes : List (Import × ImportOutcome)} (hp : Based B p)
    (h : ∀ i x, (i, x) ∈ outcomes → ∃ o, x = .ready o ∧ Reaches B answer chain importer i o) :
    ∃ outcomes', ((gather answer chain importer (outcomes.map Prod.fst)).run p).1 =
        .settled outcomes' ∧
      (outcomes'.map fun (i, x) => x.key i.specifier) =
        (outcomes.map fun (i, x) => x.key i.specifier) ∧
      Based B ((gather answer chain importer (outcomes.map Prod.fst)).run p).2 := by
  induction outcomes generalizing p with
  | nil => exact ⟨[], rfl, rfl, hp⟩
  | cons e outcomes ih =>
    obtain ⟨i, x⟩ := e
    obtain ⟨o, rfl, ho⟩ := h i x mem_cons_self
    have htarget : Sources.target p.resolver importer i = .ok o.name := hp.resolver ▸ ho.target
    have hfind : p.sources.find? ⟨o.name, i.pin⟩ = some o.module := by
      rw [hp.sources, ho.pin]
      exact ho.head
    obtain ⟨q, hq, hquiet⟩ := resolveImport_found htarget hfind
    obtain ⟨o', hanswer, hid, hbased⟩ := ho.finds q (hp.quiet hquiet)
    rw [map_cons, gather_cons, hq]
    dsimp only
    rw [if_neg ho.acyclic]
    generalize (answer chain o.name o.module).run q = answered at hanswer hbased
    obtain ⟨_, r⟩ := answered
    cases hanswer
    obtain ⟨outcomes', hg, hkeys, hbased'⟩ := ih hbased fun j x hj => h j x (mem_cons_of_mem _ hj)
    refine ⟨(i, .ready o') :: outcomes', ?_, ?_, hbased'⟩
    · dsimp only
      rw [hg]
      rfl
    · rw [map_cons, map_cons, hkeys]
      simp only [ImportOutcome.key, hid]

theorem compute_finds (hgiven : ∀ o, ¬ R.given o) (hpins : B.sources.pins = [])
    (h : Derived R B o) (hok : o.isOk)
    (henv : o.environment.hash = B.sources.environment.hash) {depth : Nat} {chain : List String}
    (hnodup : chain.Nodup) (hname : o.name ∉ chain)
    (hchain : ∀ n ∈ chain, n ∈ B.sources.names ∧
      Relation.TransGen (B.sources.Below B.resolver) o.name n)
    (hdepth : B.sources.names.length ≤ depth + chain.length) (hp : Based B p) :
    Finds B o (compute depth chain o.name o.module) p := by
  induction h generalizing depth chain p with
  | given h => exact absurd h (hgiven _)
  | @made name m run outcomes h hchildren ih =>
    have hmem := Sources.mem_names h.head
    have hlt := length_lt_of_notMem hnodup hname (fun n hn => (hchain n hn).1) hmem
    obtain ⟨depth, rfl⟩ := Nat.exists_eq_succ_of_ne_zero (show depth ≠ 0 by omega)
    have himports : p.sources.knownImports name m = outcomes.map Prod.fst :=
      hp.sources ▸ h.imports.symm
    have hreach : ∀ i x, (i, x) ∈ outcomes →
        ∃ c, x = .ready c ∧ Reaches B (compute depth) (chain ++ [name]) name i c := by
      intro i x hx
      obtain ⟨c, rfl, hc⟩ := Output.ready_of_isOk hok hx
      have hbelow : B.sources.Below B.resolver c.name name := h.dependsOn hx
      have habove : ∀ n ∈ chain ++ [name], n ∈ B.sources.names ∧
          Relation.TransGen (B.sources.Below B.resolver) c.name n := by
        intro n hn
        rcases mem_append.1 hn with hn | hn
        · exact ⟨(hchain n hn).1, .head hbelow (hchain n hn).2⟩
        · cases mem_singleton.1 hn
          exact ⟨hmem, .single hbelow⟩
      have hacyclic : c.name ∉ chain ++ [name] := fun hn =>
        not_self_of_acc ((hchildren i c hx).acc_below hgiven hc).transGen (habove _ hn).2
      refine ⟨c, rfl, h.target i c hx, ?_, (hchildren i c hx).names.head, hacyclic, fun q hq => ?_⟩
      · exact Sources.pin_of_mem_knownImports hpins (h.imports ▸ mem_map_of_mem hx)
      · refine ih i c hx hc ((h.same i c hx).trans henv) (nodup_concat hnodup hname) hacyclic
          habove ?_ hq
        rw [length_append, length_singleton]
        omega
    obtain ⟨outcomes', hg, hkeys, hbased⟩ := gather_finds hp hreach
    have hhash : p.environment.hash = run.environment.hash :=
      (congrArg (fun s => s.environment.hash) hp.sources).trans henv.symm
    have hid : (m.outputKey name p.environment outcomes').id =
        (Output.make name m run outcomes).id := by
      change OutputKey.id _ = OutputKey.id _
      rw [Module.outputKey, Module.outputKey, hkeys, hhash]
    rw [Finds]
    change ∃ o', ((compute (depth + 1) chain name m).run p).1 = _ ∧ _ ∧
      Based B ((compute (depth + 1) chain name m).run p).2
    rw [compute_succ, himports]
    generalize StateT.run (gather _ _ _ _) p = gathered at hg hbased ⊢
    obtain ⟨_, q⟩ := gathered
    cases hg
    have henv' : q.environment = p.environment :=
      congrArg Sources.environment (hbased.sources.trans hp.sources.symm)
    have hmade : ((produce name m outcomes').run q).1.id =
        (m.outputKey name p.environment outcomes').id := henv' ▸ rfl
    have hproduced : Based B ((produce name m outcomes').run q).2 := by
      change Based B (if _ then { q with runs := q.runs + 1 } else q)
      split
      · exact ⟨hbased.sources, hbased.resolver, hbased.ids⟩
      · exact hbased
    obtain ⟨hid', hbased'⟩ := stored_based hbased hmade hproduced
    exact ⟨_, rfl, hid'.trans hid, hbased'⟩
  | cyclic => cases hok

/-- The project in another environment, with no outputs. -/
def scratch (p : Project) (e : Environment) : Project :=
  { p with store := { p.store with sources := { p.sources with environment := e }, outputs := [] } }

theorem poll_scratch {coherent : Prop} {l : List Hashed} (h : History coherent l p)
    (hinj : Set.InjOn OutputKey.id {k | .key k ∈ l}) {e : OutputId × Output}
    (he : e ∈ p.store.outputs) (hok : e.2.isOk) :
    ∃ o, ((poll e.2.name).run (p.scratch e.2.environment)).1 = .ok (.ready o) ∧
      o.id = e.2.id := by
  obtain ⟨origins, hkept⟩ := (h.setEnvironment e.2.environment).kept (· ∈ l) (fun _ => id) hinj
  have hderived := hkept.derived e he
  have hhead : p.sources.headModule? e.2.name = some e.2.module := hderived.names.head
  have hbased : Based ((p.setEnvironment e.2.environment).basis (.plain coherent (· ∈ l)) origins)
      (p.scratch e.2.environment) := ⟨rfl, rfl, nofun⟩
  have hreach : (p.setEnvironment e.2.environment).sources.names.length ≤
      (p.scratch e.2.environment).sources.reach + ([] : List String).length := by
    change (p.sources.heads.map Prod.fst).length ≤ _
    rw [length_map]
    exact Nat.le_add_right _ _
  obtain ⟨o, ho, hid, -⟩ := compute_finds (fun _ => id) hkept.pins hderived hok rfl nodup_nil
    nofun nofun hreach hbased
  refine ⟨o, ?_, hid⟩
  rw [poll_of_head (p := p.scratch e.2.environment) hhead]
  exact congrArg Except.ok ho

theorem recompute_of_isOk {coherent : Prop} {l : List Hashed} (h : History coherent l p)
    (hinj : Set.InjOn OutputKey.id {k | .key k ∈ l}) {e : OutputId × Output}
    (he : e ∈ p.store.outputs) (hok : e.2.isOk) :
    e.2.id = e.1 ∧ p.sources.headModule? e.2.name = some e.2.module ∧
      ∃ o, ((poll e.2.name).run (p.scratch e.2.environment)).1 = .ok (.ready o) ∧
        o.id = e.2.id := by
  obtain ⟨origins, hkept⟩ := h.kept (· ∈ l) (fun _ => id) hinj
  exact ⟨hkept.ids e he, (hkept.derived e he).names.head, poll_scratch h hinj he hok⟩

/-- Two modules, one of which imports the other. -/
def importing : Project :=
  ((start .default .default none).setSource "A" "export x = true").setSource "B"
    "import \"A\" as a\na.x"

set_option maxRecDepth 100000 in
theorem recompute_of_isOk_importing : ∃ e ∈ ((poll "B").run importing).2.store.outputs,
    e.2.name = "B" ∧ e.2.isOk ∧
    (e.2.id = e.1 ∧ ((poll "B").run importing).2.sources.headModule? e.2.name = some e.2.module ∧
      ∃ o, ((poll e.2.name).run (((poll "B").run importing).2.scratch e.2.environment)).1 =
        .ok (.ready o) ∧ o.id = e.2.id) := by
  have hrun : (((poll "B").run importing).2.store.outputs.map fun e => (e.2.name, e.2.isOk)) =
      [("A", true), ("B", true)] ∧
      ((Hashed.keys (pollHashes "B" importing)).map OutputKey.id).Nodup := by
    decide +kernel
  obtain ⟨houtputs, hnodup⟩ := hrun
  have hmem : ("B", true) ∈
      ((poll "B").run importing).2.store.outputs.map fun e => (e.2.name, e.2.isOk) := by
    rw [houtputs]
    exact mem_cons_of_mem _ mem_cons_self
  obtain ⟨e, he, heq⟩ := mem_map.1 hmem
  obtain ⟨hname, hok⟩ := Prod.mk.inj heq
  have history : History True _ ((poll "B").run importing).2 :=
    (((History.start .default .default none).setSource "A" _).setSource "B" _).poll "B"
  exact ⟨e, he, hname, hok, recompute_of_isOk history (Hashed.injOn_of_nodup hnodup) he hok⟩

end Project

end Estimation
