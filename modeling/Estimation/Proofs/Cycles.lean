import Estimation.Proofs.Recomputation
import Estimation.Proofs.Returning
import Estimation.Proofs.Standing

/-!
Requests and orders agree about cycles. A request that succeeds leaves no way back to anything that it
needs, so that there is an order; and what a request reports as a cycle is one among the dependencies
as they are now, so that there is none.
-/

namespace Estimation

open List

namespace Module

/-- The first import that does not bring values counts. -/
theorem gather_error {outcomes : List (Import × ImportOutcome)} {externals named : Bindings Value}
    {e : ModuleError} (h : gather outcomes externals named = .error e) :
    ∃ before i x after, outcomes = before ++ (i, x) :: after ∧
      (∀ j y, (j, y) ∈ before → ∃ s, importedBy j y = .ok s) ∧ importedBy i x = .error e := by
  induction outcomes generalizing externals named with
  | nil => cases h
  | cons outcome outcomes ih =>
    obtain ⟨i, x⟩ := outcome
    rw [gather] at h
    cases hx : importedBy i x with
    | error e' =>
      rw [hx] at h
      cases h
      exact ⟨[], i, x, outcomes, rfl, fun _ _ h => absurd h not_mem_nil, hx⟩
    | ok s =>
      rw [hx] at h
      have hrest : ∃ externals named, gather outcomes externals named = .error e := by
        cases hi : i.form <;> rw [hi] at h <;> exact ⟨_, _, h⟩
      obtain ⟨externals, named, h⟩ := hrest
      obtain ⟨before, j, y, after, rfl, hbefore, hy⟩ := ih h
      refine ⟨(i, x) :: before, j, y, after, rfl, fun k z hz => ?_, hy⟩
      rcases mem_cons.1 hz with heq | hz
      · cases heq
        exact ⟨s, hx⟩
      · exact hbefore k z hz

end Module

namespace ModuleError

/-- Errors in the code of the module itself, or in running it. -/
inductive Own : ModuleError → Prop
  | source (e) : Own (.source e)
  | run (e) : Own (.run e)
  | internal (message) : Own (.internal message)

theorem Own.root {e : ModuleError} (h : Own e) : e.root = .inr e := by
  cases h <;> rfl

theorem own_ofRun (e : RunError) : Own (.ofRun e) := by
  rw [ofRun]
  split
  · exact .internal _
  · exact .run _

end ModuleError

theorem Runnable.own_of_success {r : Runnable} {run : Run}
    {outcomes : List (Import × ImportOutcome)} {e : ModuleError}
    (h : r.success run outcomes = .error e) : e.Own := by
  rw [success, outcome] at h
  cases hc : compile r.externals r.program with
  | error unbound =>
    rw [hc] at h
    cases h
    exact .source _
  | ok code =>
    rw [hc] at h
    change Except.map _ (Except.mapError _ (Evaluation.runFresh run code)) = _ at h
    cases ho : Evaluation.runFresh run code with
    | error failure =>
      rw [ho] at h
      cases h
      exact ModuleError.own_ofRun failure
    | ok o =>
      rw [ho] at h
      cases h

namespace Output

variable {name : String} {m : Module} {run : Run} {outcomes : List (Import × ImportOutcome)}
  {e : ModuleError}

/-- A module fails with its first import that fails, or by itself. -/
theorem make_error (h : (make name m run outcomes).result = .error e) :
    (∃ before i x after, outcomes = before ++ (i, x) :: after ∧
      (∀ j y, (j, y) ∈ before → ∃ s, Module.importedBy j y = .ok s) ∧
      Module.importedBy i x = .error e) ∨ e.Own := by
  rw [make, ofImports] at h
  dsimp only at h
  cases hg : Module.gather outcomes [] [] with
  | error e' =>
    rw [Module.runnable, hg] at h
    cases h
    exact .inl (Module.gather_error hg)
  | ok r =>
    cases hm : m.program with
    | error syntactic =>
      rw [Module.runnable, hg, hm] at h
      cases h
      exact .inr (.source _)
    | ok program =>
      rw [Module.runnable, hg, hm] at h
      exact .inr (Runnable.own_of_success h)

end Output

namespace Derived

variable {R : Regime} {B : Basis} {o : Output}

/-- A cycle at the root of a failure is one that the dependencies of the output lead to. -/
theorem leadsRound_of_root (hgiven : ∀ o, ¬ R.given o) (h : Derived R B o) {e : ModuleError}
    {chain : List String} (he : o.result = .error e)
    (hroot : e.root = .inr (.graph (.cycle chain))) :
    LeadsRound (B.sources.DependsOn B.resolver) o.name chain := by
  induction h generalizing e with
  | given h => exact absurd h (hgiven _)
  | @made name m run outcomes h _ ih =>
    rcases Output.make_error he with ⟨before, i, x, after, rfl, -, hx⟩ | hown
    · have hmem : (i, x) ∈ before ++ (i, x) :: after := by simp
      cases x with
      | failed cause =>
        cases hx
        cases hroot
      | ready c =>
        rw [Module.importedBy] at hx
        cases hc : c.result with
        | ok s =>
          rw [hc] at hx
          cases hx
        | error cause =>
          rw [hc] at hx
          cases hx
          exact .head (h.dependsOn hmem) (ih i c hmem hc hroot)
    · rw [hown.root] at hroot
      cases hroot
      cases hown
  | cyclic _ _ hround =>
    cases he
    cases hroot
    exact hround

end Derived

namespace Project

variable {p : Project} {name : String}

/-- A chain of names, from one back to it, each of which directly depends on the next. -/
def Cycle (p : Project) (chain : List String) : Prop :=
  ∃ first between, chain = first :: (between ++ [first]) ∧
    chain.IsChain fun a b => b ∈ p.dependencies a

theorem cycle_of_leadsRound {chain : List String}
    (h : LeadsRound (p.sources.DependsOn p.resolver) name chain) : p.Cycle chain := by
  obtain ⟨first, between, hchain, hlinks, -⟩ := h
  exact ⟨first, between, hchain, hlinks.imp fun _ _ => Sources.mem_dependencies.2⟩

theorem dependsOn_graph : (p.sources.graph p.resolver).DependsOn =
    p.sources.DependsOn p.resolver := by
  funext a b
  rw [Graph.DependsOn, Sources.dependencies_graph, Sources.mem_dependencies]

/-- There is an order for a name, or a cycle among what it needs. -/
theorem runOrderFor_cases (p : Project) (name : String) :
    (∃ order, p.runOrderFor name = .ok order) ∧
        Acc (fun b a => p.sources.DependsOn p.resolver a b) name ∨
      ∃ chain, p.runOrderFor name = .error (.cycle chain) ∧
        LeadsRound (p.sources.DependsOn p.resolver) name chain := by
  rw [runOrderFor, Sources.runOrder, Sources.fullOrder, ← dependsOn_graph]
  cases h : (p.sources.graph p.resolver).runOrder [name] with
  | ok order => exact .inl ⟨⟨_, rfl⟩, Graph.runOrder_ok_iff_acc.1 ⟨order, h⟩⟩
  | error chain => exact .inr ⟨chain, rfl, Graph.leadsRound_of_runOrder h⟩

/-- A request returns. If it succeeds there is an order, and if it fails by a cycle there is none and
the cycle is a real one. -/
theorem poll_agrees_runOrderFor {l : List Hashed} (h : History False l p)
    (hhead : (p.sources.head? name).isSome)
    (hinj : Set.InjOn OutputKey.id {k | .key k ∈ l ++ pollHashes name p}) :
    ∃ m answer q, p.sources.headModule? name = some m ∧ (poll name).run p = (.ok answer, q) ∧
      Returns [] name m p answer q ∧
      ∀ o, answer = .ready o →
        (o.isOk → ∃ order, p.runOrderFor name = .ok order) ∧
        ∀ e chain, o.result = .error e → e.root = .inr (.graph (.cycle chain)) →
          p.Cycle chain ∧
            ∃ chain', p.runOrderFor name = .error (.cycle chain') ∧ p.Cycle chain' := by
  obtain ⟨m, hm⟩ := h.standing.headModule? hhead
  obtain ⟨answer, q, hpoll, hreturns⟩ := poll_returns hm
  refine ⟨m, answer, q, hm, hpoll, hreturns, fun o hready => ?_⟩
  subst hready
  have hlater : Later p q := by
    have hlater := poll_later name p
    rwa [hpoll] at hlater
  obtain ⟨hname, hderived⟩ : o.name = name ∧ ∃ origins,
      Derived (.plain False (· ∈ l ++ pollHashes name p))
        (q.basis (.plain False (· ∈ l ++ pollHashes name p)) origins) o := by
    have hkept := h.kept (· ∈ l ++ pollHashes name p) (fun _ => mem_append_left _) hinj
    obtain ⟨⟨origins, hq⟩, hanswers⟩ := poll_sound hinj hkept fun _ => mem_append_right _
    rw [hpoll] at hq hanswers
    have ho := hanswers o rfl
    exact ⟨ho.name, origins, hq.derived _ (Table.mem_of_get? ho.stored)⟩
  obtain ⟨origins, hderived⟩ := hderived
  have hsame : q.sources.DependsOn q.resolver = p.sources.DependsOn p.resolver := by
    rw [hlater.sources, hlater.resolver]
  constructor
  · intro hok
    have hacc : Acc (fun b a => p.sources.DependsOn p.resolver a b) name := by
      rw [← hsame, ← hname]
      exact hderived.acc_below (fun _ => id) hok
    rcases runOrderFor_cases p name with ⟨horder, -⟩ | ⟨chain, -, hround⟩
    · exact horder
    · exact absurd hacc (not_acc_of_leadsRound hround)
  · intro e chain he hroot
    have hround : LeadsRound (p.sources.DependsOn p.resolver) name chain := by
      rw [← hsame, ← hname]
      exact hderived.leadsRound_of_root (fun _ => id) he hroot
    refine ⟨cycle_of_leadsRound hround, ?_⟩
    rcases runOrderFor_cases p name with ⟨-, hacc⟩ | ⟨chain', horder, hround'⟩
    · exact absurd hacc (not_acc_of_leadsRound hround)
    · exact ⟨chain', horder, cycle_of_leadsRound hround'⟩

/-- A module that imports itself. -/
def looping : Project := (start .default .default none).setSource "A" "import \"A\" as a"

set_option maxRecDepth 100000 in
def cycle? : Except GraphError Poll → Option (List String)
  | .ok (.ready ⟨_, _, _, _, .error (.graph (.cycle chain))⟩) => some chain
  | _ => none

theorem of_cycle? {answer : Except GraphError Poll} {chain : List String}
    (h : cycle? answer = some chain) :
    ∃ o, answer = .ok (.ready o) ∧ o.result = .error (.graph (.cycle chain)) := by
  unfold cycle? at h
  split at h
  · cases h
    exact ⟨_, rfl, rfl⟩
  · cases h

theorem poll_agrees_runOrderFor_looping :
    (∃ o e, ((poll "A").run looping).1 = .ok (.ready o) ∧ o.result = .error e ∧
      e.root = .inr (.graph (.cycle ["A", "A"]))) ∧
    ∃ m answer q, looping.sources.headModule? "A" = some m ∧
      (poll "A").run looping = (.ok answer, q) ∧ Returns [] "A" m looping answer q ∧
      ∀ o, answer = .ready o →
        (o.isOk → ∃ order, looping.runOrderFor "A" = .ok order) ∧
        ∀ e chain, o.result = .error e → e.root = .inr (.graph (.cycle chain)) →
          looping.Cycle chain ∧
            ∃ chain', looping.runOrderFor "A" = .error (.cycle chain') ∧
              looping.Cycle chain' := by
  have history : History False [.code "import \"A\" as a"] looping :=
    (History.start .default .default none).setSource "A" _
  have hhead : (looping.sources.head? "A").isSome := by decide +kernel
  have hnodup : ((Hashed.keys (pollHashes "A" looping)).map OutputKey.id).Nodup := by
    decide +kernel
  have hrun : cycle? ((poll "A").run looping).1 = some ["A", "A"] := by decide +kernel
  obtain ⟨o, hready, hresult⟩ := of_cycle? hrun
  exact ⟨⟨o, _, hready, hresult, rfl⟩,
    poll_agrees_runOrderFor history hhead (Hashed.injOn_of_nodup hnodup)⟩

end Project

end Estimation
