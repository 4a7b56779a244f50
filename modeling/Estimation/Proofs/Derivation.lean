import Estimation.Proofs.History
import Estimation.Proofs.Ordering
import Estimation.Proofs.Tables

/-!
What an output is derived from: the version that its name stands for, and the outputs of the imports
of that version. An output stays derived as long as nothing changes that its name depends on.
-/

namespace Estimation

open List

/-- What is known of a project whatever happens to it. -/
structure Regime where
  /-- Whether outputs are kept as long as others are that were made of them. -/
  coherent : Prop
  /-- What may have been worked into digests. -/
  hashed : Hashed → Prop
  /-- Outputs that were there from the start. -/
  given : Output → Prop
  /-- Why an import of a name may have failed, as things stand now. -/
  failed : Sources → String → Import → LinkError → Prop
  /-- How many runs there were at the start. -/
  first : Nat

/-- What the outputs of a project are derived from, besides each other. -/
structure Basis where
  sources : Sources
  resolver : Option Resolver
  limits : Limits
  /-- Whether an output is still there for those above it. -/
  kept : Output → Prop
  /-- Whether a run made an output, if any did. -/
  started : OutputId → Nat → Prop

/-- What settled imports have to be for the output that is made of them. -/
structure Basis.Fits (R : Regime) (B : Basis) (name : String) (m : Module) (run : Run)
    (outcomes : List (Import × ImportOutcome)) : Prop where
  head : B.sources.headModule? name = some m
  imports : outcomes.map Prod.fst = B.sources.knownImports name m
  limits : run.limits = B.limits
  code : R.hashed (.code m.code)
  environment : R.hashed (.environment run.environment)
  key : R.hashed (.key (m.outputKey name run.environment outcomes))
  started : (m.runnable outcomes).isOk →
    B.started (m.outputKey name run.environment outcomes).id run.origin
  failed : ∀ i e, (i, .failed e) ∈ outcomes → R.failed B.sources name i e
  target : ∀ i o, (i, .ready o) ∈ outcomes →
    Sources.target B.resolver name i = .ok o.name
  same : ∀ i o, (i, .ready o) ∈ outcomes → o.environment.hash = run.environment.hash
  kept : ∀ i o, (i, .ready o) ∈ outcomes → B.kept o

/-- An output is of the version that its name stands for, and its identity is that of a key. -/
structure Basis.Names (R : Regime) (B : Basis) (o : Output) : Prop where
  head : B.sources.headModule? o.name = some o.module
  key : ∃ k, R.hashed (.key k) ∧ o.id = k.id ∧ k.name = o.name ∧
    k.environmentHash = o.environment.hash

inductive Derived (R : Regime) (B : Basis) : Output → Prop
  | given {o} : R.given o → B.Names R o → Derived R B o
  | made {name m run outcomes} : B.Fits R name m run outcomes →
      (∀ i o, (i, .ready o) ∈ outcomes → Derived R B o) → Derived R B (.make name m run outcomes)
  | cyclic {name m e i chain} : B.sources.headModule? name = some m →
      R.hashed (.key ⟨name, m.hash, e.hash, [.cyclic i.specifier]⟩) →
      LeadsRound (B.sources.DependsOn B.resolver) name chain →
      Derived R B (.cyclic name m e i (.graph (.cycle chain)))

variable {R : Regime} {B C : Basis} {o : Output}

namespace Basis.Fits

variable {name : String} {m : Module} {run : Run} {outcomes : List (Import × ImportOutcome)}
  {i : Import}

theorem dependsOn (h : B.Fits R name m run outcomes) (ho : (i, .ready o) ∈ outcomes) :
    B.sources.DependsOn B.resolver name o.name :=
  ⟨m, h.head, i, h.imports ▸ mem_map_of_mem ho, h.target i o ho⟩

end Basis.Fits

namespace Derived

theorem names (h : Derived R B o) : B.Names R o := by
  cases h with
  | given _ h => exact h
  | made h => exact ⟨h.head, _, h.key, rfl, rfl, rfl⟩
  | cyclic h hk => exact ⟨h, _, hk, rfl, rfl, rfl⟩

/-- Outputs with a property that goes down to the outputs below them are derived from another basis,
if the bases agree as far as the property goes. -/
theorem transfer {P : Output → Prop} (h : Derived R B o) (hp : P o)
    (head : ∀ o m, P o → B.sources.headModule? o.name = some m →
      C.sources.headModule? o.name = some m ∧
      C.sources.knownImports o.name m = B.sources.knownImports o.name m)
    (resolver : C.resolver = B.resolver) (limits : C.limits = B.limits)
    (started : ∀ o n, P o → B.started o.id n → C.started o.id n)
    (kept : ∀ o, P o → B.kept o → C.kept o)
    (round : ∀ o chain, P o → LeadsRound (B.sources.DependsOn B.resolver) o.name chain →
      LeadsRound (C.sources.DependsOn C.resolver) o.name chain)
    (down : ∀ o c, P o → B.sources.DependsOn B.resolver o.name c.name → B.kept c → P c)
    (failed : ∀ o m i e, P o → B.sources.headModule? o.name = some m →
      i ∈ B.sources.knownImports o.name m → R.failed B.sources o.name i e →
      R.failed C.sources o.name i e) :
    Derived R C o := by
  induction h with
  | given h hn => exact .given h ⟨(head _ _ hp hn.head).1, hn.key⟩
  | @made name m run outcomes h _ ih =>
    obtain ⟨hhead, himports⟩ := head _ m hp h.head
    have hdown : ∀ i c, (i, .ready c) ∈ outcomes → P c := fun i c hc =>
      down _ c hp (h.dependsOn hc) (h.kept i c hc)
    refine .made ?_ fun i c hc => ih i c hc (hdown i c hc)
    exact
      { h with
        head := hhead
        imports := h.imports.trans himports.symm
        limits := h.limits.trans limits.symm
        started := fun hr => started _ _ hp (h.started hr)
        failed := fun i e he =>
          failed _ m i e hp h.head (h.imports ▸ mem_map_of_mem he) (h.failed i e he)
        target := resolver ▸ h.target
        kept := fun i c hc => kept c (hdown i c hc) (h.kept i c hc) }
  | cyclic h hk hround => exact .cyclic (head _ _ hp h).1 hk (round _ _ hp hround)

end Derived

end Estimation
