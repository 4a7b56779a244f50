import Estimation.Proofs.History
import Estimation.Proofs.Requests

/-!
Requests of which every step is known. Of the state before a request only some things count, and so
what the request comes to, and what counts of the state after it, are put together from what its
imports come to.
-/

namespace Estimation

open List

namespace Project

/-- What counts of a state where all modules are there that are asked for. -/
structure Snapshot where
  sources : Sources
  resolver : Option Resolver
  limits : Limits
  outputs : Table OutputId Output
  runs : Nat

namespace Snapshot

/-- A run has made an output that was not there. -/
def add (c : Snapshot) (id : OutputId) (o : Output) : Snapshot :=
  { c with outputs := c.outputs ++ [(id, o)], runs := c.runs + 1 }

def without (c : Snapshot) (name : String) : Snapshot :=
  { c with outputs := Event.without [name] c.outputs }

end Snapshot

def snapshot (p : Project) : Snapshot :=
  ⟨p.sources, p.resolver, p.limits, p.store.outputs, p.runs⟩

variable {hashed : Hashed → Prop} {p : Project} {c c' c'' : Snapshot} {depth : Nat}
  {chain : List String} {importer name target : String} {m : Module} {i : Import} {is : List Import}
  {o : Output} {outcomes : List (Import × ImportOutcome)}

/-- Imports come to `outcomes`, wherever `c` counts. -/
def Settling (hashed : Hashed → Prop) (depth : Nat) (chain : List String) (importer : String)
    (is : List Import) (c : Snapshot) (outcomes : List (Import × ImportOutcome)) (c' : Snapshot) :
    Prop :=
  ∀ p, p.snapshot = c →
    ((gather (compute depth) chain importer is).run p).1 = .settled outcomes ∧
    ((gather (compute depth) chain importer is).run p).2.snapshot = c' ∧
    ∀ x ∈ gatherHashes (compute depth) (computeHashes depth) chain importer is p, hashed x

/-- A request comes to `o`, wherever `c` counts. -/
def Replying (hashed : Hashed → Prop) (depth : Nat) (chain : List String) (name : String)
    (m : Module) (c : Snapshot) (o : Output) (c' : Snapshot) : Prop :=
  ∀ p, p.snapshot = c →
    ((compute depth chain name m).run p).1 = .ready o ∧
    ((compute depth chain name m).run p).2.snapshot = c' ∧
    ∀ x ∈ computeHashes depth chain name m p, hashed x

theorem Quiet.snapshot {q : Project} (h : Quiet p q) : q.snapshot = p.snapshot := by
  simp only [Project.snapshot, h.sources, h.resolver, h.limits, h.outputs, h.runs]

theorem snapshot_clean (p : Project) (name : String) :
    (p.clean name).snapshot = p.snapshot.without name := rfl

theorem Settling.nil : Settling hashed depth chain importer [] c [] c :=
  fun _ hp => ⟨rfl, hp, fun _ hx => absurd hx not_mem_nil⟩

theorem Settling.cons (ht : Sources.target c.resolver importer i = .ok target)
    (hm : c.sources.find? ⟨target, i.pin⟩ = some m) (htarget : target ∉ chain)
    (ho : Replying hashed depth chain target m c o c')
    (hrest : Settling hashed depth chain importer is c' outcomes c'') :
    Settling hashed depth chain importer (i :: is) c ((i, .ready o) :: outcomes) c'' := by
  rintro p rfl
  obtain ⟨q, hq, hquiet⟩ := resolveImport_found (p := p) ht hm
  obtain ⟨hanswer, hr, hhashed⟩ := ho q hquiet.snapshot
  rw [gatherHashes, gather_cons, hq]
  dsimp only
  rw [if_neg htarget, if_neg htarget]
  generalize (compute depth chain target m).run q = answered at hanswer hr ⊢
  obtain ⟨_, r⟩ := answered
  cases hanswer
  obtain ⟨hg, hs, hhashed'⟩ := hrest r hr
  dsimp only
  rw [hg]
  refine ⟨rfl, hs, fun x hx => ?_⟩
  rcases mem_append.1 hx with hx | hx
  · exact hhashed x hx
  · exact hhashed' x hx

theorem forall_hashed {l : List Hashed} {e : Environment} {k : OutputKey} (hl : ∀ x ∈ l, hashed x)
    (he : hashed (.environment e)) (hk : hashed (.key k)) :
    ∀ x ∈ l ++ [.environment e, .key k], hashed x := by
  intro x hx
  rcases mem_append.1 hx with hx | hx
  · exact hl x hx
  · rcases mem_cons.1 hx with rfl | hx
    · exact he
    · cases mem_singleton.1 hx
      exact hk

section

variable {k : OutputKey}
  (hs : Settling hashed depth (chain ++ [name]) name (c.sources.knownImports name m) c outcomes c')
  (hk : m.outputKey name c.sources.environment outcomes = k)
  (he : hashed (.environment c.sources.environment)) (hkey : hashed (.key k))

include hs hk he hkey

theorem Replying.kept (ho : c'.outputs.get? k.id = some o) :
    Replying hashed (depth + 1) chain name m c o c' := by
  subst hk
  intro p hp
  obtain ⟨hg, hq, hhashed⟩ := hs p hp
  have hsources : p.sources = c.sources := congrArg Snapshot.sources hp
  have henv : p.environment = c.sources.environment := congrArg Sources.environment hsources
  rw [computeHashes, compute_succ, hsources, henv]
  dsimp only
  generalize (gather _ _ _ _).run p = gathered at hg hq ⊢
  obtain ⟨_, q⟩ := gathered
  cases hg
  have ho : q.store.outputs.get? (m.outputKey name c.sources.environment outcomes).id = some o :=
    (congrArg (fun c => Table.get? _ c.outputs) hq).trans ho
  dsimp only
  rw [stored_of_get? ho]
  exact ⟨rfl, hq, forall_hashed hhashed he hkey⟩

theorem Replying.made (hsources : c'.sources = c.sources) (hn : c'.outputs.get? k.id = none)
    (hok : (m.runnable outcomes).isOk)
    (ho : .make name m ⟨c'.runs, c.sources.environment, c'.limits⟩ outcomes = o) :
    Replying hashed (depth + 1) chain name m c o (c'.add k.id o) := by
  subst hk ho
  intro p hp
  obtain ⟨hg, hq, hhashed⟩ := hs p hp
  have hsources' : p.sources = c.sources := congrArg Snapshot.sources hp
  have henv : p.environment = c.sources.environment := congrArg Sources.environment hsources'
  rw [computeHashes, compute_succ, hsources', henv]
  dsimp only
  generalize (gather _ _ _ _).run p = gathered at hg hq ⊢
  obtain ⟨_, q⟩ := gathered
  cases hg
  subst hq
  have henv : q.environment = c.sources.environment := congrArg Sources.environment hsources
  have hmake : (produce name m outcomes).run q =
      (.make name m ⟨q.runs, c.sources.environment, q.limits⟩ outcomes,
        { q with runs := q.runs + 1 }) := by
    change (Output.make name m ⟨q.runs, q.environment, q.limits⟩ outcomes,
      if (m.runnable outcomes).isOk then { q with runs := q.runs + 1 } else q) = _
    rw [if_pos hok, henv]
  dsimp only
  rw [stored_of_none (p := q) hn, hmake]
  refine ⟨rfl, ?_, forall_hashed hhashed he hkey⟩
  change (⟨_, _, _, q.store.outputs.set (m.outputKey name c.sources.environment outcomes).id _, _⟩ :
    Snapshot) = _
  rw [Table.set_of_get?_none (t := q.store.outputs) hn]
  rfl

end

theorem poll_of_replying (hm : c.sources.headModule? name = some m)
    (h : Replying hashed c.sources.reach [] name m c o c') (hp : p.snapshot = c) :
    ((poll name).run p).1 = .ok (.ready o) ∧ ((poll name).run p).2.snapshot = c' ∧
      ∀ x ∈ pollHashes name p, hashed x := by
  subst hp
  obtain ⟨hanswer, hq, hhashed⟩ := h p rfl
  rw [pollHashes, poll_of_head hm]
  rw [show p.sources.headModule? name = some m from hm]
  exact ⟨congrArg Except.ok hanswer, hq, hhashed⟩

end Project

end Estimation
