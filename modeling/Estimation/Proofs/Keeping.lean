import Estimation.Proofs.Derivation
import Estimation.Proofs.Requests
import Mathlib.Data.Set.Function

/-!
What every request keeps of a project's outputs: each stands under its identity and is derived from
what its name stands for now.
-/

namespace Estimation

open List

namespace Project

variable {R : Regime} {origins : OutputId → Option Nat} {p q r : Project} {name : String} {m : Module}
  {o : Output} {id : OutputId}

/-- All outputs come from runs so far. Where outputs below kept ones are kept, no two runs share an
origin. -/
def basis (R : Regime) (origins : OutputId → Option Nat) (p : Project) : Basis where
  sources := p.sources
  resolver := p.resolver
  limits := p.limits
  kept o := R.coherent → p.store.outputs.get? o.id = some o
  started id n := n < p.runs ∧ (R.coherent → origins id = some n)

structure KeptBy (R : Regime) (origins : OutputId → Option Nat) (p : Project) : Prop where
  pins : p.sources.pins = []
  code : ∀ hash m, p.sources.modules.get? hash = some m → R.hashed (.code m.code)
  ids : ∀ e ∈ p.store.outputs, e.2.id = e.1
  derived : ∀ e ∈ p.store.outputs, Derived R (p.basis R origins) e.2
  fails : ∀ importer i e, p.Fails importer i e → R.failed p.sources importer i e
  since : R.first ≤ p.runs
  between : ∀ id n, origins id = some n → R.first ≤ n ∧ n < p.runs
  apart : ∀ id id' n, origins id = some n → origins id' = some n → id = id'

def Kept (R : Regime) (p : Project) : Prop := ∃ origins, KeptBy R origins p

theorem Quiet.kept (h : Quiet p q) (hp : p.Kept R) : q.Kept R := by
  obtain ⟨origins, hp⟩ := hp
  have hb : q.basis R origins = p.basis R origins := by
    simp only [basis, h.sources, h.resolver, h.limits, h.runs, h.outputs]
  refine ⟨origins, ?_, ?_, ?_, ?_, ?_, ?_, ?_, hp.apart⟩
  · exact h.sources ▸ hp.pins
  · exact h.sources ▸ hp.code
  · exact h.outputs ▸ hp.ids
  · rw [h.outputs, hb]
    exact hp.derived
  · exact fun importer i e hf => h.sources ▸ hp.fails importer i e (h.later.fails hf)
  · exact h.runs ▸ hp.since
  · exact h.runs ▸ hp.between

/-- An answer is there under its identity, and is of the name and the environment asked for. -/
structure Answers (q : Project) (name : String) (e : Environment) (o : Output) : Prop where
  stored : q.store.outputs.get? o.id = some o
  name : o.name = name
  same : o.environment.hash = e.hash

theorem Answers.later {e : Environment} (h : Answers q name e o) (hr : Later q r) :
    Answers r name e o :=
  ⟨hr.outputs _ _ h.stored, h.name, h.same⟩

/-- Outputs are asked for without doing harm, as long as all that is hashed for them is known and each
name on the chain depends on the next. -/
def Sound (R : Regime) (answer : List String → String → Module → Work Poll)
    (hashes : List String → String → Module → Project → List Hashed) : Prop :=
  ∀ chain name m p, p.Kept R → p.sources.headModule? name = some m →
    (chain ++ [name]).IsChain (p.sources.DependsOn p.resolver) →
    (∀ x ∈ hashes chain name m p, R.hashed x) →
    ((answer chain name m).run p).2.Kept R ∧
    ∀ o, ((answer chain name m).run p).1 = .ready o →
      Answers ((answer chain name m).run p).2 name p.environment o

/-- Settled imports are those that were asked for, with answers where they are ready. -/
structure Settles (R : Regime) (q : Project) (importer : String) (e : Environment)
    (is : List Import) (outcomes : List (Import × ImportOutcome)) : Prop where
  imports : outcomes.map Prod.fst = is
  failed : ∀ i cause, (i, .failed cause) ∈ outcomes → R.failed q.sources importer i cause
  target : ∀ i o, (i, .ready o) ∈ outcomes →
    Sources.target q.resolver importer i = .ok o.name
  answers : ∀ i o, (i, .ready o) ∈ outcomes → Answers q o.name e o

namespace Settles

variable {importer : String} {e : Environment} {i : Import} {is : List Import}
  {outcomes : List (Import × ImportOutcome)}

theorem nil : Settles R q importer e [] [] where
  imports := rfl
  failed _ _ h := nomatch h
  target _ _ h := nomatch h
  answers _ _ h := nomatch h

theorem cons_failed {cause : LinkError} (hf : R.failed q.sources importer i cause)
    (h : Settles R q importer e is outcomes) :
    Settles R q importer e (i :: is) ((i, .failed cause) :: outcomes) where
  imports := by rw [map_cons, h.imports]
  failed j cause' hj := by
    rcases mem_cons.1 hj with heq | hj
    · cases heq
      exact hf
    · exact h.failed j cause' hj
  target j o hj := h.target j o ((mem_cons.1 hj).resolve_left nofun)
  answers j o hj := h.answers j o ((mem_cons.1 hj).resolve_left nofun)

theorem cons_ready (ht : Sources.target q.resolver importer i = .ok name)
    (ho : Answers q name e o) (h : Settles R q importer e is outcomes) :
    Settles R q importer e (i :: is) ((i, .ready o) :: outcomes) where
  imports := by rw [map_cons, h.imports]
  failed j cause hj := h.failed j cause ((mem_cons.1 hj).resolve_left nofun)
  target j o' hj := by
    rcases mem_cons.1 hj with heq | hj
    · cases heq
      rw [ht, ho.name]
    · exact h.target j o' hj
  answers j o' hj := by
    rcases mem_cons.1 hj with heq | hj
    · cases heq
      exact ⟨ho.stored, rfl, ho.same⟩
    · exact h.answers j o' hj

end Settles

/-- What comes of imports, and the state after it. -/
structure Brings (R : Regime) (importer : String) (is : List Import) (p : Project)
    (result : Gathered × Project) : Prop where
  kept : result.2.Kept R
  later : Later p result.2
  settled : ∀ outcomes, result.1 = .settled outcomes →
    Settles R result.2 importer p.environment is outcomes
  cyclic : ∀ i cycle, result.1 = .cyclic i cycle →
    LeadsRound (p.sources.DependsOn p.resolver) importer cycle

namespace Brings

variable {importer : String} {i : Import} {is : List Import} {result : Gathered × Project}

theorem environment (hq : Later p q) : q.environment = p.environment :=
  congrArg Sources.environment hq.sources

theorem leadsRound (hq : Later p q) (h : Brings R importer is q result) {j : Import}
    {cycle : List String} (hg : result.1 = .cyclic j cycle) :
    LeadsRound (p.sources.DependsOn p.resolver) importer cycle :=
  hq.sources ▸ hq.resolver ▸ h.cyclic j cycle hg

theorem add_failed {e : LinkError} (hq : Later p q) (hf : R.failed p.sources importer i e)
    (h : Brings R importer is q result) :
    Brings R importer (i :: is) p (result.1.add i (.failed e), result.2) where
  kept := h.kept
  later := hq.trans h.later
  settled outcomes hg := by
    obtain ⟨others, hothers, rfl⟩ := settled_of_add hg
    refine .cons_failed ?_ (environment hq ▸ h.settled others hothers)
    rwa [h.later.sources, hq.sources]
  cyclic _ _ hg := h.leadsRound hq (cyclic_of_add hg)

theorem addPending (hq : Later p q) (h : Brings R importer is q result) :
    Brings R importer (i :: is) p (result.1.addPending, result.2) where
  kept := h.kept
  later := hq.trans h.later
  settled _ hg := absurd hg addPending_ne_settled
  cyclic _ _ hg := h.leadsRound hq (cyclic_of_addPending hg)

theorem add_ready (hq : Later p q) (ht : Sources.target p.resolver importer i = .ok name)
    (ho : Answers q name p.environment o) (h : Brings R importer is q result) :
    Brings R importer (i :: is) p (result.1.add i (.ready o), result.2) where
  kept := h.kept
  later := hq.trans h.later
  settled outcomes hg := by
    obtain ⟨others, hothers, rfl⟩ := settled_of_add hg
    refine .cons_ready ?_ (ho.later h.later) (environment hq ▸ h.settled others hothers)
    rw [h.later.resolver, hq.resolver, ht]
  cyclic _ _ hg := h.leadsRound hq (cyclic_of_add hg)

end Brings

section

variable {answer : List String → String → Module → Work Poll}
  {hashes : List String → String → Module → Project → List Hashed}

theorem gather_sound (hanswer : Sound R answer hashes)
    (hlater : ∀ chain target m p, Later p ((answer chain target m).run p).2) {chain : List String} {importer : String}
    {is : List Import} (hpins : ∀ i ∈ is, i.pin = none) (hp : p.Kept R)
    (hchain : (chain ++ [importer]).IsChain (p.sources.DependsOn p.resolver))
    (hdepends : ∀ i ∈ is, ∀ target, Sources.target p.resolver importer i = .ok target →
      p.sources.DependsOn p.resolver importer target)
    (hh : ∀ x ∈ gatherHashes answer hashes (chain ++ [importer]) importer is p, R.hashed x) :
    Brings R importer is p ((gather answer (chain ++ [importer]) importer is).run p) := by
  induction is generalizing p with
  | nil =>
    refine ⟨hp, .refl p, fun _ hg => ?_, fun _ _ hg => nomatch hg⟩
    cases hg
    exact .nil
  | cons i rest ih =>
    obtain ⟨hquiet, hfound, hfails, -, -⟩ := resolveImport_resolves (p := p) importer i
    rw [gatherHashes] at hh
    rw [gather_cons]
    generalize (resolveImport importer i).run p = resolved at hquiet hfound hfails hh ⊢
    obtain ⟨target, q⟩ := resolved
    replace hquiet : Quiet p q := hquiet
    have hpin := hpins i mem_cons_self
    -- The other imports are asked for in a later state.
    replace ih : ∀ {r : Project}, Later p r → r.Kept R →
        (∀ x ∈ gatherHashes answer hashes (chain ++ [importer]) importer rest r, R.hashed x) →
        Brings R importer rest r ((gather answer (chain ++ [importer]) importer rest).run r) := by
      intro r hr hkept
      refine ih (fun j hj => hpins j (mem_cons_of_mem _ hj)) hkept ?_ ?_ <;>
        rw [hr.sources, hr.resolver]
      · exact hchain
      · exact fun j hj => hdepends j (mem_cons_of_mem _ hj)
    cases target with
    | failed e =>
      have hf : R.failed p.sources importer i e := by
        obtain ⟨_, hp⟩ := hp
        exact hp.fails importer i e (hfails e rfl hpin)
      exact .add_failed hquiet.later hf (ih hquiet.later (hquiet.kept hp) hh)
    | pending => exact .addPending hquiet.later (ih hquiet.later (hquiet.kept hp) hh)
    | found target m =>
      obtain ⟨htarget, hm⟩ := hfound target m rfl
      have hm : p.sources.find? ⟨target, none⟩ = some m := hpin ▸ hm
      have hdepends := hdepends i mem_cons_self target htarget
      have hchain' := isChain_concat hchain hdepends
      dsimp only at hh ⊢
      split at hh <;> rename_i hmem
      · rw [if_pos hmem]
        refine ⟨hquiet.kept hp, hquiet.later, fun _ h => (nomatch h), fun _ _ h => ?_⟩
        cases h
        exact .head hdepends (leadsRound_cycle hchain' hmem)
      · rw [if_neg hmem]
        have hlater := hlater (chain ++ [importer]) target m q
        obtain ⟨hkept, hready⟩ := hanswer (chain ++ [importer]) target m q (hquiet.kept hp)
          (hquiet.sources ▸ hm) (hquiet.sources ▸ hquiet.resolver ▸ hchain') fun x hx => hh x (mem_append_left _ hx)
        replace hh := fun x hx => hh x (mem_append_right _ hx)
        generalize (answer _ target m).run q = answered at hkept hlater hready hh ⊢
        obtain ⟨poll, r⟩ := answered
        have hr := hquiet.later.trans hlater
        cases poll with
        | pending => exact .addPending hr (ih hr hkept hh)
        | ready o =>
          have ho := hready o rfl
          rw [Brings.environment hquiet.later] at ho
          exact .add_ready hr htarget ho (ih hr hkept hh)

end

/-- Of all that matters, only the output `o` is new in `q`, and the origin of its run. -/
structure Commits (origins origins' : OutputId → Option Nat) (o : Output) (p q : Project) :
    Prop where
  sources : q.sources = p.sources
  resolver : q.resolver = p.resolver
  limits : q.limits = p.limits
  outputs : q.store.outputs = p.store.outputs.set o.id o
  runs : p.runs ≤ q.runs
  others : ∀ id, id ≠ o.id → origins' id = origins id
  own : ∀ n, origins' o.id = some n → origins o.id = some n ∨ n = p.runs ∧ n < q.runs
  loads : q.store.loads = p.store.loads

namespace Commits

variable {origins' : OutputId → Option Nat} {o' : Output}

theorem later (h : Commits origins origins' o p q) (hn : p.store.outputs.get? o.id = none) :
    Later p q := by
  refine ⟨h.sources, h.resolver, h.limits, fun id o' ho => ?_, fun key => .inl (by rw [h.loads])⟩
  rw [h.outputs, Table.get?_set, if_neg, ho]
  rintro rfl
  rw [hn] at ho
  cases ho

theorem stored (h : Commits origins origins' o p q) : q.store.outputs.get? o.id = some o := by
  rw [h.outputs, Table.get?_set, if_pos rfl]

theorem origin (h : Commits origins origins' o p q) {n : Nat} (hid : origins' id = some n) :
    origins id = some n ∨ id = o.id ∧ n = p.runs ∧ n < q.runs := by
  by_cases heq : id = o.id
  · subst heq
    exact (h.own n hid).imp_right fun hn => ⟨rfl, hn⟩
  · exact .inl (h.others id heq ▸ hid)

/-- The run of a new output has given none before. -/
theorem apart (h : Commits origins origins' o p q)
    (hlt : ∀ id n, origins id = some n → n < p.runs)
    (hapart : ∀ id id' n, origins id = some n → origins id' = some n → id = id') (id id' : OutputId)
    (n : Nat) (hid : origins' id = some n) (hid' : origins' id' = some n) : id = id' := by
  rcases h.origin hid with hid | ⟨rfl, rfl, -⟩ <;> rcases h.origin hid' with hid' | ⟨rfl, heq, -⟩
  · exact hapart id id' n hid hid'
  · exact absurd (hlt id n hid) (heq ▸ Nat.lt_irrefl n)
  · exact absurd (hlt id' _ hid') (Nat.lt_irrefl _)
  · rfl

theorem derived (h : Commits origins origins' o p q) (hn : p.store.outputs.get? o.id = none)
    (ho : Derived R (p.basis R origins) o')
    (hs : R.coherent → (p.store.outputs.get? o'.id).isSome) :
    Derived R (q.basis R origins') o' := by
  have hne : ∀ id, (p.store.outputs.get? id).isSome → id ≠ o.id := by
    rintro _ hs rfl
    rw [hn] at hs
    cases hs
  refine ho.transfer (P := fun o' => R.coherent → (p.store.outputs.get? o'.id).isSome) hs
    ?_ h.resolver h.limits ?_ ?_ ?_ ?_ ?_
  · intro o m _ hm
    simp only [basis, h.sources] at hm ⊢
    exact ⟨hm, trivial⟩
  · intro o' n hs ho
    refine ⟨Nat.lt_of_lt_of_le ho.1 h.runs, fun hc => ?_⟩
    exact (h.others _ (hne _ (hs hc))).trans (ho.2 hc)
  · intro c _ hk hc
    exact (h.later hn).outputs _ _ (hk hc)
  · intro o' chain _ hround
    simp only [basis, h.sources, h.resolver] at hround ⊢
    exact hround
  · intro _ c _ _ hk hc
    exact Option.isSome_iff_exists.2 ⟨c, hk hc⟩
  · intro o' m i e _ _ _ hf
    simp only [basis, h.sources] at hf ⊢
    exact hf

theorem kept (h : Commits origins origins' o p q) (hn : p.store.outputs.get? o.id = none)
    (hp : KeptBy R origins p) (ho : Derived R (q.basis R origins') o) :
    KeptBy R origins' q where
  pins := h.sources ▸ hp.pins
  code := h.sources ▸ hp.code
  ids e he := by
    rcases Table.mem_set (h.outputs ▸ he) with rfl | he
    · rfl
    · exact hp.ids e he
  derived e he := by
    rcases Table.mem_set (h.outputs ▸ he) with rfl | he
    · exact ho
    · refine h.derived hn (hp.derived e he) fun _ => ?_
      exact hp.ids e he ▸ Table.isSome_of_mem he
  fails importer i e hf := h.sources ▸ hp.fails importer i e ((h.later hn).fails hf)
  since := hp.since.trans h.runs
  between id n hid := by
    rcases h.origin hid with hid | ⟨-, rfl, hlt⟩
    · exact ⟨(hp.between id n hid).1, Nat.lt_of_lt_of_le (hp.between id n hid).2 h.runs⟩
    · exact ⟨hp.since, hlt⟩
  apart := h.apart (fun id n hid => (hp.between id n hid).2) hp.apart

end Commits

theorem KeptBy.code_of_head (hp : KeptBy R origins p)
    (hm : p.sources.headModule? name = some m) : R.hashed (.code m.code) := by
  obtain ⟨hash, -, hm⟩ := Option.bind_eq_some_iff.1 hm
  exact hp.code hash m hm

/-- An output that is there under the identity of a key is of that key. -/
theorem KeptBy.answers (hp : KeptBy R origins p)
    (hinj : Set.InjOn OutputKey.id {k | R.hashed (.key k)}) {k : OutputKey} {e : Environment}
    (hk : R.hashed (.key k)) (he : k.environmentHash = e.hash)
    (ho : p.store.outputs.get? k.id = some o) : Answers p k.name e o := by
  have hmem := Table.mem_of_get? ho
  have hid : o.id = k.id := hp.ids _ hmem
  obtain ⟨k', hk', hid', hname, hsame⟩ := (hp.derived _ hmem).names.key
  have heq : k' = k := hinj hk' hk (hid'.symm.trans hid)
  subst heq
  exact ⟨hid ▸ ho, hname.symm, hsame.symm.trans he⟩

/-- If a module is run, its output comes from that run. -/
theorem produce_commits (origins : OutputId → Option Nat) (p : Project) (name : String) (m : Module)
    (outcomes : List (Import × ImportOutcome)) :
    let made := (produce name m outcomes).run p
    let q := ((commit made.1).run made.2).2
    ∃ origins', Commits origins origins' made.1 p q ∧ ((m.runnable outcomes).isOk →
      p.runs < q.runs ∧ origins' made.1.id = some p.runs) := by
  intro made q
  let ok := (m.runnable outcomes).isOk
  let origins' : OutputId → Option Nat := fun id =>
    if ok ∧ id = made.1.id then some p.runs else origins id
  have hq : q = ((commit made.1).run { p with runs := if ok then p.runs + 1 else p.runs }).2 := by
    refine congrArg (fun p => ((commit made.1).run p).2) ?_
    change (if ok then { p with runs := p.runs + 1 } else p : Project) = _
    split <;> rfl
  have hruns : ok → p.runs < q.runs := by
    intro hok
    rw [hq]
    change p.runs < if ok then p.runs + 1 else p.runs
    rw [if_pos hok]
    exact Nat.lt_succ_self _
  refine ⟨origins', ?_, fun hok => ⟨hruns hok, if_pos ⟨hok, rfl⟩⟩⟩
  rw [hq]
  refine ⟨rfl, rfl, rfl, rfl, ?_, fun id hne => if_neg fun h => hne h.2, fun n hid => ?_, rfl⟩
  · change p.runs ≤ if ok then p.runs + 1 else p.runs
    split <;> omega
  · simp only [origins', and_true] at hid
    split at hid <;> rename_i hok
    · cases hid
      exact .inr ⟨rfl, hq ▸ hruns hok⟩
    · exact .inl hid

theorem KeptBy.produce_kept (hp : KeptBy R origins p)
    {outcomes : List (Import × ImportOutcome)} (hm : p.sources.headModule? name = some m)
    (hs : Settles R p name p.environment (p.sources.knownImports name m) outcomes)
    (hcode : R.hashed (.code m.code)) (henv : R.hashed (.environment p.environment))
    (hkey : R.hashed (.key (m.outputKey name p.environment outcomes)))
    (hn : p.store.outputs.get? (m.outputKey name p.environment outcomes).id = none) :
    let made := (produce name m outcomes).run p
    let q := ((commit made.1).run made.2).2
    Kept R q ∧ Answers q name p.environment made.1 := by
  intro made q
  obtain ⟨origins', hcommits, hstarted⟩ := produce_commits origins p name m outcomes
  have hsources : (q.basis R origins').sources = p.sources := hcommits.sources
  have hresolver : (q.basis R origins').resolver = p.resolver := hcommits.resolver
  have hfits : (q.basis R origins').Fits R name m ⟨p.runs, p.environment, p.limits⟩ outcomes :=
    { head := hsources ▸ hm
      imports := hsources ▸ hs.imports
      limits := hcommits.limits.symm
      code := hcode
      environment := henv
      key := hkey
      started := fun hok => (hstarted hok).imp_right fun hid _ => hid
      failed := hsources ▸ hs.failed
      target := fun i o ho => hresolver ▸ hs.target i o ho
      same := fun i o ho => (hs.answers i o ho).same
      kept := fun i o ho _ => (hcommits.later hn).outputs _ _ (hs.answers i o ho).stored }
  have hderived : Derived R (q.basis R origins') made.1 := by
    refine .made hfits fun i o ho => ?_
    have hstored := (hs.answers i o ho).stored
    refine hcommits.derived hn (hp.derived _ (Table.mem_of_get? hstored)) fun _ => ?_
    exact Option.isSome_iff_exists.2 ⟨o, hstored⟩
  exact ⟨⟨origins', hcommits.kept hn hp hderived⟩, hcommits.stored, rfl, rfl⟩

theorem KeptBy.cyclic_kept (hp : KeptBy R origins p)
    (hm : p.sources.headModule? name = some m) {e : Environment} {i : Import}
    {chain : List String} (hround : LeadsRound (p.sources.DependsOn p.resolver) name chain)
    (hkey : R.hashed (.key ⟨name, m.hash, e.hash, [.cyclic i.specifier]⟩)) :
    let o := Output.cyclic name m e i (.graph (.cycle chain))
    let q := ((commit o).run p).2
    p.store.outputs.get? o.id = none → Kept R q ∧ Answers q name e o := by
  intro o q hn
  have hcommits : Commits origins origins o p q :=
    ⟨rfl, rfl, rfl, rfl, Nat.le_refl _, fun _ _ => rfl, fun _ => .inl, rfl⟩
  exact ⟨⟨origins, hcommits.kept hn hp (.cyclic hm hkey hround)⟩, hcommits.stored, rfl, rfl⟩

theorem compute_sound (hinj : Set.InjOn OutputKey.id {k | R.hashed (.key k)}) (depth : Nat) :
    Sound R (compute depth) (computeHashes depth) := by
  induction depth with
  | zero => exact fun _ _ _ p hp _ _ _ => ⟨hp, fun _ h => nomatch h⟩
  | succ depth ih =>
    intro chain name m p hp hm hchain hh
    rw [computeHashes] at hh
    rw [compute_succ]
    have hpins : ∀ i ∈ p.sources.knownImports name m, i.pin = none := by
      obtain ⟨_, hp⟩ := hp
      exact fun i => Sources.pin_of_mem_knownImports hp.pins
    have hcode : R.hashed (.code m.code) := by
      obtain ⟨_, hp⟩ := hp
      exact hp.code_of_head hm
    obtain ⟨hkept, hlater, hsettled, hcyclic⟩ := gather_sound ih (compute_later depth) hpins hp hchain
      (fun i hi target ht => ⟨m, hm, i, hi, ht⟩) fun x hx => hh x (mem_append_left _ hx)
    replace hh := fun x hx => hh x (mem_append_right _ hx)
    generalize (gather _ _ _ _).run p = gathered at hkept hlater hsettled hcyclic hh ⊢
    obtain ⟨g, q⟩ := gathered
    replace hlater : Later p q := hlater
    have hsources : q.sources = p.sources := hlater.sources
    have henv : q.environment = p.environment := congrArg Sources.environment hsources
    have hm' : q.sources.headModule? name = some m := hsources ▸ hm
    cases g with
    | pending => exact ⟨hkept, fun _ h => nomatch h⟩
    | settled outcomes =>
      have hs := hsettled outcomes rfl
      have hkey := hh (.key (m.outputKey name p.environment outcomes)) (by simp [Gathered.key?])
      have he := hh (.environment p.environment) (by simp [Gathered.key?])
      obtain ⟨origins, hkept⟩ := hkept
      dsimp only
      cases ho : q.store.outputs.get? (m.outputKey name p.environment outcomes).id with
      | some o =>
        rw [stored_of_get? ho]
        refine ⟨⟨origins, hkept⟩, fun _ h => ?_⟩
        cases h
        exact hkept.answers hinj hkey rfl ho
      | none =>
        rw [stored_of_none ho]
        rw [← henv] at hs hkey he ho ⊢
        rw [← hsources] at hs
        obtain ⟨hkept', hanswers⟩ := hkept.produce_kept hm' hs hcode he hkey ho
        refine ⟨hkept', fun _ h => ?_⟩
        cases h
        exact hanswers
    | cyclic i cycle =>
      have hkey := hh (.key ⟨name, m.hash, p.environment.hash, [.cyclic i.specifier]⟩)
        (by simp [Gathered.key?])
      have hnote : Quiet q (q.note (.cyclicImport cycle)) :=
        ⟨rfl, rfl, rfl, rfl, rfl, .none rfl rfl⟩
      obtain ⟨origins, hkept⟩ := hnote.kept hkept
      replace hlater := hlater.trans hnote.later
      dsimp only
      generalize q.note (.cyclicImport cycle) = q at hkept hlater ⊢
      generalize hmade : Output.cyclic name m p.environment i (.graph (.cycle cycle)) = made
      cases ho : q.store.outputs.get? made.id with
      | some o =>
        rw [stored_of_get? ho]
        refine ⟨⟨origins, hkept⟩, fun _ h => ?_⟩
        cases h
        subst hmade
        exact hkept.answers hinj hkey rfl ho
      | none =>
        rw [stored_of_none ho]
        have hm' : q.sources.headModule? name = some m := hlater.sources ▸ hm
        have hround : LeadsRound (q.sources.DependsOn q.resolver) name cycle :=
          hlater.sources ▸ hlater.resolver ▸ hcyclic i cycle rfl
        subst hmade
        obtain ⟨hkept', hanswers⟩ := hkept.cyclic_kept hm' hround hkey ho
        refine ⟨hkept', fun _ h => ?_⟩
        cases h
        exact hanswers

end Project

end Estimation
