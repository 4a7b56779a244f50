import Estimation.Proofs.Making
import Estimation.Proofs.Recomputation

/-!
Outputs with all that they are made of. Where imports may be pinned, a version that its name does not
stand for has outputs too, and an edit of what it imports does not drop them. But as long as no output is
left without one that it is made of, each identity has one run that all outputs above it come from.
-/

namespace Estimation

open List

namespace Hashed

theorem mem_keys {l : List Hashed} {k : OutputKey} : k ∈ keys l ↔ .key k ∈ l := by
  refine ⟨fun h => ?_, fun h => mem_filterMap.2 ⟨_, h, rfl⟩⟩
  obtain ⟨x, hx, hk⟩ := mem_filterMap.1 h
  cases x with
  | key => cases hk; exact hx
  | _ => cases hk

end Hashed

namespace OutputKey

/-- The outputs that an identity is made of. -/
def outputs (k : OutputKey) : List OutputId :=
  k.imports.filterMap fun
    | .output id => some id
    | _ => none

variable {name : String} {m : Module} {e : Environment} {outcomes : List (Import × ImportOutcome)}

theorem mem_outputs {id : OutputId} : id ∈ (m.outputKey name e outcomes).outputs ↔
    ∃ i o, (i, .ready o) ∈ outcomes ∧ o.id = id := by
  rw [outputs, Module.outputKey, filterMap_map, mem_filterMap]
  constructor
  · rintro ⟨⟨i, x⟩, hx, hid⟩
    cases x with
    | ready o => exact ⟨i, o, hx, Option.some.inj hid⟩
    | failed cause => cases hid
  · rintro ⟨i, o, ho, rfl⟩
    exact ⟨_, ho, rfl⟩

end OutputKey

/-- Outputs that are there, and the runs that they come from. -/
structure Stock where
  /-- What may have been worked into digests. -/
  hashed : Hashed → Prop
  limits : Limits
  /-- The run that an identity comes from, if there was one. -/
  origins : OutputId → Option Nat
  outputs : Table OutputId Output

namespace Stock

/-- What settled imports have to be for the output that is made of them. What the sources were is long
past. -/
structure Fits (S : Stock) (name : String) (m : Module) (run : Run)
    (outcomes : List (Import × ImportOutcome)) : Prop where
  imports : ∃ s : Sources, outcomes.map Prod.fst = s.knownImports name m
  limits : run.limits = S.limits
  code : S.hashed (.code m.code)
  environment : S.hashed (.environment run.environment)
  key : S.hashed (.key (m.outputKey name run.environment outcomes))
  started : (m.runnable outcomes).isOk →
    S.origins (m.outputKey name run.environment outcomes).id = some run.origin
  there : ∀ i o, (i, .ready o) ∈ outcomes → S.outputs.get? o.id = some o

end Stock

/-- Outputs that are made of outputs in stock. -/
inductive Composed (S : Stock) : Output → Prop
  | made {name m run outcomes} : S.Fits name m run outcomes →
      (∀ i o, (i, .ready o) ∈ outcomes → Composed S o) → Composed S (.make name m run outcomes)
  | cyclic {name m e i error} : S.hashed (.key ⟨name, m.hash, e.hash, [.cyclic i.specifier]⟩) →
      Composed S (.cyclic name m e i error)

namespace Composed

variable {S T : Stock} {o : Output}

theorem key (h : Composed S o) : ∃ k, S.hashed (.key k) ∧ o.id = k.id ∧ k.name = o.name := by
  cases h with
  | made h => exact ⟨_, h.key, rfl, rfl⟩
  | cyclic h => exact ⟨_, h, rfl, rfl⟩

/-- The stock may change as long as outputs that count are left what they are made of. -/
theorem transfer (h : Composed S o) (counts : OutputId → Prop) (ho : counts o.id)
    (hashed : ∀ x, S.hashed x → T.hashed x) (limits : T.limits = S.limits)
    (origins : ∀ id, counts id → T.origins id = S.origins id)
    (down : ∀ k c, S.hashed (.key k) → counts k.id → c.id ∈ k.outputs →
      S.outputs.get? c.id = some c → counts c.id ∧ T.outputs.get? c.id = some c) :
    Composed T o := by
  induction h with
  | @made name m run outcomes h _ ih =>
    have hdown : ∀ i c, (i, .ready c) ∈ outcomes →
        counts c.id ∧ T.outputs.get? c.id = some c := fun i c hc =>
      down _ c h.key ho (OutputKey.mem_outputs.2 ⟨i, c, hc, rfl⟩) (h.there i c hc)
    refine .made ?_ fun i c hc => ih i c hc (hdown i c hc).1
    exact
      { imports := h.imports
        limits := h.limits.trans limits.symm
        code := hashed _ h.code
        environment := hashed _ h.environment
        key := hashed _ h.key
        started := fun hr => (origins _ ho).trans (h.started hr)
        there := fun i c hc => (hdown i c hc).2 }
  | cyclic h => exact .cyclic (hashed _ h)

end Composed

namespace Project

variable {hashed : Hashed → Prop} {origins : OutputId → Option Nat} {p q : Project} {name : String}
  {m : Module} {o : Output}

def stock (hashed : Hashed → Prop) (origins : OutputId → Option Nat) (p : Project) : Stock :=
  ⟨hashed, p.limits, origins, p.store.outputs⟩

/-- Each output stands under its identity and is made of others in stock, and no two identities come from
one run. -/
structure StockedBy (hashed : Hashed → Prop) (origins : OutputId → Option Nat) (p : Project) :
    Prop where
  code : ∀ hash m, p.sources.modules.get? hash = some m → hashed (.code m.code)
  ids : ∀ e ∈ p.store.outputs, e.2.id = e.1
  composed : ∀ e ∈ p.store.outputs, Composed (p.stock hashed origins) e.2
  between : ∀ id n, origins id = some n → n < p.runs
  apart : ∀ id id' n, origins id = some n → origins id' = some n → id = id'

def Stocked (hashed : Hashed → Prop) (p : Project) : Prop := ∃ origins, StockedBy hashed origins p

theorem Stocked.quiet (h : p.Stocked hashed) (hq : Quiet p q) : q.Stocked hashed := by
  obtain ⟨origins, hp⟩ := h
  have hstock : q.stock hashed origins = p.stock hashed origins := by
    rw [stock, stock, hq.limits, hq.outputs]
  refine ⟨origins, hq.sources ▸ hp.code, hq.outputs ▸ hp.ids, ?_, hq.runs ▸ hp.between, hp.apart⟩
  rw [hq.outputs, hstock]
  exact hp.composed

namespace Commits

variable {origins' : OutputId → Option Nat} {o' : Output}

theorem composed (h : Commits origins origins' o p q) (hn : p.store.outputs.get? o.id = none)
    (ho : Composed (p.stock hashed origins) o') (hs : (p.store.outputs.get? o'.id).isSome) :
    Composed (q.stock hashed origins') o' := by
  refine ho.transfer (fun id => (p.store.outputs.get? id).isSome) hs (fun _ => id) h.limits
    (fun id hid => h.others id ?_) fun k c _ _ _ hc => ⟨?_, (h.later hn).outputs _ _ hc⟩
  · rintro rfl
    rw [hn] at hid
    cases hid
  · exact Option.isSome_iff_exists.2 ⟨c, hc⟩

theorem stocked (h : Commits origins origins' o p q) (hn : p.store.outputs.get? o.id = none)
    (hp : StockedBy hashed origins p) (ho : Composed (q.stock hashed origins') o) :
    StockedBy hashed origins' q where
  code := h.sources ▸ hp.code
  ids e he := by
    rcases Table.mem_set (h.outputs ▸ he) with rfl | he
    · rfl
    · exact hp.ids e he
  composed e he := by
    rcases Table.mem_set (h.outputs ▸ he) with rfl | he
    · exact ho
    · exact h.composed hn (hp.composed e he) (hp.ids e he ▸ Table.isSome_of_mem he)
  between id n hid := by
    rcases h.origin hid with hid | ⟨-, rfl, hlt⟩
    · exact Nat.lt_of_lt_of_le (hp.between id n hid) h.runs
    · exact hlt
  apart := h.apart hp.between hp.apart

end Commits

/-! ### Requests -/

/-- Outputs are asked for without doing harm to the stock, and what is answered is there. -/
def Stocks (hashed : Hashed → Prop) (answer : List String → String → Module → Work Poll)
    (hashes : List String → String → Module → Project → List Hashed) : Prop :=
  ∀ chain name m p, p.Stocked hashed → hashed (.code m.code) →
    (∀ x ∈ hashes chain name m p, hashed x) →
    ((answer chain name m).run p).2.Stocked hashed ∧
    ∀ o, ((answer chain name m).run p).1 = .ready o →
      ((answer chain name m).run p).2.store.outputs.get? o.id = some o

/-- What comes of imports, and the state after it. -/
structure Supplies (hashed : Hashed → Prop) (p : Project) (result : Gathered × Project) : Prop where
  stocked : result.2.Stocked hashed
  later : Later p result.2
  there : ∀ outcomes, result.1 = .settled outcomes → ∀ i o, (i, .ready o) ∈ outcomes →
    result.2.store.outputs.get? o.id = some o

namespace Supplies

variable {i : Import} {result : Gathered × Project}

theorem add_failed {e : LinkError} (hq : Later p q) (h : Supplies hashed q result) :
    Supplies hashed p (result.1.add i (.failed e), result.2) where
  stocked := h.stocked
  later := hq.trans h.later
  there outcomes hg j o ho := by
    obtain ⟨others, hothers, rfl⟩ := settled_of_add hg
    exact h.there others hothers j o ((mem_cons.1 ho).resolve_left nofun)

theorem addPending (hq : Later p q) (h : Supplies hashed q result) :
    Supplies hashed p (result.1.addPending, result.2) where
  stocked := h.stocked
  later := hq.trans h.later
  there _ hg := absurd hg addPending_ne_settled

theorem add_ready (hq : Later p q) (ho : q.store.outputs.get? o.id = some o)
    (h : Supplies hashed q result) : Supplies hashed p (result.1.add i (.ready o), result.2) where
  stocked := h.stocked
  later := hq.trans h.later
  there outcomes hg j c hc := by
    obtain ⟨others, hothers, rfl⟩ := settled_of_add hg
    rcases mem_cons.1 hc with heq | hc
    · cases heq
      exact h.later.outputs _ _ ho
    · exact h.there others hothers j c hc

end Supplies

theorem StockedBy.code_of_knows (hp : StockedBy hashed origins p) (hm : p.sources.Knows m) :
    hashed (.code m.code) := by
  obtain ⟨hash, hm⟩ := hm
  exact hp.code hash m hm

section

variable {answer : List String → String → Module → Work Poll}
  {hashes : List String → String → Module → Project → List Hashed}

theorem gather_supplies (hanswer : Stocks hashed answer hashes)
    (hlater : ∀ chain target m p, Later p ((answer chain target m).run p).2) {chain : List String}
    {importer : String} {is : List Import} (hp : p.Stocked hashed)
    (hh : ∀ x ∈ gatherHashes answer hashes chain importer is p, hashed x) :
    Supplies hashed p ((gather answer chain importer is).run p) := by
  induction is generalizing p with
  | nil =>
    refine ⟨hp, .refl p, fun outcomes hg i o ho => ?_⟩
    cases hg
    cases ho
  | cons i rest ih =>
    obtain ⟨hquiet, hfound, -, -, -⟩ := resolveImport_resolves (p := p) importer i
    rw [gatherHashes] at hh
    rw [gather_cons]
    generalize (resolveImport importer i).run p = resolved at hquiet hfound hh ⊢
    obtain ⟨target, q⟩ := resolved
    replace hquiet : Quiet p q := hquiet
    have hq := hp.quiet hquiet
    cases target with
    | failed e => exact .add_failed hquiet.later (ih hq hh)
    | pending => exact .addPending hquiet.later (ih hq hh)
    | found target m =>
      have hcode : hashed (.code m.code) := by
        obtain ⟨_, hp⟩ := hp
        exact hp.code_of_knows (Sources.knows_of_find? (hfound target m rfl).2)
      dsimp only at hh ⊢
      split at hh <;> rename_i hmem
      · rw [if_pos hmem]
        refine ⟨hq, hquiet.later, fun _ h => ?_⟩
        cases h
      · rw [if_neg hmem]
        have hlater := hlater chain target m q
        obtain ⟨hstocked, hready⟩ :=
          hanswer chain target m q hq hcode fun x hx => hh x (mem_append_left _ hx)
        replace hh := fun x hx => hh x (mem_append_right _ hx)
        generalize (answer chain target m).run q = answered at hstocked hlater hready hh ⊢
        obtain ⟨poll, r⟩ := answered
        have hr := hquiet.later.trans hlater
        cases poll with
        | pending => exact .addPending hr (ih hstocked hh)
        | ready o => exact .add_ready hr (hready o rfl) (ih hstocked hh)

end

/-- What is found under an identity is there under its own. -/
theorem StockedBy.stored (hp : StockedBy hashed origins p) {id : OutputId}
    (ho : p.store.outputs.get? id = some o) : p.store.outputs.get? o.id = some o := by
  rw [show o.id = id from hp.ids _ (Table.mem_of_get? ho)]
  exact ho

theorem StockedBy.produce (hp : StockedBy hashed origins p) {outcomes : List (Import × ImportOutcome)}
    (himports : ∃ s : Sources, outcomes.map Prod.fst = s.knownImports name m)
    (hthere : ∀ i o, (i, .ready o) ∈ outcomes → p.store.outputs.get? o.id = some o)
    (hcode : hashed (.code m.code)) (henv : hashed (.environment p.environment))
    (hkey : hashed (.key (m.outputKey name p.environment outcomes)))
    (hn : p.store.outputs.get? (m.outputKey name p.environment outcomes).id = none) :
    let made := (produce name m outcomes).run p
    let q := ((commit made.1).run made.2).2
    Stocked hashed q ∧ q.store.outputs.get? made.1.id = some made.1 := by
  intro made q
  obtain ⟨origins', hcommits, hstarted⟩ := produce_commits origins p name m outcomes
  refine ⟨⟨origins', hcommits.stocked hn hp (.made ?_ fun i o ho => ?_)⟩, hcommits.stored⟩
  · exact
      { imports := himports
        limits := hcommits.limits.symm
        code := hcode
        environment := henv
        key := hkey
        started := fun hok => (hstarted hok).2
        there := fun i o ho => (hcommits.later hn).outputs _ _ (hthere i o ho) }
  · have ho := hthere i o ho
    exact hcommits.composed hn (hp.composed _ (Table.mem_of_get? ho))
      (Option.isSome_iff_exists.2 ⟨o, ho⟩)

theorem StockedBy.commit_cyclic (hp : StockedBy hashed origins p) {e : Environment} {i : Import}
    {error : ModuleError} (hkey : hashed (.key ⟨name, m.hash, e.hash, [.cyclic i.specifier]⟩)) :
    let o := Output.cyclic name m e i error
    let q := ((commit o).run p).2
    p.store.outputs.get? o.id = none → Stocked hashed q ∧ q.store.outputs.get? o.id = some o := by
  intro o q hn
  have hcommits : Commits origins origins o p q :=
    ⟨rfl, rfl, rfl, rfl, Nat.le_refl _, fun _ _ => rfl, fun _ => .inl, rfl⟩
  exact ⟨⟨origins, hcommits.stocked hn hp (.cyclic hkey)⟩, hcommits.stored⟩

theorem compute_stocks (depth : Nat) : Stocks hashed (compute depth) (computeHashes depth) := by
  induction depth with
  | zero =>
    refine fun _ _ _ p hp _ _ => ⟨hp, fun _ h => ?_⟩
    cases h
  | succ depth ih =>
    intro chain name m p hp hcode hh
    rw [computeHashes] at hh
    rw [compute_succ]
    obtain ⟨hstocked, hlater, hthere⟩ :=
      gather_supplies ih (compute_later depth) hp fun x hx => hh x (mem_append_left _ hx)
    have himports := @imports_of_gather p (compute depth) (chain ++ [name]) name
      (p.sources.knownImports name m)
    replace hh := fun x hx => hh x (mem_append_right _ hx)
    generalize (gather _ _ _ _).run p = gathered at hstocked hlater hthere himports hh ⊢
    obtain ⟨g, q⟩ := gathered
    obtain ⟨origins, hstocked⟩ := hstocked
    have henv : q.environment = p.environment := congrArg Sources.environment hlater.sources
    cases g with
    | pending =>
      refine ⟨⟨origins, hstocked⟩, fun _ h => ?_⟩
      cases h
    | settled outcomes =>
      have hkey := hh (.key (m.outputKey name p.environment outcomes)) (by simp [Gathered.key?])
      have he := hh (.environment p.environment) (by simp [Gathered.key?])
      dsimp only
      cases ho : q.store.outputs.get? (m.outputKey name p.environment outcomes).id with
      | some o =>
        rw [stored_of_get? ho]
        refine ⟨⟨origins, hstocked⟩, fun _ h => ?_⟩
        cases h
        exact hstocked.stored ho
      | none =>
        rw [stored_of_none ho]
        rw [← henv] at hkey he ho
        obtain ⟨hq, hmade⟩ := hstocked.produce ⟨p.sources, himports rfl⟩ (hthere outcomes rfl) hcode he
          hkey ho
        refine ⟨hq, fun _ h => ?_⟩
        cases h
        exact hmade
    | cyclic i cycle =>
      have hkey := hh (.key ⟨name, m.hash, p.environment.hash, [.cyclic i.specifier]⟩)
        (by simp [Gathered.key?])
      have hnote : Quiet q (q.note (.cyclicImport cycle)) := ⟨rfl, rfl, rfl, rfl, rfl, .none rfl rfl⟩
      obtain ⟨origins, hstocked⟩ := Stocked.quiet ⟨origins, hstocked⟩ hnote
      dsimp only
      generalize q.note (.cyclicImport cycle) = q at hstocked ⊢
      generalize hmade : Output.cyclic name m p.environment i (.graph (.cycle cycle)) = made
      cases ho : q.store.outputs.get? made.id with
      | some o =>
        rw [stored_of_get? ho]
        refine ⟨⟨origins, hstocked⟩, fun _ h => ?_⟩
        cases h
        exact hstocked.stored ho
      | none =>
        rw [stored_of_none ho]
        subst hmade
        obtain ⟨hq, hstored⟩ := hstocked.commit_cyclic hkey ho
        refine ⟨hq, fun _ h => ?_⟩
        cases h
        exact hstored

theorem Stocked.poll (hp : p.Stocked hashed) (name : String) (hh : ∀ x ∈ pollHashes name p, hashed x) :
    ((Project.poll name).run p).2.Stocked hashed := by
  rw [pollHashes] at hh
  cases hm : p.sources.headModule? name with
  | none =>
    rw [poll_of_none hm]
    exact hp
  | some m =>
    rw [hm] at hh
    rw [poll_of_head hm]
    have hcode : hashed (.code m.code) := by
      obtain ⟨_, hp⟩ := hp
      exact hp.code_of_knows (Sources.knows_of_headModule? hm)
    exact (compute_stocks _ [] name m p hp hcode hh).1

/-! ### Actions -/

/-- What an action works into digests. -/
def actHashes (p : Project) : Action → List Hashed
  | .setSource _ code => [.code code]
  | .poll name => pollHashes name p
  | .finishLoad key result => if key ∈ p.inFlight then loadHashes result else []
  | _ => []

def performHashes : Project → List Action → List Hashed
  | _, [] => []
  | p, a :: actions => p.actHashes a ++ performHashes (p.act a) actions

/-- Versions become known only from code that is worked into a digest. -/
theorem of_get?_modules_act {hash : String} {a : Action}
    (hm : (p.act a).sources.modules.get? hash = some m) :
    p.sources.modules.get? hash = some m ∨ .code m.code ∈ p.actHashes a := by
  cases a with
  | setSource name code =>
    refine (Table.of_get?_setNew hm).symm.imp_right fun heq => ?_
    rw [heq]
    exact mem_singleton.2 rfl
  | moveHead name hash =>
    rcases moveHead_cases p name hash with ⟨-, hq⟩ | ⟨-, hq⟩ <;> rw [hq] at hm <;> exact .inl hm
  | poll name =>
    rw [act, (poll_later name p).sources] at hm
    exact .inl hm
  | startLoad key =>
    rw [act, (Quiet.startLoad_nil key).sources] at hm
    exact .inl hm
  | finishLoad key result =>
    rw [actHashes]
    rw [act] at hm
    split at hm <;> rename_i hkey
    · rw [if_pos hkey]
      cases result with
      | error e => exact .inl hm
      | ok new =>
        refine (Table.of_get?_setNew hm).symm.imp_right fun heq => ?_
        rw [heq]
        exact mem_singleton.2 rfl
    · exact .inl hm
  | _ => exact .inl hm

/-- No module is run, and outputs are dropped by their names. -/
structure Drops (p q : Project) : Prop where
  limits : q.limits = p.limits
  runs : q.runs = p.runs
  outputs : ∃ keep : String → Bool, q.store.outputs = p.store.outputs.filter fun e => keep e.2.name

namespace Drops

theorem of_outputs (hlimits : q.limits = p.limits) (hruns : q.runs = p.runs)
    (houtputs : q.store.outputs = p.store.outputs) : Drops p q :=
  ⟨hlimits, hruns, fun _ => true, by rw [houtputs, filter_true]⟩

theorem of_without {names : List String} (hlimits : q.limits = p.limits) (hruns : q.runs = p.runs)
    (houtputs : q.store.outputs = Event.without names p.store.outputs) : Drops p q :=
  ⟨hlimits, hruns, fun name => decide (name ∉ names), houtputs⟩

theorem of_without_without {names names' : List String} (hlimits : q.limits = p.limits)
    (hruns : q.runs = p.runs)
    (houtputs : q.store.outputs = Event.without names (Event.without names' p.store.outputs)) :
    Drops p q :=
  ⟨hlimits, hruns, fun name => decide (name ∉ names) && decide (name ∉ names'),
    houtputs.trans (filter_filter ..)⟩

theorem act {a : Action} (ha : ∀ name, a ≠ .poll name) : Drops p (p.act a) := by
  cases a with
  | moveHead name hash =>
    rcases moveHead_cases p name hash with ⟨-, hq⟩ | ⟨-, hq⟩ <;> rw [hq]
    · exact .of_without_without rfl rfl rfl
    · exact .of_outputs rfl rfl rfl
  | setEnvironment e => exact .of_outputs rfl rfl rfl
  | clean name => exact .of_without rfl rfl rfl
  | cleanAll => exact .of_without rfl rfl rfl
  | poll name => exact absurd rfl (ha name)
  | startLoad key =>
    have hquiet := Quiet.startLoad_nil (p := p) key
    exact .of_outputs hquiet.limits hquiet.runs hquiet.outputs
  | finishLoad key result =>
    rw [Project.act]
    split <;> exact .of_outputs rfl rfl rfl
  | _ => exact .of_without_without rfl rfl rfl

theorem mem (h : Drops p q) {e : OutputId × Output} (he : e ∈ q.store.outputs) :
    e ∈ p.store.outputs := by
  obtain ⟨keep, houtputs⟩ := h.outputs
  rw [houtputs] at he
  exact mem_of_mem_filter he

/-- What stays under an identity is what was there, if the identity tells the name. -/
theorem there (h : Drops p q) (hp : StockedBy hashed origins p)
    (hinj : Set.InjOn OutputKey.id {k | hashed (.key k)}) (ho : p.store.outputs.get? o.id = some o)
    (hstays : (q.store.outputs.get? o.id).isSome) : q.store.outputs.get? o.id = some o := by
  obtain ⟨o', ho'⟩ := Option.isSome_iff_exists.1 hstays
  have hmem := Table.mem_of_get? ho'
  obtain ⟨k, hk, hid, hname⟩ := (hp.composed _ (Table.mem_of_get? ho)).key
  obtain ⟨k', hk', hid', hname'⟩ := (hp.composed _ (h.mem hmem)).key
  have hsame : o'.id = o.id := hp.ids _ (h.mem hmem)
  obtain rfl : k' = k := hinj hk' hk (hid'.symm.trans (hsame.trans hid))
  obtain ⟨keep, houtputs⟩ := h.outputs
  rw [houtputs] at hmem ⊢
  refine Table.get?_filter ho ?_
  have hkeep : keep o'.name = true := (mem_filter.1 hmem).2
  rwa [← hname', hname] at hkeep

end Drops

/-- Limits are given once. -/
theorem limits_perform (p : Project) (actions : List Action) : (p.perform actions).limits = p.limits := by
  induction actions generalizing p with
  | nil => rfl
  | cons a actions ih =>
    refine (ih (p.act a)).trans ?_
    have hdrops : (∀ name, a ≠ .poll name) → (p.act a).limits = p.limits :=
      fun ha => (Drops.act ha).limits
    cases a with
    | poll name => exact (poll_later name p).limits
    | _ => exact hdrops fun _ => nofun

/-- No output is there without those that it is made of. -/
def Whole (l : List Hashed) (p : Project) : Prop :=
  ∀ k ∈ Hashed.keys l, (p.store.outputs.get? k.id).isSome →
    ∀ id ∈ k.outputs, (p.store.outputs.get? id).isSome

instance (l : List Hashed) (p : Project) : Decidable (p.Whole l) :=
  inferInstanceAs (Decidable (∀ k ∈ Hashed.keys l, _ → ∀ id ∈ k.outputs, _))

/-- Whatever has been done so far, no output is there without those that it is made of. -/
def StaysWhole (l : List Hashed) : Project → List Action → Prop
  | p, [] => p.Whole l
  | p, a :: actions => p.Whole l ∧ StaysWhole l (p.act a) actions

instance decidableStaysWhole (l : List Hashed) :
    (p : Project) → (actions : List Action) → Decidable (StaysWhole l p actions)
  | p, [] => inferInstanceAs (Decidable (p.Whole l))
  | p, a :: actions =>
    have := decidableStaysWhole l (p.act a) actions
    inferInstanceAs (Decidable (p.Whole l ∧ StaysWhole l (p.act a) actions))

variable {l : List Hashed} {a : Action} {actions : List Action}

theorem StaysWhole.whole (h : StaysWhole l p actions) : p.Whole l := by
  cases actions with
  | nil => exact h
  | cons a actions => exact h.1

theorem StockedBy.drop (hp : StockedBy (· ∈ l) origins p)
    (hinj : Set.InjOn OutputKey.id {k | .key k ∈ l}) (ha : ∀ name, a ≠ .poll name)
    (hh : ∀ x ∈ p.actHashes a, x ∈ l) (hwhole : (p.act a).Whole l) :
    StockedBy (· ∈ l) origins (p.act a) := by
  have hdrops : Drops p (p.act a) := .act ha
  refine ⟨fun hash m hm => ?_, fun e he => hp.ids e (hdrops.mem he), fun e he => ?_,
    hdrops.runs ▸ hp.between, hp.apart⟩
  · rcases of_get?_modules_act hm with hm | hm
    · exact hp.code hash m hm
    · exact hh _ hm
  · have hmem := hdrops.mem he
    refine (hp.composed e hmem).transfer
      (fun id => ((p.act a).store.outputs.get? id).isSome) ?_ (fun _ => id) hdrops.limits
      (fun _ _ => rfl) fun k c hk hthere hc hstored => ?_
    · exact hp.ids e hmem ▸ Table.isSome_of_mem he
    · have hstays := hwhole k (Hashed.mem_keys.2 hk) hthere c.id hc
      exact ⟨hstays, hdrops.there hp hinj hstored hstays⟩

theorem Stocked.act (hp : p.Stocked (· ∈ l)) (hinj : Set.InjOn OutputKey.id {k | .key k ∈ l})
    (hh : ∀ x ∈ p.actHashes a, x ∈ l) (hwhole : (p.act a).Whole l) : (p.act a).Stocked (· ∈ l) := by
  have hdrop : (∀ name, a ≠ .poll name) → (p.act a).Stocked (· ∈ l) := fun ha => by
    obtain ⟨origins, hp⟩ := hp
    exact ⟨origins, hp.drop hinj ha hh hwhole⟩
  cases a with
  | poll name => exact hp.poll name hh
  | _ => exact hdrop fun _ => nofun

theorem Stocked.perform (hp : p.Stocked (· ∈ l)) (hinj : Set.InjOn OutputKey.id {k | .key k ∈ l})
    (hh : ∀ x ∈ performHashes p actions, x ∈ l) (hwhole : StaysWhole l p actions) :
    (p.perform actions).Stocked (· ∈ l) := by
  induction actions generalizing p with
  | nil => exact hp
  | cons a actions ih =>
    have hact := hp.act hinj (fun x hx => hh x (mem_append_left _ hx)) hwhole.2.whole
    exact ih hact (fun x hx => hh x (mem_append_right _ hx)) hwhole.2

theorem stocked_start (hashed : Hashed → Prop) (environment : Environment) (limits : Limits)
    (resolver : Option Resolver) : (start environment limits resolver).Stocked hashed :=
  ⟨fun _ => none, nofun, nofun, nofun, nofun, nofun⟩

/-- Without outputs nothing is in stock. -/
theorem Stocked.scratch (hp : p.Stocked hashed) (e : Environment) : (p.scratch e).Stocked hashed := by
  obtain ⟨_, hp⟩ := hp
  exact ⟨fun _ => none, hp.code, nofun, nofun, nofun, nofun⟩

theorem StockedBy.mono {hashed' : Hashed → Prop} (hp : StockedBy hashed origins p)
    (h : ∀ x, hashed x → hashed' x) : StockedBy hashed' origins p where
  code hash m hm := h _ (hp.code hash m hm)
  ids := hp.ids
  composed e he := (hp.composed e he).transfer (fun _ => True) trivial h rfl
    (fun _ _ => rfl) fun _ _ _ _ _ hc => ⟨trivial, hc⟩
  between := hp.between
  apart := hp.apart

theorem Stocked.mono {hashed' : Hashed → Prop} (hp : p.Stocked hashed)
    (h : ∀ x, hashed x → hashed' x) : p.Stocked hashed' :=
  hp.imp fun _ hp => hp.mono h

theorem StockedBy.whole (hp : StockedBy (· ∈ l) origins p)
    (hinj : Set.InjOn OutputKey.id {k | .key k ∈ l}) : p.Whole l := by
  intro k hk hthere id hid
  obtain ⟨o, ho⟩ := Option.isSome_iff_exists.1 hthere
  have hmem := Table.mem_of_get? ho
  have hsame : o.id = k.id := hp.ids _ hmem
  cases hp.composed _ hmem with
  | made h =>
    cases hinj (Hashed.mem_keys.1 hk) h.key hsame.symm
    obtain ⟨i, c, hc, rfl⟩ := OutputKey.mem_outputs.1 hid
    exact Option.isSome_iff_exists.2 ⟨c, h.there i c hc⟩
  | cyclic hkey =>
    cases hinj (Hashed.mem_keys.1 hk) hkey hsame.symm
    cases hid

/-- Only requests leave outputs. -/
def Clears : Project → List Action → Prop
  | _, [] => True
  | p, a :: actions =>
    ((∃ name, a = .poll name) ∨ (p.act a).store.outputs = []) ∧ Clears (p.act a) actions

theorem Clears.staysWhole (h : Clears p actions) (hp : p.Stocked (· ∈ l))
    (hinj : Set.InjOn OutputKey.id {k | .key k ∈ l}) (hh : ∀ x ∈ performHashes p actions, x ∈ l) :
    StaysWhole l p actions := by
  have hwhole : ∀ {q : Project}, q.Stocked (· ∈ l) → q.Whole l := fun ⟨_, hq⟩ => hq.whole hinj
  induction actions generalizing p with
  | nil => exact hwhole hp
  | cons a actions ih =>
    have hhead := fun x hx => hh x (mem_append_left _ hx)
    refine ⟨hwhole hp, ih h.2 ?_ fun x hx => hh x (mem_append_right _ hx)⟩
    rcases h.1 with ⟨name, rfl⟩ | hnil
    · exact hp.poll name hhead
    · refine hp.act hinj hhead fun k _ hthere => ?_
      rw [hnil] at hthere
      cases hthere

/-! ### Without pins -/

/-- Nothing is pinned, and nothing is cleaned away from below others. -/
def Harmless (p : Project) : Action → Prop
  | .setPins _ _ => False
  | .clean name => p.Removable name
  | _ => True

def AllHarmless : Project → List Action → Prop
  | _, [] => True
  | p, a :: actions => p.Harmless a ∧ AllHarmless (p.act a) actions

/-- What is kept of derived outputs is in stock. -/
theorem composed_of_derived
    (h : Derived (.plain True hashed) (p.basis (.plain True hashed) origins) o) :
    Composed (p.stock hashed origins) o := by
  induction h with
  | given h => exact h.elim
  | made h _ ih =>
    refine .made ?_ ih
    exact
      { imports := ⟨p.sources, h.imports⟩
        limits := h.limits
        code := h.code
        environment := h.environment
        key := h.key
        started := fun hr => (h.started hr).2 trivial
        there := fun i c hc => h.kept i c hc trivial }
  | cyclic _ hkey => exact .cyclic hkey

theorem KeptBy.stockedBy (hp : KeptBy (.plain True hashed) origins p) : StockedBy hashed origins p where
  code := hp.code
  ids := hp.ids
  composed e he := composed_of_derived (hp.derived e he)
  between id n hid := (hp.between id n hid).2
  apart := hp.apart

end Project

open Project

namespace History

variable {l : List Hashed} {p : Project} {a : Action} {actions : List Action}

theorem act (h : History True l p) (ha : p.Harmless a) :
    History True (l ++ p.actHashes a) (p.act a) := by
  have hsame : ∀ {q}, History True l q → History True (l ++ []) q := fun h => by rwa [append_nil]
  cases a with
  | setSource name code => exact h.setSource name code
  | removeSource name => exact hsame (h.removeSource name)
  | moveHead name hash =>
    refine hsame ?_
    rw [Project.act]
    cases hq : p.moveHead name hash with
    | ok q => exact h.moveHead hq
    | error e => exact h
  | setContinues name names => exact hsame (h.setContinues name names)
  | setPins name pins => exact ha.elim
  | setEnvironment e => exact hsame (h.setEnvironment e)
  | clean name => exact hsame (h.clean fun _ => ha)
  | cleanAll => exact hsame h.cleanAll
  | poll name => exact h.poll name
  | startLoad key => exact hsame (h.startLoad key)
  | finishLoad key result =>
    rw [Project.act, actHashes]
    split
    · exact h.finishLoad key result
    · exact hsame h

theorem perform (h : History True l p) (ha : AllHarmless p actions) :
    History True (l ++ performHashes p actions) (p.perform actions) := by
  induction actions generalizing l p with
  | nil => rwa [performHashes, append_nil]
  | cons a actions ih =>
    rw [performHashes, ← append_assoc]
    exact ih (h.act ha.1) ha.2

theorem staysWhole {l' : List Hashed} (h : History True l p) (ha : AllHarmless p actions)
    (hinj : Set.InjOn OutputKey.id {k | .key k ∈ l'}) (hl : ∀ x ∈ l, x ∈ l')
    (hh : ∀ x ∈ performHashes p actions, x ∈ l') : StaysWhole l' p actions := by
  induction actions generalizing l p with
  | nil =>
    obtain ⟨_, hp⟩ := h.kept (· ∈ l') hl hinj
    exact hp.stockedBy.whole hinj
  | cons a actions ih =>
    obtain ⟨_, hp⟩ := h.kept (· ∈ l') hl hinj
    refine ⟨hp.stockedBy.whole hinj, ih (h.act ha.1) ha.2 (fun x hx => ?_) fun x hx => ?_⟩
    · exact (mem_append.1 hx).elim (hl x) fun hx => hh x (mem_append_left _ hx)
    · exact hh x (mem_append_right _ hx)

end History

end Estimation
