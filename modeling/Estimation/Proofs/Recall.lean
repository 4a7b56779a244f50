import Estimation.Proofs.Returning
import Estimation.Proofs.Standing
import Estimation.Proofs.Steps

/-!
What has been asked for before. It makes no difference to whether a request is answered, nor to the
identity of the output; but the output of an identity is the one that was made first, and why it failed
is not part of its identity.
-/

namespace Estimation

open List

namespace Sources

variable {s t : Sources}

/-- Both give the same, in whatever order. -/
structure Agree (s t : Sources) : Prop where
  modules : ∀ hash, s.modules.get? hash = t.modules.get? hash
  heads : ∀ name, s.heads.get? name = t.heads.get? name
  continues : ∀ name, s.continues.get? name = t.continues.get? name
  pins : ∀ name, s.pins.get? name = t.pins.get? name
  environment : s.environment = t.environment

namespace Agree

variable (h : s.Agree t)

include h

theorem headModule? (name : String) : s.headModule? name = t.headModule? name := by
  simp only [Sources.headModule?, head?, h.heads, h.modules]

theorem find? (key : LoadKey) : s.find? key = t.find? key := by
  simp only [Sources.find?, h.modules, h.headModule?]

theorem isPresent (key : LoadKey) : s.isPresent key = t.isPresent key := by
  simp only [Sources.isPresent, head?, h.modules, h.heads]

theorem absence (key : LoadKey) : s.absence key = t.absence key := by
  simp only [Sources.absence, head?, h.heads]

theorem knownImports (name : String) (m : Module) : s.knownImports name m = t.knownImports name m := by
  simp only [Sources.knownImports, importsOf, continuedImports, continuesOf, h.continues, h.pins]

end Agree

end Sources

namespace Project

variable {p q p' q' : Project} {name importer : String} {m : Module} {i : Import}
  {chain : List String} {is : List Import} {g g' : Gathered} {answer answer' : Poll}

/-- Each output is there under its own identity. -/
def Filed (p : Project) : Prop := ∀ e ∈ p.store.outputs, e.2.id = e.1

/-- Both agree but for the outputs that are there, and what has been noted. -/
structure Similar (p q : Project) : Prop where
  sources : p.sources.Agree q.sources
  resolver : p.resolver = q.resolver
  loads : ∀ key, p.store.loads.get? key = q.store.loads.get? key
  filed : Filed p
  filed' : Filed q

/-- Both wait, or give outputs of one identity. -/
inductive SamePoll : Poll → Poll → Prop
  | ready {o o'} : o.id = o'.id → SamePoll (.ready o) (.ready o')
  | pending : SamePoll .pending .pending

/-- The same came of imports, as far as identities go. -/
inductive SameGathered : Gathered → Gathered → Prop
  | settled {outcomes outcomes'} : outcomes.map Prod.fst = outcomes'.map Prod.fst →
      (outcomes.map fun (i, x) => x.key i.specifier) =
        (outcomes'.map fun (i, x) => x.key i.specifier) →
      SameGathered (.settled outcomes) (.settled outcomes')
  | pending : SameGathered .pending .pending
  | cyclic {i cycle} : SameGathered (.cyclic i cycle) (.cyclic i cycle)

namespace SameGathered

theorem add {x x' : ImportOutcome} (hx : x.key i.specifier = x'.key i.specifier)
    (h : SameGathered g g') : SameGathered (g.add i x) (g'.add i x') := by
  cases h with
  | settled himports hkeys =>
    exact .settled (congrArg (cons i) himports) (congrArg₂ cons hx hkeys)
  | pending => exact .pending
  | cyclic => exact .cyclic

theorem addPending (h : SameGathered g g') : SameGathered g.addPending g'.addPending := by
  cases h with
  | settled => exact .pending
  | pending => exact .pending
  | cyclic => exact .cyclic

end SameGathered

/-- Nothing is changed but outputs and what has been noted. -/
structure Files (p q : Project) : Prop where
  sources : q.sources = p.sources
  resolver : q.resolver = p.resolver
  loads : q.store.loads = p.store.loads
  filed : Filed p → Filed q

theorem Similar.files (h : Similar p p') (hq : Files p q) (hq' : Files p' q') : Similar q q' where
  sources := hq.sources ▸ hq'.sources ▸ h.sources
  resolver := hq.resolver ▸ hq'.resolver ▸ h.resolver
  loads := hq.loads ▸ hq'.loads ▸ h.loads
  filed := hq.filed h.filed
  filed' := hq'.filed h.filed'

namespace Files

theorem settle (key : ResolutionKey) (r : Resolution) : Files p ((Project.settle key r).run p).2 := by
  change Files p (if _ then _ else _)
  split <;> exact ⟨rfl, rfl, rfl, id⟩

theorem commit (o : Output) (h : Files p q) : Files p ((Project.commit o).run q).2 where
  sources := h.sources
  resolver := h.resolver
  loads := h.loads
  filed hp e he := by
    rcases Table.mem_set he with rfl | he
    · rfl
    · exact h.filed hp e he

theorem stored {id : OutputId} {make : Work Output} (hp : Filed p) (hid : (make.run p).1.id = id)
    (hmake : Files p (make.run p).2) :
    ((stored id make).run p).1.id = id ∧ Files p ((stored id make).run p).2 := by
  cases ho : p.store.outputs.get? id with
  | some o =>
    rw [stored_of_get? ho]
    exact ⟨hp _ (Table.mem_of_get? ho), rfl, rfl, rfl, fun h => h⟩
  | none =>
    rw [stored_of_none ho]
    exact ⟨hid, hmake.commit _⟩

theorem produce (name : String) (m : Module) (outcomes : List (Import × ImportOutcome)) :
    Files p ((Project.produce name m outcomes).run p).2 := by
  change Files p (if _ then _ else _)
  split <;> exact ⟨rfl, rfl, rfl, id⟩

end Files

namespace Similar

variable (h : Similar p p')

include h

theorem startLoad (key : LoadKey) (k : ResolutionKey) (r : Resolution) :
    Similar ((Project.startLoad key [.resolutionSettled k r]).run p).2
      ((Project.startLoad key [.resolutionSettled k r]).run p').2 := by
  change Similar (if _ then _ else _) (if _ then _ else _)
  rw [h.loads, h.sources.isPresent]
  split
  · exact h
  · refine ⟨h.sources, h.resolver, fun key' => ?_, h.filed, h.filed'⟩
    change (p.store.loads.set key .loading).get? key' = (p'.store.loads.set key .loading).get? key'
    rw [Table.get?_set, Table.get?_set, h.loads]

theorem resolveImport (importer : String) (i : Import) :
    ((Project.resolveImport importer i).run p).1 = ((Project.resolveImport importer i).run p').1 ∧
      Similar ((Project.resolveImport importer i).run p).2
        ((Project.resolveImport importer i).run p').2 := by
  simp only [Project.resolveImport, StateT.run_bind, StateT.run_get, pure_bind, ← h.resolver,
    ← h.sources.find?, ← h.sources.absence, ← h.loads]
  split
  · exact ⟨rfl, h.files (.settle _ _) (.settle _ _)⟩
  · split
    · exact ⟨rfl, h.files (.settle _ _) (.settle _ _)⟩
    · exact ⟨rfl, h⟩
    · exact ⟨rfl, h.files (.settle _ _) (.settle _ _)⟩
    · split
      · exact ⟨rfl, h.startLoad _ _ _⟩
      · exact ⟨rfl, h.files (.settle _ _) (.settle _ _)⟩

theorem resolved {found : ImportTarget}
    (hq : (Project.resolveImport importer i).run p = (found, q)) :
    ∃ q', (Project.resolveImport importer i).run p' = (found, q') ∧ Similar q q' := by
  have hsame := h.resolveImport importer i
  rw [hq] at hsame
  exact ⟨((Project.resolveImport importer i).run p').2, Prod.ext hsame.1.symm rfl, hsame.2⟩

theorem stored {id : OutputId} {make make' : Work Output} {o o' : Output}
    (hid : (make.run p).1.id = id) (hid' : (make'.run p').1.id = id)
    (hmake : Files p (make.run p).2) (hmake' : Files p' (make'.run p').2)
    (hq : (Project.stored id make).run p = (o, q))
    (hq' : (Project.stored id make').run p' = (o', q')) :
    SamePoll (.ready o) (.ready o') ∧ Similar q q' := by
  obtain ⟨ho, hfiles⟩ := Files.stored h.filed hid hmake
  obtain ⟨ho', hfiles'⟩ := Files.stored h.filed' hid' hmake'
  rw [hq] at ho hfiles
  rw [hq'] at ho' hfiles'
  exact ⟨.ready (ho.trans ho'.symm), h.files hfiles hfiles'⟩

end Similar

theorem Similar.note (h : Similar p p') (entry entry' : LogEntry) :
    Similar (p.note entry) (p'.note entry') :=
  ⟨h.sources, h.resolver, h.loads, h.filed, h.filed'⟩

theorem produce_id (name : String) (m : Module) (outcomes : List (Import × ImportOutcome)) :
    ((produce name m outcomes).run p).1.id = (m.outputKey name p.environment outcomes).id := rfl

theorem Yields.same {e : Environment} (he : p.environment = e) (he' : p'.environment = e)
    (hg : SameGathered g g') (h : Similar p p') (hq : Yields name m e p g answer q)
    (hq' : Yields name m e p' g' answer' q') : SamePoll answer answer' ∧ Similar q q' := by
  cases hg with
  | pending =>
    obtain ⟨rfl, rfl⟩ := hq
    obtain ⟨rfl, rfl⟩ := hq'
    exact ⟨.pending, h⟩
  | @settled outcomes outcomes' _ hkeys =>
    obtain ⟨o, rfl, hq⟩ := hq
    obtain ⟨o', rfl, hq'⟩ := hq'
    have hkey : m.outputKey name e outcomes' = m.outputKey name e outcomes :=
      congrArg (OutputKey.mk name m.hash e.hash) hkeys.symm
    rw [hkey] at hq'
    refine h.stored ?_ ?_ (.produce name m outcomes) (.produce name m outcomes') hq hq'
    · rw [produce_id, he]
    · rw [produce_id, he', hkey]
  | @cyclic i cycle =>
    obtain ⟨o, rfl, hq⟩ := hq
    obtain ⟨o', rfl, hq'⟩ := hq'
    refine (h.note (.cyclicImport cycle) (.cyclicImport cycle)).stored ?_ ?_ ?_ ?_ hq hq'
    · rfl
    · rfl
    · exact ⟨rfl, rfl, rfl, id⟩
    · exact ⟨rfl, rfl, rfl, id⟩

mutual

theorem Gathers.same : ∀ {p q p' q' : Project} {chain : List String} {importer : String}
    {is : List Import} {g g' : Gathered}, Gathers chain importer is p g q →
    Gathers chain importer is p' g' q' → Similar p p' → SameGathered g g' ∧ Similar q q'
  | _, _, _, _, _, _, _, _, _, .nil, .nil, h => ⟨.settled rfl rfl, h⟩
  | _, _, _, _, _, _, _, _, _, .failed hr hrest, h', h => by
    obtain ⟨r', hr', hs⟩ := h.resolved hr
    obtain ⟨g₁, rfl, hrest'⟩ := h'.of_failed hr'
    exact (hrest.same hrest' hs).imp_left (.add rfl)
  | _, _, _, _, _, _, _, _, _, .pending hr hrest, h', h => by
    obtain ⟨r', hr', hs⟩ := h.resolved hr
    obtain ⟨g₁, rfl, hrest'⟩ := h'.of_pending hr'
    exact (hrest.same hrest' hs).imp_left .addPending
  | _, _, _, _, _, _, _, _, _, .cyclic hr hmem, h', h => by
    obtain ⟨r', hr', hs⟩ := h.resolved hr
    obtain ⟨rfl, rfl⟩ := h'.of_mem hr' hmem
    exact ⟨.cyclic, hs⟩
  | _, _, _, _, _, _, _, _, _, .ready hr hmem hanswer hrest, h', h => by
    obtain ⟨r', hr', hs⟩ := h.resolved hr
    obtain ⟨answer, s', g₁, hanswer', hrest', hg⟩ := h'.of_found hr' hmem
    obtain ⟨hsame, hs⟩ := hanswer.same hanswer' hs
    rcases hg with ⟨rfl, rfl⟩ | ⟨o', rfl, rfl⟩
    · cases hsame
    · cases hsame with
      | ready hid => exact (hrest.same hrest' hs).imp_left (.add (congrArg ImportKey.output hid))
  | _, _, _, _, _, _, _, _, _, .waiting hr hmem hanswer hrest, h', h => by
    obtain ⟨r', hr', hs⟩ := h.resolved hr
    obtain ⟨answer, s', g₁, hanswer', hrest', hg⟩ := h'.of_found hr' hmem
    obtain ⟨hsame, hs⟩ := hanswer.same hanswer' hs
    rcases hg with ⟨rfl, rfl⟩ | ⟨o', rfl, rfl⟩
    · exact (hrest.same hrest' hs).imp_left .addPending
    · cases hsame

theorem Returns.same : ∀ {p q p' q' : Project} {chain : List String} {name : String} {m : Module}
    {answer answer' : Poll}, Returns chain name m p answer q → Returns chain name m p' answer' q' →
    Similar p p' → SamePoll answer answer' ∧ Similar q q'
  | p, q, p', q', _, name, m, _, _, hp, h', h => by
    obtain ⟨g', r', hg', hq'⟩ := h'.gathered
    have he' := hg'.environment
    rw [← h.sources.knownImports] at hg'
    have henv : p'.environment = p.environment := h.sources.environment.symm
    rw [henv] at he' hq'
    match hp with
    | .pending hg =>
      obtain ⟨hsame, hs⟩ := hg.same hg' h
      exact Yields.same hg.environment he' hsame hs ⟨rfl, rfl⟩ hq'
    | .settled hg hstored =>
      obtain ⟨hsame, hs⟩ := hg.same hg' h
      exact Yields.same hg.environment he' hsame hs ⟨_, rfl, hstored⟩ hq'
    | .cyclic hg hstored =>
      obtain ⟨hsame, hs⟩ := hg.same hg' h
      exact Yields.same hg.environment he' hsame hs ⟨_, rfl, hstored⟩ hq'

end

theorem Similar.poll (h : Similar p p') (name : String) :
    Parallel SamePoll ((Project.poll name).run p).1 ((Project.poll name).run p').1 := by
  have hhead := h.sources.headModule? name
  cases hm : p.sources.headModule? name with
  | none =>
    rw [hm] at hhead
    rw [poll_of_none hm, poll_of_none hhead.symm]
    exact .error _
  | some m =>
    rw [hm] at hhead
    obtain ⟨answer, q, hq, hreturns⟩ := poll_returns hm
    obtain ⟨answer', q', hq', hreturns'⟩ := poll_returns hhead.symm
    rw [hq, hq']
    exact .ok (hreturns.same hreturns' h).1

namespace Filed

theorem mono (h : Filed p) (hq : ∀ e ∈ q.store.outputs, e ∈ p.store.outputs) : Filed q :=
  fun e he => h e (hq e he)

theorem preserved : Preserved Filed where
  resolve importer i p _ h := h.mono (p := p) fun e he => by
    rwa [(resolveImport_resolves importer i).quiet.outputs] at he
  note _ _ h := h
  run _ h := h
  commit o _ _ h := ((Files.mk rfl rfl rfl fun h => h).commit o).filed h

theorem steady : Steady Filed where
  poll name _ h := preserved.poll name h
  startLoad key p h := h.mono (p := p) fun e he => by
    rwa [(Quiet.startLoad_nil key).outputs] at he
  finishLoad key result p _ h := h

theorem act (h : Filed p) (a : Action) : Filed (p.act a) := by
  have hrest : (∀ name, a ≠ .poll name) → Filed (p.act a) := fun ha =>
    h.mono fun _ => mem_outputs_of_act ha
  cases a with
  | poll name => exact steady.poll name p h
  | _ => exact hrest fun _ => nofun

theorem perform (h : Filed p) (actions : List Action) : Filed (p.perform actions) := by
  induction actions generalizing p with
  | nil => exact h
  | cons a actions ih => exact ih (h.act a)

end Filed

theorem act_resolver (p : Project) (a : Action) : (p.act a).resolver = p.resolver := by
  cases a with
  | moveHead name hash =>
    rcases moveHead_cases p name hash with ⟨-, hq⟩ | ⟨-, hq⟩ <;> rw [hq]
    rfl
  | poll name => exact (poll_later name p).resolver
  | startLoad key => exact (Quiet.startLoad_nil key).resolver
  | finishLoad key result =>
    rw [act]
    split <;> rfl
  | _ => rfl

theorem perform_resolver (p : Project) (actions : List Action) :
    (p.perform actions).resolver = p.resolver := by
  induction actions generalizing p with
  | nil => rfl
  | cons a actions ih => exact (ih (p.act a)).trans (act_resolver p a)

/-- Where two states agree but for the outputs that are there, the same is answered, as far as
identities go. -/
theorem poll_recalls (environment environment' : Environment) (limits : Limits)
    (resolver : Option Resolver) (actions actions' : List Action) (name : String) :
    let p := (start environment limits resolver).perform actions
    let q := (start environment' limits resolver).perform actions'
    p.sources.Agree q.sources → (∀ key, p.store.loads.get? key = q.store.loads.get? key) →
      Parallel SamePoll ((poll name).run p).1 ((poll name).run q).1 := by
  intro p q hsources hloads
  have hfiled : ∀ environment, Filed (start environment limits resolver) := fun _ => nofun
  have hresolver : p.resolver = resolver := perform_resolver _ actions
  have hresolver' : q.resolver = resolver := perform_resolver _ actions'
  have hsimilar : Similar p q :=
    ⟨hsources, hresolver.trans hresolver'.symm, hloads, (hfiled environment).perform actions,
      (hfiled environment').perform actions'⟩
  exact hsimilar.poll name

set_option maxRecDepth 100000 in
theorem poll_recalls_compared :
    let p := (start .default .default none).perform [.setSource "A" "true", .poll "A"]
    let q := (start .default .default none).perform [.setSource "A" "true"]
    p.store.outputs.length = 1 ∧ q.store.outputs.length = 0 ∧ p.sources.Agree q.sources ∧
      (∀ key, p.store.loads.get? key = q.store.loads.get? key) ∧
      Parallel SamePoll ((poll "A").run p).1 ((poll "A").run q).1 := by
  intro p q
  have hlater : Later q p := poll_later "A" q
  have hsources : p.sources.Agree q.sources := by
    rw [hlater.sources]
    exact ⟨fun _ => rfl, fun _ => rfl, fun _ => rfl, fun _ => rfl, rfl⟩
  have hrun : p.store.outputs.length = 1 ∧ p.store.loads = q.store.loads := by decide +kernel
  have hloads : ∀ key, p.store.loads.get? key = q.store.loads.get? key := fun _ => by rw [hrun.2]
  exact ⟨hrun.1, rfl, hsources, hloads,
    poll_recalls .default .default .default none _ _ "A" hsources hloads⟩

/-- A module is being loaded twice. It is given and removed meanwhile, and the loads fail, each in its
own way. -/
def failing : List Action :=
  [.setSource "main" "import \"lib\" as lib", .poll "main", .setSource "lib" "true",
    .removeSource "lib", .poll "main", .finishLoad ⟨"lib", none⟩ (.error (.notFound "lib")),
    .poll "main", .finishLoad ⟨"lib", none⟩ (.error (.unreadable "lib" ""))]

/-- Why a load failed below a failed output. -/
def failedLoad? : Except GraphError Poll → Option LinkError
  | .ok (.ready o) =>
    match o.result with
    | .error e => e.root.getLeft?
    | .ok _ => none
  | _ => none

set_option maxRecDepth 100000 in
/-- But why a load failed depends on what was asked for before. -/
theorem poll_recalls_failing :
    let p := (start .default .default (some .byName)).perform failing
    let q := p.act .cleanAll
    p.sources = q.sources ∧ p.resolver = q.resolver ∧ p.store.loads = q.store.loads ∧
      failedLoad? ((poll "main").run p).1 = some (.notFound "lib") ∧
      failedLoad? ((poll "main").run q).1 = some (.unreadable "lib" "") := by
  intro p q
  refine ⟨rfl, rfl, rfl, ?_⟩
  decide +kernel

end Project

end Estimation
