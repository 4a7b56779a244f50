import Estimation.Proofs.Cycles
import Estimation.Proofs.Repetition
import Estimation.Proofs.Sorting
import Estimation.Proofs.Unlinked
import Estimation.Proofs.Waiting

/-!
Loading all that a name needs before its output is asked for. When that has come to its end the request
waits for nothing, whatever the loads have brought, in whatever order. What is looked at is what names
depend on by the versions that they stand for; a pinned import is passed over, and so is what another
version imports.
-/

namespace Estimation

open List

namespace Project

variable {p q r : Project} {importer name n target : String} {m : Module} {i : Import} {key : LoadKey}
  {found : ImportTarget} {answer : Poll}

/-- What a key asks for is there, or it is known not to be had. -/
def Provided (p : Project) (key : LoadKey) : Prop :=
  (p.sources.find? key).isSome ∨ ∃ e, p.store.loads.get? key = some (.failed e)

theorem Provided.reading (h : ∀ target, Sources.target p.resolver importer i = .ok target →
    p.Provided ⟨target, i.pin⟩) : (p.reading importer i).1 ≠ .pending := by
  rw [Project.reading]
  split
  · simp
  · next target ht =>
    rcases h target ht with hfind | ⟨e, he⟩
    · obtain ⟨m, hm⟩ := Option.isSome_iff_exists.1 hfind
      simp [hm]
    · cases hfind : p.sources.find? ⟨target, i.pin⟩ <;> simp [he]

theorem Reads.fst (h : Reads p importer i found q) : (p.reading importer i).1 = found := by
  cases h with
  | settles hreading => rw [hreading]
  | waits hreading => rw [hreading]

namespace Demand

/-- No import that is asked for has to be waited for. -/
def Answered (d : Demand) : Prop :=
  ∀ importer i, d.Resolves importer i → (d.project.reading importer i).1 ≠ .pending

end Demand

open Demand

mutual

theorem Gathers.answered {d : Demand} (hd : d.Answered) {chain : List String} {importer : String}
    {is : List Import} {p q : Project} {g : Gathered} : Gathers chain importer is p g q →
      Late d.project p → (∀ i ∈ is, d.Resolves importer i) → g ≠ .pending
  | .nil, _, _ => nofun
  | .failed hresolve hrest, hp, his =>
    have hq := Holds.resolved hp (his _ mem_cons_self) (.of_run hresolve)
    have hrest := hrest.answered hd (hp.trans hq.late) fun j hj => his j (mem_cons_of_mem _ hj)
    add_ne_pending hrest _ _
  | .pending hresolve _, hp, his =>
    absurd (hp.reading _ _ ▸ (Reads.of_run hresolve).fst) (hd _ _ (his _ mem_cons_self))
  | .cyclic _ _, _, _ => nofun
  | .ready hresolve _ hanswer hrest, hp, his =>
    have hq := Holds.resolved hp (his _ mem_cons_self) (.of_run hresolve)
    have hr := hq.trans (hanswer.holds (hp.trans hq.late) ((his _ mem_cons_self).visits hp hresolve))
    have hrest := hrest.answered hd (hp.trans hr.late) fun j hj => his j (mem_cons_of_mem _ hj)
    add_ne_pending hrest _ _
  | .waiting hresolve _ hanswer _, hp, his =>
    have hq := Holds.resolved hp (his _ mem_cons_self) (.of_run hresolve)
    absurd rfl (hanswer.answered hd (hp.trans hq.late) ((his _ mem_cons_self).visits hp hresolve))

theorem Returns.answered {d : Demand} (hd : d.Answered) {chain : List String} {name : String}
    {m : Module} {p q : Project} {answer : Poll} : Returns chain name m p answer q →
      Late d.project p → d.Visits name m → answer ≠ .pending
  | .pending hg, hp, hm => absurd rfl (hg.answered hd hp (hm.resolves hp))
  | .settled _ _, _, _ => nofun
  | .cyclic _ _, _, _ => nofun

end

theorem Demand.Answered.poll_ready (hm : p.sources.headModule? name = some m)
    (h : (⟨p, name, m⟩ : Demand).Answered) : ∃ o q, (poll name).run p = (.ok (.ready o), q) := by
  obtain ⟨answer, q, hpoll, hreturns⟩ := poll_returns hm
  cases answer with
  | ready o => exact ⟨o, q, hpoll⟩
  | pending => exact absurd rfl (hreturns.answered h (.refl p) .asked)

/-- All that a name depends on is there, or cannot be loaded, and no load goes on. -/
structure Preloaded (p : Project) (name : String) : Prop where
  missing : p.missing name = .ok []
  loading : p.store.isLoading = false

theorem Preloaded.provided (h : Preloaded p name) (hp : Standing p)
    (hn : Relation.ReflTransGen (p.sources.DependsOn p.resolver) name n) : p.Provided ⟨n, none⟩ := by
  have hmissing := h.missing
  rw [Project.missing, Sources.fullOrder] at hmissing
  cases horder : (p.sources.graph p.resolver).runOrder [name] with
  | error cycle =>
    rw [horder] at hmissing
    cases hmissing
  | ok order =>
    rw [horder] at hmissing
    have hmem : n ∈ order := by
      rw [Graph.mem_runOrder horder, Graph.needed_singleton]
      rwa [← dependsOn_graph] at hn
    have hthere := filter_eq_nil_iff.1 (Except.ok.inj hmissing) n hmem
    cases hhead : p.sources.head? n with
    | some hash => exact .inl (Option.isSome_iff_exists.2 (hp.headModule? (Option.isSome_of_eq_some hhead)))
    | none =>
      cases hload : p.store.loads.get? ⟨n, none⟩ with
      | none => simp [hload, hhead] at hthere
      | some state =>
        cases state with
        | loading => simp [hload, hhead] at hthere
        | failed e => exact .inr ⟨e, hload⟩

namespace Demand

variable {d : Demand}

/-- An import that is asked for and that loading by names does not see. -/
def Missed (d : Demand) (importer : String) (i : Import) (target : String) : Prop :=
  d.Resolves importer i ∧ Sources.target d.project.resolver importer i = .ok target ∧
    (i.pin ≠ none ∨
      ¬ Relation.ReflTransGen (d.project.sources.DependsOn d.project.resolver) d.name target)

/-- As long as no import is pinned, what is asked for is what names stand for. -/
theorem Visits.unpinned (hd : ∀ importer i, d.Resolves importer i → i.pin = none)
    (hm : d.project.sources.headModule? d.name = some d.m) (h : d.Visits n m) :
    d.project.sources.headModule? n = some m ∧
      Relation.ReflTransGen (d.project.sources.DependsOn d.project.resolver) d.name n := by
  induction h with
  | asked => exact ⟨hm, .refl⟩
  | @imported importer m' i target m hvisits hi ht hfind ih =>
    rw [hd importer i ⟨m', hvisits, hi⟩] at hfind
    exact ⟨hfind, ih.2.tail ⟨m', ih.1, i, hi, ht⟩⟩

theorem not_missed (hd : ∀ importer i, d.Resolves importer i → i.pin = none)
    (hm : d.project.sources.headModule? d.name = some d.m) : ¬ d.Missed importer i target := by
  rintro ⟨⟨m, hvisits, hi⟩, ht, hpin | hreach⟩
  · exact hpin (hd importer i ⟨m, hvisits, hi⟩)
  · obtain ⟨hhead, hn⟩ := hvisits.unpinned hd hm
    exact hreach (hn.tail ⟨m, hhead, i, hi, ht⟩)

end Demand

theorem Preloaded.answered (h : Preloaded p name) (hp : Standing p)
    (hmissed : ∀ importer i target, (⟨p, name, m⟩ : Demand).Missed importer i target →
      p.Provided ⟨target, i.pin⟩) : (⟨p, name, m⟩ : Demand).Answered := by
  intro importer i hi
  refine Provided.reading fun target ht => ?_
  by_cases hseen : i.pin = none ∧
      Relation.ReflTransGen (p.sources.DependsOn p.resolver) name target
  · rw [hseen.1]
    exact h.provided hp hseen.2
  · exact hmissed importer i target ⟨hi, ht, not_and_or.1 hseen⟩

/-- Rounds of loading by names. In each the loads of what is missing are started, and then anything may
happen; the last one finds nothing to do. -/
inductive Preloads (name : String) : Project → Project → Prop
  | done {p : Project} : Preloaded p name → Preloads name p p
  | round {p q : Project} {names} (meanwhile : List Action) : p.missing name = .ok names →
      (names ≠ [] ∨ p.store.isLoading) →
      Preloads name ((p.startLoads names).perform meanwhile) q → Preloads name p q

theorem Preloads.preloaded (h : Preloads name p q) : Preloaded q name := by
  induction h with
  | done h => exact h
  | round _ _ _ _ ih => exact ih

theorem Preloads.preserves {P : Project → Prop} (hact : ∀ a p, P p → P (p.act a))
    (h : Preloads name p q) (hp : P p) : P q := by
  induction h with
  | done _ => exact hp
  | @round p q names meanwhile _ _ _ ih =>
    refine ih (foldlRecOn meanwhile act ?_ fun p hp a _ => hact a p hp)
    exact startLoads_induction (fun key => hact (.startLoad key)) hp names

section

variable {σ : Type} {load : LoadKey → StateM σ (Except LinkError Module)} {s s' : σ}

theorem steady_resolver (resolver : Option Resolver) : Steady fun p => p.resolver = resolver where
  poll name _ hp := (poll_later name _).resolver.trans hp
  startLoad key _ hp := (Quiet.startLoad_nil key).resolver.trans hp
  finishLoad _ _ _ _ hp := hp

theorem steady_head? (name : String) : Steady fun p => (p.sources.head? name).isSome where
  poll n p hp := by rwa [(poll_later n p).sources]
  startLoad key p hp := by rwa [(Quiet.startLoad_nil key).sources]
  finishLoad key result p _ hp := by
    cases result with
    | error e => exact hp
    | ok m =>
      rw [head?_finishLoad, Option.isSome_or, hp]
      rfl

theorem loadImports_of_missing {resolve : Resolver} (hp : p.resolver = some resolve)
    {names : List String} (hmissing : p.missing name = .ok names) (rounds : Nat) :
    (loadImports load rounds name p).run s =
      if names = [] ∧ p.store.isLoading = false then ((.ok (), p), s)
      else
        match rounds with
        | 0 => ((.error (.stalled name), p), s)
        | rounds + 1 => (finishLoads load (p.startLoads names) >>= loadImports load rounds name).run s := by
  rw [loadImports.eq_def, hp, hmissing]
  by_cases hdone : names = [] ∧ p.store.isLoading = false
  · rw [if_pos hdone]
    simp [hdone]
    rfl
  · rw [if_neg hdone]
    simp only [Option.isNone_some, Bool.and_eq_true, Bool.not_eq_true', List.isEmpty_iff, hdone,
      if_false, Bool.false_eq_true]
    cases rounds <;> rfl

/-- Loading is done in such rounds, in each of which the loads end that are in flight. -/
theorem preloads_of_loadImports {resolve : Resolver} (hp : p.resolver = some resolve) (rounds : Nat)
    (h : (loadImports load rounds name p).run s = ((.ok (), q), s')) : Preloads name p q := by
  induction rounds generalizing p s with
  | zero =>
    cases hmissing : p.missing name with
    | error e =>
      rw [loadImports.eq_def, hp, hmissing] at h
      cases h
    | ok names =>
      rw [loadImports_of_missing hp hmissing] at h
      split at h <;> cases h
      next hdone => exact .done ⟨hdone.1 ▸ hmissing, hdone.2⟩
  | succ rounds ih =>
    cases hmissing : p.missing name with
    | error e =>
      rw [loadImports.eq_def, hp, hmissing] at h
      cases h
    | ok names =>
      rw [loadImports_of_missing hp hmissing] at h
      split at h
      · next hdone =>
        cases h
        exact .done ⟨hdone.1 ▸ hmissing, hdone.2⟩
      · next hrest =>
        obtain ⟨meanwhile, hended⟩ : ∃ meanwhile, ((finishLoads load (p.startLoads names)).run s).1 =
            (p.startLoads names).perform meanwhile :=
          (perform_steady _).finishLoads ⟨[], rfl⟩ s
        have hresolver : ((finishLoads load (p.startLoads names)).run s).1.resolver = some resolve :=
          (steady_resolver _).finishLoads ((steady_resolver _).startLoads hp names) s
        rw [not_and_or, Bool.not_eq_false] at hrest
        exact .round meanwhile hmissing hrest (hended ▸ ih hresolver h)

end

/-- What was loaded by names need not be waited for. So after all has been loaded a request is answered at once
if no import is pinned, or if what the loads did not look at is there. -/
theorem poll_ready_of_preloads (environment : Environment) (limits : Limits) (resolve : Resolver)
    (actions : List Action) (name : String) :
    let p := (start environment limits (some resolve)).perform actions
    (∀ {σ : Type} (load : LoadKey → StateM σ (Except LinkError Module)) (rounds : Nat) (s s' : σ)
      (q : Project), (loadImports load rounds name p).run s = ((.ok (), q), s') →
        Preloads name p q ∧ ((p.sources.head? name).isSome → (q.sources.head? name).isSome)) ∧
    ∀ q, Preloads name p q → (q.sources.head? name).isSome →
      ∃ m, q.sources.headModule? name = some m ∧
        ((∀ importer i, (⟨q, name, m⟩ : Demand).Resolves importer i → i.pin = none) ∨
          (∀ importer i target, (⟨q, name, m⟩ : Demand).Missed importer i target →
            q.Provided ⟨target, i.pin⟩) →
        ∃ o r, (poll name).run q = (.ok (.ready o), r)) := by
  intro p
  have hresolver : p.resolver = some resolve := perform_resolver _ actions
  have hp : Standing p := (standing_start environment limits (some resolve)).perform actions
  refine ⟨fun load rounds s s' q h => ⟨preloads_of_loadImports hresolver rounds h, fun hhead => ?_⟩,
    fun q hq hhead => ?_⟩
  · have hq : (((loadImports load rounds name p).run s).1.2.sources.head? name).isSome :=
      (steady_head? name).loadImports hhead s rounds
    rwa [h] at hq
  · have hstanding : Standing q := hq.preserves (fun a p hp => hp.act a) hp
    obtain ⟨m, hm⟩ := hstanding.headModule? hhead
    refine ⟨m, hm, fun hprovided => Demand.Answered.poll_ready hm ?_⟩
    refine hq.preloaded.answered hstanding fun importer i target hmissed => ?_
    rcases hprovided with hunpinned | hprovided
    · exact absurd hmissed (Demand.not_missed hunpinned hm)
    · exact hprovided importer i target hmissed

namespace Preloading

/-- Of two modules the one imports the other, and another one that cannot be had. -/
def lend (key : LoadKey) : StateM Unit (Except LinkError Module) :=
  return match key.name with
  | "a" => .ok (.ofCode "import \"b\" as b\nimport \"gone\" as g")
  | "b" => .ok (.ofCode "true")
  | name => .error (.notFound name)

def borrowing : List Action := [.setSource "main" "import \"a\" as a"]

set_option maxRecDepth 100000 in
theorem poll_ready_of_preloads_borrowing :
    let p := (start .default .default (some .byName)).perform borrowing
    ∃ q s, (loadImports lend 2 "main" p).run () = ((.ok (), q), s) ∧
      q.sources.names = ["a", "b", "main"] ∧ ∃ o r, (poll "main").run q = (.ok (.ready o), r) := by
  intro p
  have hrun : ((loadImports lend 2 "main" p).run ()).1.1.isOk ∧
      ((loadImports lend 2 "main" p).run ()).1.2.sources.names = ["a", "b", "main"] ∧
      ((loadImports lend 2 "main" p).run ()).1.2.sources.pins = [] := by
    decide +kernel
  have hhead : (p.sources.head? "main").isSome := by decide +kernel
  obtain ⟨hok, hnames, hpins⟩ := hrun
  obtain ⟨hloads, hready⟩ := poll_ready_of_preloads .default .default .byName borrowing "main"
  generalize hended : (loadImports lend 2 "main" p).run () = ended at hok hnames hpins
  obtain ⟨⟨_ | _, q⟩, s⟩ := ended
  · cases hok
  · obtain ⟨hpreloads, hkept⟩ := hloads lend 2 () s q hended
    obtain ⟨m, -, hready⟩ := hready q hpreloads (hkept hhead)
    refine ⟨q, s, rfl, hnames, hready (.inl ?_)⟩
    rintro importer i ⟨m', -, hi⟩
    exact Sources.pin_of_mem_knownImports hpins hi

/-- A name stands for another version than the one that its import is pinned to, and that is not known. -/
def overlooked : List Action :=
  [.setSource "lib" "false", .setSource "main" "import \"lib\" as lib",
    .setPins "main" [("lib", Digest.ofText "true")]]

set_option maxRecDepth 100000 in
/-- Nothing is missing then, but the pinned version is waited for. -/
theorem poll_pending_overlooked :
    let p := (start .default .default (some .byName)).perform overlooked
    let loaded := ((loadImports lend 0 "main" p).run ()).1
    loaded.1.isOk ∧ isPending ((poll "main").run loaded.2).1 := by
  decide +kernel

end Preloading

end Project

end Estimation
