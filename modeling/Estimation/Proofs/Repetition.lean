import Estimation.Proofs.Recall

/-!
Asking again. What was made for the first answer is found again: nothing is run, told or loaded. What is
noted of imports stays as well, unless two imports under one name are called the same and mean different
modules. These are noted in one place, each instead of the other.
-/

namespace Estimation

open List

namespace Project

variable {p q r p' q' : Project} {importer : String} {i : Import} {found : ImportTarget}
  {key : LoadKey} {more : List Event}

/-- What an import leads to, and what is noted of it. While it is waited for, that is nothing. -/
def reading (p : Project) (importer : String) (i : Import) : ImportTarget × Option Resolution :=
  match Sources.target p.resolver importer i with
  | .error e => (.failed e, some (.failed none e))
  | .ok target =>
    match p.sources.find? ⟨target, i.pin⟩, p.store.loads.get? ⟨target, i.pin⟩ with
    | some m, _ => (.found target m, some (.loaded target m.hash))
    | none, some .loading => (.pending, none)
    | none, some (.failed e) => (.failed e, some (.failed (some target) e))
    | none, none =>
      if p.resolver.isSome then (.pending, none)
      else
        let e := p.sources.absence ⟨target, i.pin⟩
        (.failed e, some (.failed (some target) e))

/-- A load that need not be started. -/
def Known (p : Project) (key : LoadKey) : Prop :=
  (p.store.loads.get? key).isSome ∨ p.sources.isPresent key

theorem startLoad_of_known (h : p.Known key) : (startLoad key more).run p = ((), p) := by
  change ((), if _ then _ else _) = _
  rw [if_pos (Bool.or_eq_true_iff.2 h)]

theorem known_startLoad (k : ResolutionKey) (target : String) :
    ((startLoad key [.resolutionSettled k (.loading target)]).run p).2.Known key := by
  change Known (if _ then _ else _) key
  split
  · next h => exact Bool.or_eq_true_iff.1 h
  · left
    change ((p.store.loads.set key .loading).get? key).isSome
    rw [Table.get?_set, if_pos rfl]
    rfl

/-- An import is resolved as it reads. -/
inductive Reads (p : Project) (importer : String) (i : Import) : ImportTarget → Project → Prop
  | settles {found res} : p.reading importer i = (found, some res) →
      Reads p importer i found ((settle ⟨importer, i.specifier⟩ res).run p).2
  | waits {target} : p.reading importer i = (.pending, none) →
      p.Known ⟨target, i.pin⟩ ∨ p.resolver.isSome →
      Sources.target p.resolver importer i = .ok target →
      Reads p importer i .pending ((startLoad ⟨target, i.pin⟩
        [.resolutionSettled ⟨importer, i.specifier⟩ (.loading target)]).run p).2

theorem resolveImport_reads (importer : String) (i : Import) :
    Reads p importer i ((resolveImport importer i).run p).1 ((resolveImport importer i).run p).2 := by
  simp only [resolveImport, StateT.run_bind, StateT.run_get, pure_bind]
  split
  · next e ht =>
    have hreading : p.reading importer i = (.failed e, some (.failed none e)) := by rw [reading, ht]
    exact .settles hreading
  · next target ht =>
    split
    · next m hm =>
      have hreading : p.reading importer i = (.found target m, some (.loaded target m.hash)) := by
        simp only [reading, ht, hm]
      exact .settles hreading
    · next hm hl =>
      have hreading : p.reading importer i = (.pending, none) := by simp only [reading, ht, hm, hl]
      have hknown : p.Known ⟨target, i.pin⟩ := .inl (by rw [hl]; rfl)
      have hreads := Reads.waits hreading (.inl hknown) ht
      rwa [startLoad_of_known hknown] at hreads
    · next e hm hl =>
      have hreading : p.reading importer i = (.failed e, some (.failed (some target) e)) := by
        simp only [reading, ht, hm, hl]
      exact .settles hreading
    · next hm hl =>
      split
      · next hr =>
        have hreading : p.reading importer i = (.pending, none) := by
          simp only [reading, ht, hm, hl, hr, if_true]
        exact .waits hreading (.inr hr) ht
      · next hr =>
        have hreading : p.reading importer i = (.failed (p.sources.absence ⟨target, i.pin⟩),
            some (.failed (some target) (p.sources.absence ⟨target, i.pin⟩))) := by
          simp only [reading, ht, hm, hl, hr]
          rfl
        exact .settles hreading

theorem Reads.of_run (h : (resolveImport importer i).run p = (found, q)) :
    Reads p importer i found q := by
  have hreads := resolveImport_reads (p := p) importer i
  rwa [h] at hreads

/-- Steps of a request: where nothing can be loaded, no load is started. -/
structure Late (p q : Project) : Prop extends Later p q where
  unlinked : p.resolver = none → ∀ key, q.store.loads.get? key = p.store.loads.get? key

namespace Late

theorem refl (p : Project) : Late p p := ⟨.refl p, fun _ _ => rfl⟩

theorem trans (h : Late p q) (h' : Late q r) : Late p r :=
  ⟨h.toLater.trans h'.toLater, fun hr key =>
    (h'.unlinked (h.resolver.trans hr) key).trans (h.unlinked hr key)⟩

theorem reading (h : Late p q) (importer : String) (i : Import) :
    q.reading importer i = p.reading importer i := by
  rw [Project.reading, Project.reading, h.resolver, h.sources]
  cases Sources.target p.resolver importer i with
  | error e => rfl
  | ok target =>
    dsimp only
    cases p.sources.find? ⟨target, i.pin⟩ with
    | some m => rfl
    | none =>
      rcases h.loads ⟨target, i.pin⟩ with heq | ⟨hp, hq⟩
      · rw [heq]
      · -- a load that has been started meanwhile reads like one that has to be started
        cases hr : p.resolver with
        | none =>
          rw [h.unlinked hr, hp] at hq
          cases hq
        | some resolver =>
          rw [hp, hq]
          rfl

theorem known (h : Late p q) (hk : p.Known key) : q.Known key := by
  rcases hk with hk | hk
  · left
    rcases h.loads key with heq | ⟨-, hq⟩
    · rwa [heq]
    · rw [hq]
      rfl
  · right
    rwa [h.sources]

end Late

theorem Reads.late (h : Reads p importer i found q) : Late p q := by
  cases h with
  | settles hreading =>
    refine ⟨(Quiet.settle _ _).later, fun _ key => ?_⟩
    change (if _ then _ else _ : Project).store.loads.get? key = _
    split <;> rfl
  | waits hreading hwaits ht =>
    refine ⟨(Quiet.startLoad _ _ _).later, fun hr key => ?_⟩
    rcases hwaits with hknown | hsome
    · rw [startLoad_of_known hknown]
    · rw [hr] at hsome
      cases hsome

theorem Reads.noted (h : Reads p importer i found q) {res : Resolution}
    (hres : (p.reading importer i).2 = some res) :
    q.store.resolutions.get? ⟨importer, i.specifier⟩ = some res := by
  cases h with
  | settles hreading =>
    rw [hreading] at hres
    obtain rfl := Option.some.inj hres
    change (if _ then _ else _ : Project).store.resolutions.get? _ = _
    split
    · next hnoted => exact hnoted
    · exact (Table.get?_set _ _ _ _).trans (if_pos rfl)
  | waits hreading =>
    rw [hreading] at hres
    cases hres

theorem Reads.others (h : Reads p importer i found q) {key : ResolutionKey}
    (hkey : ⟨importer, i.specifier⟩ ≠ key) :
    q.store.resolutions.get? key = p.store.resolutions.get? key := by
  cases h with
  | settles =>
    change (if _ then _ else _ : Project).store.resolutions.get? _ = _
    split
    · rfl
    · exact (Table.get?_set _ _ _ _).trans (if_neg hkey)
  | waits =>
    change (if _ then _ else _ : Project).store.resolutions.get? _ = _
    split
    · rfl
    · exact (Table.get?_set _ _ _ _).trans (if_neg hkey)

/-- Nothing is changed but what is noted of imports, and what has been written down. -/
structure Still (p q : Project) : Prop where
  sources : q.sources = p.sources
  resolver : q.resolver = p.resolver
  limits : q.limits = p.limits
  runs : q.runs = p.runs
  inFlight : q.inFlight = p.inFlight
  outputs : q.store.outputs = p.store.outputs
  loads : q.store.loads = p.store.loads
  notices : q.notices = p.notices

namespace Still

theorem refl (p : Project) : Still p p := ⟨rfl, rfl, rfl, rfl, rfl, rfl, rfl, rfl⟩

theorem trans (h : Still p q) (h' : Still q r) : Still p r where
  sources := h'.sources.trans h.sources
  resolver := h'.resolver.trans h.resolver
  limits := h'.limits.trans h.limits
  runs := h'.runs.trans h.runs
  inFlight := h'.inFlight.trans h.inFlight
  outputs := h'.outputs.trans h.outputs
  loads := h'.loads.trans h.loads
  notices := h'.notices.trans h.notices

theorem settle (key : ResolutionKey) (res : Resolution) : Still p ((Project.settle key res).run p).2 := by
  change Still p (if _ then _ else _)
  split <;> exact ⟨rfl, rfl, rfl, rfl, rfl, rfl, rfl, rfl⟩

theorem cyclicImport (chain : List String) : Still p (p.note (.cyclicImport chain)) := by
  refine ⟨rfl, rfl, rfl, rfl, rfl, rfl, rfl, ?_⟩
  exact filterMap_append.trans (append_nil _)

theorem late (h : Still p q) : Late p q :=
  ⟨⟨h.sources, h.resolver, h.limits, fun _ _ ho => h.outputs ▸ ho, fun _ => .inl (by rw [h.loads])⟩,
    fun _ _ => by rw [h.loads]⟩

end Still

/-- An output that is stored is there already, or it is made. -/
theorem stored_cases {id : OutputId} {make : Work Output} {o : Output}
    (h : (stored id make).run p = (o, q)) :
    p.store.outputs.get? id = some o ∧ p = q ∨
    p.store.outputs.get? id = none ∧ (make.run p).1 = o ∧ ((commit o).run (make.run p).2).2 = q := by
  cases hget : p.store.outputs.get? id with
  | some o' =>
    rw [stored_of_get? hget] at h
    cases h
    exact .inl ⟨rfl, rfl⟩
  | none =>
    rw [stored_of_none hget] at h
    cases h
    exact .inr ⟨rfl, rfl, rfl⟩

theorem stored_there {id : OutputId} {make : Work Output} {o : Output}
    (h : (stored id make).run p = (o, q)) (hid : (make.run p).1.id = id) :
    q.store.outputs.get? id = some o := by
  rcases stored_cases h with ⟨ho, rfl⟩ | ⟨-, rfl, rfl⟩
  · exact ho
  · exact (Table.get?_set _ _ _ _).trans (if_pos hid)

/-- A request for the output of a module under a name, in a state. -/
structure Demand where
  project : Project
  name : String
  m : Module

namespace Demand

variable (d : Demand)

/-- The modules that are asked for one after the other, each under a name. -/
inductive Visits : String → Module → Prop
  | asked : Visits d.name d.m
  | imported {importer m i target m'} : Visits importer m →
      i ∈ d.project.sources.knownImports importer m →
      Sources.target d.project.resolver importer i = .ok target →
      d.project.sources.find? ⟨target, i.pin⟩ = some m' → Visits target m'

def Resolves (importer : String) (i : Import) : Prop :=
  ∃ m, d.Visits importer m ∧ i ∈ d.project.sources.knownImports importer m

/-- Imports under one name that are called the same mean the same. -/
def Unambiguous : Prop := ∀ importer i j, d.Resolves importer i → d.Resolves importer j →
  i.specifier = j.specifier →
    Sources.target d.project.resolver importer i = Sources.target d.project.resolver importer j ∧
      i.pin = j.pin

/-- Of an import that which is to be noted is noted. -/
def Noted (p : Project) (importer : String) (i : Import) : Prop :=
  ∀ res, (d.project.reading importer i).2 = some res →
    p.store.resolutions.get? ⟨importer, i.specifier⟩ = some res

/-- Steps of a request that keep what is noted. -/
structure Holds (p q : Project) : Prop where
  late : Late p q
  noted : d.Unambiguous → ∀ importer i, d.Resolves importer i → d.Noted p importer i → d.Noted q importer i

/-- Steps that change nothing, as far as it is clear what to note. -/
structure Repeats (p q : Project) : Prop where
  still : Still p q
  store : d.Unambiguous → q.store = p.store

variable {d}

theorem Unambiguous.reading (h : d.Unambiguous) {j : Import} (hi : d.Resolves importer i)
    (hj : d.Resolves importer j) (hspecifier : i.specifier = j.specifier) :
    d.project.reading importer i = d.project.reading importer j := by
  obtain ⟨ht, hpin⟩ := h importer i j hi hj hspecifier
  rw [Project.reading, Project.reading, ht, hpin]

namespace Holds

theorem refl (p : Project) : d.Holds p p := ⟨.refl p, fun _ _ _ _ h => h⟩

theorem trans (h : d.Holds p q) (h' : d.Holds q r) : d.Holds p r :=
  ⟨h.late.trans h'.late, fun hd importer i hi hn =>
    h'.noted hd importer i hi (h.noted hd importer i hi hn)⟩

theorem of_resolutions (h : Late p q) (hq : q.store.resolutions = p.store.resolutions) : d.Holds p q :=
  ⟨h, fun _ _ _ _ hn res hres => hq ▸ hn res hres⟩

/-- What is noted at one place is the same for all imports that are noted there. -/
theorem resolved (hp : Late d.project p) (hi : d.Resolves importer i)
    (h : Reads p importer i found q) : d.Holds p q := by
  refine ⟨h.late, fun hd other j hj hn res hres => ?_⟩
  by_cases heq : (⟨importer, i.specifier⟩ : ResolutionKey) = ⟨other, j.specifier⟩
  · obtain ⟨rfl, hspecifier⟩ := ResolutionKey.mk.inj heq
    rw [← hspecifier]
    exact h.noted (by rw [hp.reading, hd.reading hi hj hspecifier, hres])
  · rw [h.others heq]
    exact hn res hres

end Holds

namespace Repeats

theorem refl (p : Project) : d.Repeats p p := ⟨.refl p, fun _ => rfl⟩

theorem trans (h : d.Repeats p q) (h' : d.Repeats q r) : d.Repeats p r :=
  ⟨h.still.trans h'.still, fun hd => (h'.store hd).trans (h.store hd)⟩

theorem cyclicImport (p : Project) (chain : List String) : d.Repeats p (p.note (.cyclicImport chain)) :=
  ⟨.cyclicImport chain, fun _ => rfl⟩

theorem holds (h : d.Repeats p q) : d.Holds p q :=
  ⟨h.still.late, fun hd _ _ _ hn res hres => h.store hd ▸ hn res hres⟩

end Repeats

/-- An import that has been resolved is resolved to the same again, and it has been noted. -/
theorem resolved_again (hp : Late d.project p) (hi : d.Resolves importer i)
    (h : Reads p importer i found q) (hq : d.Holds q p') {found' : ImportTarget}
    (h' : Reads p' importer i found' q') : found' = found ∧ d.Repeats p' q' := by
  have hsame := (h.late.trans hq.late).reading importer i
  have hown : d.Noted q importer i := fun res hres => h.noted (by rw [hp.reading, hres])
  cases h' with
  | @settles _ res hreading' =>
    cases h with
    | settles hreading =>
      obtain ⟨rfl, heq⟩ := Prod.mk.inj (hreading'.symm.trans (hsame.trans hreading))
      obtain rfl := Option.some.inj heq
      refine ⟨rfl, .settle _ _, fun hd => ?_⟩
      have hnoted := hq.noted hd importer i hi hown res (by rw [← hp.reading, hreading])
      change (if _ then _ else _ : Project).store = _
      rw [if_pos hnoted]
    | waits hreading => cases hreading'.symm.trans (hsame.trans hreading)
  | @waits target' hreading' _ ht' =>
    cases h with
    | settles hreading => cases hreading'.symm.trans (hsame.trans hreading)
    | waits hreading hwaits ht =>
      have htarget := ht'
      rw [hq.late.resolver, (Quiet.startLoad _ _ _).resolver, ht] at htarget
      obtain rfl := Except.ok.inj htarget
      -- the load was known when the import was first resolved, or it was started then
      rw [startLoad_of_known (hq.late.known (known_startLoad _ _))]
      exact ⟨rfl, .refl p'⟩

theorem run_again (hp : Late d.project p) (hi : d.Resolves importer i)
    (h : (resolveImport importer i).run p = (found, q)) (hq : d.Holds q p') :
    ∃ q', (resolveImport importer i).run p' = (found, q') ∧ d.Repeats p' q' := by
  obtain ⟨hfound, hrepeats⟩ := resolved_again hp hi (.of_run h) hq (resolveImport_reads importer i)
  exact ⟨_, Prod.ext hfound rfl, hrepeats⟩

theorem Visits.resolves (hp : Late d.project p) {name : String} {m : Module} (h : d.Visits name m) :
    ∀ i ∈ p.sources.knownImports name m, d.Resolves name i := by
  intro i hi
  rw [hp.sources] at hi
  exact ⟨m, h, hi⟩

theorem Resolves.visits (hi : d.Resolves importer i) (hp : Late d.project p) {target : String}
    {m : Module} (hr : (resolveImport importer i).run p = (.found target m, q)) : d.Visits target m := by
  have hfound := (resolveImport_resolves (p := p) importer i).found target m
  rw [hr, hp.resolver, hp.sources] at hfound
  obtain ⟨ht, hm⟩ := hfound rfl
  obtain ⟨m', hvisits, hmem⟩ := hi
  exact .imported hvisits hmem ht hm

/-- Where an output is stored, nothing else is changed but the count of runs. -/
theorem Holds.stored {id : OutputId} {make : Work Output} {o : Output}
    (h : (Project.stored id make).run p = (o, q)) (hid : (make.run p).1.id = id)
    (hmake : ∃ runs, (make.run p).2 = { p with runs }) : d.Holds p q := by
  rcases stored_cases h with ⟨-, rfl⟩ | ⟨hnone, rfl, rfl⟩
  · exact .refl p
  · obtain ⟨runs, hmake⟩ := hmake
    rw [hmake]
    refine .of_resolutions ⟨⟨rfl, rfl, rfl, fun id' o' ho => ?_, fun _ => .inl rfl⟩, fun _ _ => rfl⟩ rfl
    refine (Table.get?_set _ _ _ _).trans ((if_neg ?_).trans ho)
    rintro rfl
    rw [hid, hnone] at ho
    cases ho

theorem produce_runs (name : String) (m : Module) (outcomes : List (Import × ImportOutcome)) :
    ∃ runs, ((produce name m outcomes).run p).2 = { p with runs } := by
  change ∃ runs, (if (m.runnable outcomes).isOk then { p with runs := p.runs + 1 } else p) = _
  split <;> exact ⟨_, rfl⟩

theorem Holds.produced {name : String} {m : Module} {outcomes : List (Import × ImportOutcome)}
    {o : Output} {e : Environment} (he : p.environment = e)
    (h : (Project.stored (m.outputKey name e outcomes).id (produce name m outcomes)).run p = (o, q)) :
    d.Holds p q := by
  subst he
  exact .stored h rfl (produce_runs name m outcomes)

theorem Holds.failed {o o' : Output} {cycle : List String}
    (h : (Project.stored o.id (pure o)).run (p.note (.cyclicImport cycle)) = (o', q)) : d.Holds p q :=
  .trans (.of_resolutions (Still.cyclicImport cycle).late rfl) (.stored h rfl ⟨_, rfl⟩)

end Demand

variable {d : Demand}

open Demand

/-- What all steps of a request do to the project, as far as they are about what is asked for. -/
structure Demand.Stepwise (d : Demand) (P : Project → Project → Prop) : Prop where
  late : ∀ {p q}, P p q → Late p q
  refl : ∀ p, P p p
  trans : ∀ {p q r}, P p q → P q r → P p r
  resolved : ∀ {p q importer i found}, Late d.project p → d.Resolves importer i →
    (resolveImport importer i).run p = (found, q) → P p q
  noted : ∀ p chain, P p (p.note (.cyclicImport chain))
  stored : ∀ {p q id o} {make : Work Output}, (Project.stored id make).run p = (o, q) →
    (make.run p).1.id = id → (∃ runs, (make.run p).2 = { p with runs }) →
    d.Visits (make.run p).1.name (make.run p).1.module → P p q

mutual

theorem Gathers.stepwise {P : Project → Project → Prop} (h : d.Stepwise P) {chain : List String}
    {importer : String} {is : List Import} {p q : Project} {g : Gathered} :
    Gathers chain importer is p g q → Late d.project p → (∀ i ∈ is, d.Resolves importer i) → P p q
  | .nil, _, _ => h.refl p
  | .failed hresolve hrest, hp, his => by
    have hq := h.resolved hp (his _ mem_cons_self) hresolve
    exact h.trans hq (hrest.stepwise h (hp.trans (h.late hq)) fun j hj => his j (mem_cons_of_mem _ hj))
  | .pending hresolve hrest, hp, his => by
    have hq := h.resolved hp (his _ mem_cons_self) hresolve
    exact h.trans hq (hrest.stepwise h (hp.trans (h.late hq)) fun j hj => his j (mem_cons_of_mem _ hj))
  | .cyclic hresolve _, hp, his => h.resolved hp (his _ mem_cons_self) hresolve
  | .ready hresolve _ hanswer hrest, hp, his => by
    have hq := h.resolved hp (his _ mem_cons_self) hresolve
    have hr := h.trans hq (hanswer.stepwise h (hp.trans (h.late hq))
      ((his _ mem_cons_self).visits hp hresolve))
    exact h.trans hr (hrest.stepwise h (hp.trans (h.late hr)) fun j hj => his j (mem_cons_of_mem _ hj))
  | .waiting hresolve _ hanswer hrest, hp, his => by
    have hq := h.resolved hp (his _ mem_cons_self) hresolve
    have hr := h.trans hq (hanswer.stepwise h (hp.trans (h.late hq))
      ((his _ mem_cons_self).visits hp hresolve))
    exact h.trans hr (hrest.stepwise h (hp.trans (h.late hr)) fun j hj => his j (mem_cons_of_mem _ hj))

theorem Returns.stepwise {P : Project → Project → Prop} (h : d.Stepwise P) {chain : List String}
    {name : String} {m : Module} {p q : Project} {answer : Poll} :
    Returns chain name m p answer q → Late d.project p → d.Visits name m → P p q
  | .pending hg, hp, hm => hg.stepwise h hp (hm.resolves hp)
  | .settled hg hstored, hp, hm =>
    h.trans (hg.stepwise h hp (hm.resolves hp))
      (h.stored (hg.environment ▸ hstored) rfl (produce_runs _ _ _) hm)
  | .cyclic hg hstored, hp, hm =>
    h.trans (h.trans (hg.stepwise h hp (hm.resolves hp)) (h.noted _ _))
      (h.stored hstored rfl ⟨_, rfl⟩ hm)

end

theorem Demand.Holds.stepwise : d.Stepwise d.Holds where
  late h := h.late
  refl := .refl
  trans h h' := h.trans h'
  resolved hp hi h := .resolved hp hi (.of_run h)
  noted _ chain := .of_resolutions (Still.cyclicImport chain).late rfl
  stored h hid hmake _ := .stored h hid hmake

/-- What a request comes to know of imports stays noted, where it is clear what to note. -/
theorem Gathers.holds {chain : List String} {importer : String} {is : List Import} {p q : Project}
    {g : Gathered} (hg : Gathers chain importer is p g q) (hp : Late d.project p)
    (his : ∀ i ∈ is, d.Resolves importer i) : d.Holds p q := hg.stepwise Holds.stepwise hp his

theorem Returns.holds {chain : List String} {name : String} {m : Module} {p q : Project}
    {answer : Poll} (h : Returns chain name m p answer q) (hp : Late d.project p)
    (hm : d.Visits name m) : d.Holds p q := h.stepwise Holds.stepwise hp hm

section

variable {chain : List String} {target : String} {m : Module} {rest : List Import} {answer : Poll}
  {g g' : Gathered} {s : Project}

/-- An import that has been answered is answered the same again, and so are those behind it. -/
theorem found_again (hp : Late d.project p) (hi : d.Resolves importer i)
    (hresolve : (resolveImport importer i).run p = (.found target m, q)) (hmem : target ∉ chain)
    (hanswer : ∀ {p' answer' q'}, d.Holds r p' → Returns chain target m p' answer' q' →
      answer' = answer ∧ d.Repeats p' q')
    (hrest : ∀ {p' g' q'}, d.Holds s p' → Gathers chain importer rest p' g' q' →
      g' = g ∧ d.Repeats p' q')
    (hqr : d.Holds q r) (hrs : d.Holds r s) (hs : d.Holds s p')
    (h' : Gathers chain importer (i :: rest) p' g' q') :
    (answer = .pending ∧ g' = g.addPending ∨ ∃ o, answer = .ready o ∧ g' = g.add i (.ready o)) ∧
      d.Repeats p' q' := by
  obtain ⟨r', hresolve', hr'⟩ := run_again hp hi hresolve (hqr.trans (hrs.trans hs))
  obtain ⟨answer', s', g₁, hanswer', hrest', hg⟩ := h'.of_found hresolve' hmem
  obtain ⟨rfl, hs'⟩ := hanswer ((hrs.trans hs).trans hr'.holds) hanswer'
  obtain ⟨rfl, hrepeats⟩ := hrest (hs.trans (hr'.trans hs').holds) hrest'
  exact ⟨hg, (hr'.trans hs').trans hrepeats⟩

end

theorem Returns.gathered_as {chain : List String} {name : String} {m : Module} {answer : Poll}
    (h : Returns chain name m p' answer q') (hsources : p'.sources = p.sources) :
    ∃ g r, Gathers (chain ++ [name]) name (p.sources.knownImports name m) p' g r ∧
      Yields name m p.environment r g answer q' := by
  rw [Project.environment, ← hsources]
  exact h.gathered

mutual

/-- Imports that have been asked for come to the same when they are asked for again. -/
theorem Gathers.again {chain : List String} {importer : String} {is : List Import}
    {p q p' q' : Project} {g g' : Gathered} : Gathers chain importer is p g q → Late d.project p →
      (∀ i ∈ is, d.Resolves importer i) → d.Holds q p' → Gathers chain importer is p' g' q' →
        g' = g ∧ d.Repeats p' q'
  | .nil, _, _, _, .nil => ⟨rfl, .refl _⟩
  | .failed hresolve hrest, hp, his, hq, h' => by
    have hi := his _ mem_cons_self
    have his := fun j hj => his j (mem_cons_of_mem _ hj)
    have hp₁ := hp.trans (Reads.of_run hresolve).late
    obtain ⟨r', hresolve', hr'⟩ := run_again hp hi hresolve ((hrest.holds hp₁ his).trans hq)
    obtain ⟨g₁, rfl, hrest'⟩ := h'.of_failed hresolve'
    obtain ⟨rfl, hrepeats⟩ := hrest.again hp₁ his (hq.trans hr'.holds) hrest'
    exact ⟨rfl, hr'.trans hrepeats⟩
  | .pending hresolve hrest, hp, his, hq, h' => by
    have hi := his _ mem_cons_self
    have his := fun j hj => his j (mem_cons_of_mem _ hj)
    have hp₁ := hp.trans (Reads.of_run hresolve).late
    obtain ⟨r', hresolve', hr'⟩ := run_again hp hi hresolve ((hrest.holds hp₁ his).trans hq)
    obtain ⟨g₁, rfl, hrest'⟩ := h'.of_pending hresolve'
    obtain ⟨rfl, hrepeats⟩ := hrest.again hp₁ his (hq.trans hr'.holds) hrest'
    exact ⟨rfl, hr'.trans hrepeats⟩
  | .cyclic hresolve hmem, hp, his, hq, h' => by
    obtain ⟨r', hresolve', hr'⟩ := run_again hp (his _ mem_cons_self) hresolve hq
    obtain ⟨rfl, rfl⟩ := h'.of_mem hresolve' hmem
    exact ⟨rfl, hr'⟩
  | .ready hresolve hmem hanswer hrest, hp, his, hq, h' => by
    have hi := his _ mem_cons_self
    have his := fun j hj => his j (mem_cons_of_mem _ hj)
    have hvisits := hi.visits hp hresolve
    have hp₁ := hp.trans (Reads.of_run hresolve).late
    have hr := hanswer.holds hp₁ hvisits
    have hp₂ := hp₁.trans hr.late
    obtain ⟨⟨hpending, -⟩ | ⟨o, ho, hg⟩, hrepeats⟩ := found_again hp hi hresolve hmem
      (hanswer.again hp₁ hvisits) (hrest.again hp₂ his) hr (hrest.holds hp₂ his) hq h'
    · cases hpending
    · cases ho
      exact ⟨hg, hrepeats⟩
  | .waiting hresolve hmem hanswer hrest, hp, his, hq, h' => by
    have hi := his _ mem_cons_self
    have his := fun j hj => his j (mem_cons_of_mem _ hj)
    have hvisits := hi.visits hp hresolve
    have hp₁ := hp.trans (Reads.of_run hresolve).late
    have hr := hanswer.holds hp₁ hvisits
    have hp₂ := hp₁.trans hr.late
    obtain ⟨⟨-, hg⟩ | ⟨o, ho, -⟩, hrepeats⟩ := found_again hp hi hresolve hmem
      (hanswer.again hp₁ hvisits) (hrest.again hp₂ his) hr (hrest.holds hp₂ his) hq h'
    · exact ⟨hg, hrepeats⟩
    · cases ho

theorem Returns.again {chain : List String} {name : String} {m : Module} {p q p' q' : Project}
    {answer answer' : Poll} : Returns chain name m p answer q → Late d.project p → d.Visits name m →
      d.Holds q p' → Returns chain name m p' answer' q' → answer' = answer ∧ d.Repeats p' q'
  | .pending hg, hp, hm, hq, h' => by
    have hheld := hg.holds hp (hm.resolves hp)
    obtain ⟨g', r', hg', hyields⟩ := h'.gathered_as (hheld.trans hq).late.sources
    obtain ⟨rfl, hrepeats⟩ := hg.again hp (hm.resolves hp) hq hg'
    obtain ⟨rfl, rfl⟩ := hyields
    exact ⟨rfl, hrepeats⟩
  | .settled hg hstored, hp, hm, hq, h' => by
    have ho := stored_there hstored (by rw [produce_id, hg.environment])
    have hkept := (Holds.produced hg.environment hstored).trans hq
    have hp' := (hg.holds hp (hm.resolves hp)).trans hkept
    obtain ⟨g', r', hg', hyields⟩ := h'.gathered_as hp'.late.sources
    obtain ⟨rfl, hrepeats⟩ := hg.again hp (hm.resolves hp) hkept hg'
    obtain ⟨o', rfl, hstored'⟩ := hyields
    rw [stored_of_get? ((hq.trans hrepeats.holds).late.outputs _ _ ho)] at hstored'
    obtain ⟨rfl, rfl⟩ := Prod.mk.inj hstored'
    exact ⟨rfl, hrepeats⟩
  | @Returns.cyclic _ _ _ _ _ i cycle _ _ hg hstored, hp, hm, hq, h' => by
    have ho := stored_there hstored rfl
    have hkept := (Holds.failed hstored).trans hq
    have hp' := (hg.holds hp (hm.resolves hp)).trans hkept
    obtain ⟨g', r', hg', hyields⟩ := h'.gathered_as hp'.late.sources
    obtain ⟨rfl, hrepeats⟩ := hg.again hp (hm.resolves hp) hkept hg'
    obtain ⟨o', rfl, hstored'⟩ := hyields
    have hnoted := hrepeats.trans (.cyclicImport r' cycle)
    rw [stored_of_get? ((hq.trans hnoted.holds).late.outputs _ _ ho)] at hstored'
    obtain ⟨rfl, rfl⟩ := Prod.mk.inj hstored'
    exact ⟨rfl, hnoted⟩

end

theorem Returns.stored {chain : List String} {name : String} {m : Module} {o : Output}
    (h : Returns chain name m p (.ready o) q) : ∃ id, q.store.outputs.get? id = some o := by
  cases h with
  | settled hg hstored =>
    exact ⟨_, stored_there hstored (by rw [produce_id, hg.environment])⟩
  | cyclic hg hstored => exact ⟨_, stored_there hstored rfl⟩

/-- What is answered is there, and is answered again. Nothing is changed by that but what is noted of
imports; and where it is clear what to note, this is not changed either. -/
theorem poll_again (environment : Environment) (limits : Limits) (resolver : Option Resolver)
    (actions : List Action) {name : String} {o : Output} :
    let p := (start environment limits resolver).perform actions
    (poll name).run p = (.ok (.ready o), q) →
      q.store.outputs.get? o.id = some o ∧
      ∃ r, (poll name).run q = (.ok (.ready o), r) ∧ Still q r ∧
        ((∀ m, p.sources.headModule? name = some m → (⟨p, name, m⟩ : Demand).Unambiguous) →
          r.store = q.store) := by
  intro p hpoll
  cases hm : p.sources.headModule? name with
  | none =>
    rw [poll_of_none hm] at hpoll
    cases hpoll
  | some m =>
    obtain ⟨answer, q₁, hpoll₁, hreturns⟩ := poll_returns hm
    obtain ⟨heq, rfl⟩ := Prod.mk.inj (hpoll₁.symm.trans hpoll)
    obtain rfl := Except.ok.inj heq
    have hfiled : Filed ((poll name).run p).2 :=
      Filed.preserved.poll name (Filed.perform (p := start environment limits resolver) nofun actions)
    rw [hpoll] at hfiled
    obtain ⟨id, ho⟩ := hreturns.stored
    obtain rfl : o.id = id := hfiled _ (Table.mem_of_get? ho)
    refine ⟨ho, ?_⟩
    have hholds : (⟨p, name, m⟩ : Demand).Holds p q₁ := hreturns.holds (.refl p) .asked
    obtain ⟨answer, r, hagain, hreturns'⟩ := poll_returns (hholds.late.sources.symm ▸ hm)
    obtain ⟨rfl, hrepeats⟩ := hreturns.again (d := ⟨p, name, m⟩) (.refl p) .asked (.refl q₁) hreturns'
    exact ⟨r, hagain, hrepeats.still, fun hd => hrepeats.store (hd m rfl)⟩

/-- Without pins, imports that are called the same mean the same where specifiers are names of modules. -/
theorem Demand.unambiguous (hpins : d.project.sources.pins = [])
    (ht : ∀ importer i, Sources.target d.project.resolver importer i = .ok i.specifier) :
    d.Unambiguous := by
  rintro importer i j ⟨m, -, hi⟩ ⟨m', -, hj⟩ hspecifier
  rw [ht, ht, hspecifier, Sources.pin_of_mem_knownImports hpins hi, Sources.pin_of_mem_knownImports hpins hj]
  exact ⟨rfl, rfl⟩

namespace Repetition

def isReady : Except GraphError Poll → Bool
  | .ok (.ready _) => true
  | _ => false

/-- A module that imports what could not be loaded, what has not been loaded, and itself. -/
def waiting : List Action :=
  [.setSource "main" "import \"gone\" as g\nimport \"late\" as l\nimport \"main\" as m",
   .startLoad ⟨"gone", none⟩, .finishLoad ⟨"gone", none⟩ (.error (.notFound "gone"))]

set_option maxRecDepth 100000 in
theorem poll_again_waiting :
    let p := (start .default .default (some .byName)).perform waiting
    ∃ o q, (poll "main").run p = (.ok (.ready o), q) ∧ q.inFlight = [⟨"late", none⟩] ∧
      q.store.outputs.get? o.id = some o ∧
      ∃ r, (poll "main").run q = (.ok (.ready o), r) ∧ Still q r ∧ r.store = q.store := by
  intro p
  have hrun : isReady ((poll "main").run p).1 ∧
      ((poll "main").run p).2.inFlight = [⟨"late", none⟩] := by
    decide +kernel
  have hresolver : p.resolver = some .byName := perform_resolver _ waiting
  obtain ⟨hready, hflight⟩ := hrun
  generalize hpoll : (poll "main").run p = polled at hready hflight
  obtain ⟨_ | _ | _, q⟩ := polled
  · cases hready
  · next o =>
    obtain ⟨ho, r, hr, hstill, hstore⟩ := poll_again .default .default (some .byName) waiting hpoll
    refine ⟨o, q, rfl, hflight, ho, r, hr, hstill, hstore fun m _ => Demand.unambiguous rfl ?_⟩
    intro importer i
    change Sources.target p.resolver importer i = _
    rw [hresolver]
    unfold Sources.target
    cases i.form <;> rfl
  · cases hready

/-- A module that imports a path, and goes on from a module that is named like this path. Both cannot be
loaded. -/
def divided : List Action :=
  [.setSource "main" "import \"./lib\" as lib", .setContinues "main" ["./lib"], .poll "main",
   .finishLoad ⟨"./lib", none⟩ (.error (.notFound "./lib")),
   .finishLoad ⟨"lib.gauge", none⟩ (.error (.notFound "lib.gauge"))]

/-- How often the state was changed before, by a request, and by the same one again; and whether both are
answered. -/
def changes (p : Project) : List Nat × Bool :=
  let (first, q) := (poll "main").run p
  let (second, r) := (poll "main").run q
  ([p.store.version, q.store.version, r.store.version], isReady first && isReady second)

set_option maxRecDepth 100000 in
/-- What is noted of the one import is noted instead of that of the other one, each time. -/
theorem poll_changes_divided :
    changes ((start .default .default (some .byPath)).perform divided) = ([6, 9, 11], true) := by
  decide +kernel

end Repetition

end Project

end Estimation
