import Estimation.Proofs.Actions
import Estimation.Proofs.Returning

/-!
What outputs are made of: a version that the project knows, and outputs that are made in the same way.
That holds whatever is done to the project, for a version once known stays known.
-/

namespace Estimation

open List

namespace Sources

variable {s : Sources} {m : Module}

def Knows (s : Sources) (m : Module) : Prop := ∃ hash, s.modules.get? hash = some m

theorem knows_of_headModule? {name : String} (h : s.headModule? name = some m) : s.Knows m :=
  (Option.bind_eq_some_iff.1 h).imp fun _ => And.right

theorem knows_of_find? {key : LoadKey} (h : s.find? key = some m) : s.Knows m := by
  rw [find?] at h
  split at h
  · exact ⟨_, h⟩
  · exact knows_of_headModule? h

end Sources

/-- Outputs of modules of a kind, made of such outputs of the imports. -/
inductive Output.Made (K : Module → Prop) : Output → Prop
  | run {sources : Sources} {name m run outcomes} : K m →
      outcomes.map Prod.fst = sources.knownImports name m →
      (∀ i o, (i, .ready o) ∈ outcomes → Made K o) → Made K (.make name m run outcomes)
  | cyclic {name m e i chain} : K m → Made K (.cyclic name m e i (.graph (.cycle chain)))

theorem Output.Made.mono {K L : Module → Prop} {o : Output} (h : o.Made K) (hKL : ∀ m, K m → L m) :
    o.Made L := by
  induction h with
  | run hm himports _ ih => exact .run (hKL _ hm) himports ih
  | cyclic hm => exact .cyclic (hKL _ hm)

/-- What became of imports, once that is known: the ready ones have outputs of modules of a kind. -/
def Gathered.Made (K : Module → Prop) (is : List Import) (g : Gathered) : Prop :=
  ∀ outcomes, g = .settled outcomes → outcomes.map Prod.fst = is ∧
    ∀ i o, (i, .ready o) ∈ outcomes → o.Made K

theorem Gathered.Made.add {K : Module → Prop} {i : Import} {is : List Import} {g : Gathered}
    {outcome : ImportOutcome} (h : g.Made K is) (houtcome : ∀ o, outcome = .ready o → o.Made K) :
    (g.add i outcome).Made K (i :: is) := by
  intro outcomes hg
  obtain ⟨others, hothers, rfl⟩ := Project.settled_of_add hg
  obtain ⟨hfst, hready⟩ := h others hothers
  refine ⟨congrArg (i :: ·) hfst, fun j o ho => ?_⟩
  rcases mem_cons.1 ho with heq | ho
  · cases heq
    exact houtcome o rfl
  · exact hready j o ho

namespace Project

variable {p q : Project} {name importer : String} {m : Module}

/-- What is there is made of known versions. -/
def Traceable (p : Project) : Prop := ∀ e ∈ p.store.outputs, e.2.Made p.sources.Knows

namespace Traceable

theorem transfer (h : Traceable p) (hsources : q.sources = p.sources)
    (houtputs : q.store.outputs = p.store.outputs) : Traceable q := by
  rw [Traceable, hsources, houtputs]
  exact h

theorem quiet (h : Traceable p) (hq : Quiet p q) : Traceable q := h.transfer hq.sources hq.outputs

theorem commit (h : Traceable p) {o : Output} (ho : o.Made p.sources.Knows) :
    Traceable ((Project.commit o).run p).2 := by
  intro e he
  rcases Table.mem_set he with rfl | he
  · exact ho
  · exact h e he

theorem stored (h : Traceable p) {id : OutputId} {make : Work Output} {o : Output}
    (hstored : (Project.stored id make).run p = (o, q))
    (hmake : (make.run p).1.Made p.sources.Knows) (hsources : (make.run p).2.sources = p.sources)
    (houtputs : (make.run p).2.store.outputs = p.store.outputs) :
    o.Made p.sources.Knows ∧ Traceable q ∧ q.sources = p.sources := by
  cases ho : p.store.outputs.get? id with
  | some old =>
    cases (stored_of_get? ho).symm.trans hstored
    exact ⟨h _ (Table.mem_of_get? ho), h, rfl⟩
  | none =>
    cases (stored_of_none ho).symm.trans hstored
    exact ⟨hmake, (h.transfer hsources houtputs).commit (hsources ▸ hmake), hsources⟩

theorem produced (h : Traceable p) (hm : p.sources.Knows m) {sources : Sources}
    {outcomes : List (Import × ImportOutcome)}
    (himports : outcomes.map Prod.fst = sources.knownImports name m)
    (hready : ∀ i o, (i, .ready o) ∈ outcomes → o.Made p.sources.Knows) {id : OutputId} {o : Output}
    (hstored : (Project.stored id (produce name m outcomes)).run p = (o, q)) :
    o.Made p.sources.Knows ∧ Traceable q ∧ q.sources = p.sources := by
  have hsame : ((produce name m outcomes).run p).2.store = p.store := by
    change (if _ then _ else p : Project).store = _
    split <;> rfl
  exact h.stored hstored (.run hm himports hready) (congrArg Store.sources hsame)
    (congrArg Store.outputs hsame)

theorem resolved (h : Traceable p) {i : Import} {target : ImportTarget}
    (hresolve : (resolveImport importer i).run p = (target, q)) :
    Traceable q ∧ q.sources = p.sources ∧ ∀ name m, target = .found name m → p.sources.Knows m := by
  obtain ⟨hquiet, hfound, -, -, -⟩ := resolveImport_resolves (p := p) importer i
  rw [hresolve] at hquiet hfound
  exact ⟨h.quiet hquiet, hquiet.sources, fun name m ht => Sources.knows_of_find? (hfound name m ht).2⟩

end Traceable

mutual

theorem Gathers.made {chain : List String} {importer : String} {is : List Import} {p q : Project}
    {g : Gathered} : Gathers chain importer is p g q → Traceable p →
      Traceable q ∧ q.sources = p.sources ∧ g.Made p.sources.Knows is
  | .nil, hp => ⟨hp, rfl, fun _ hg => by
    cases hg
    exact ⟨rfl, fun _ _ ho => absurd ho not_mem_nil⟩⟩
  | .failed hresolve hrest, hp => by
    obtain ⟨hr, hsources, -⟩ := hp.resolved hresolve
    rw [← hsources]
    obtain ⟨hq, hsame, hmade⟩ := hrest.made hr
    exact ⟨hq, hsame, hmade.add nofun⟩
  | .pending hresolve hrest, hp => by
    obtain ⟨hr, hsources, -⟩ := hp.resolved hresolve
    rw [← hsources]
    obtain ⟨hq, hsame, -⟩ := hrest.made hr
    exact ⟨hq, hsame, fun _ hg => absurd hg addPending_ne_settled⟩
  | .cyclic hresolve _, hp => by
    obtain ⟨hq, hsources, -⟩ := hp.resolved hresolve
    exact ⟨hq, hsources, nofun⟩
  | .ready hresolve _ hanswer hrest, hp => by
    obtain ⟨hr, hsources, hfound⟩ := hp.resolved hresolve
    rw [← hsources] at hfound ⊢
    obtain ⟨hr', hsources', hready⟩ := hanswer.made hr (hfound _ _ rfl)
    rw [← hsources'] at hready ⊢
    obtain ⟨hq, hsame, hmade⟩ := hrest.made hr'
    refine ⟨hq, hsame, hmade.add fun o ho => ?_⟩
    cases ho
    exact hready _ rfl
  | .waiting hresolve _ hanswer hrest, hp => by
    obtain ⟨hr, hsources, hfound⟩ := hp.resolved hresolve
    rw [← hsources] at hfound ⊢
    obtain ⟨hr', hsources', -⟩ := hanswer.made hr (hfound _ _ rfl)
    rw [← hsources']
    obtain ⟨hq, hsame, -⟩ := hrest.made hr'
    exact ⟨hq, hsame, fun _ hg => absurd hg addPending_ne_settled⟩

theorem Returns.made {chain : List String} {name : String} {m : Module} {p q : Project}
    {answer : Poll} : Returns chain name m p answer q → Traceable p → p.sources.Knows m →
      Traceable q ∧ q.sources = p.sources ∧ ∀ o, answer = .ready o → o.Made p.sources.Knows
  | .pending hgathers, hp, _ => by
    obtain ⟨hq, hsources, -⟩ := hgathers.made hp
    exact ⟨hq, hsources, nofun⟩
  | .settled hgathers hstored, hp, hm => by
    obtain ⟨hr, hsources, hmade⟩ := hgathers.made hp
    obtain ⟨himports, hready⟩ := hmade _ rfl
    rw [← hsources] at hm hready ⊢
    obtain ⟨hmade, hq, hsame⟩ := hr.produced hm himports hready hstored
    refine ⟨hq, hsame, fun o' ho => ?_⟩
    cases ho
    exact hmade
  | @Returns.cyclic _ name m _ r i cycle _ _ hgathers hstored, hp, hm => by
    obtain ⟨hr, hsources, -⟩ := hgathers.made hp
    have hcyclic : (Output.cyclic name m p.environment i (.graph (.cycle cycle))).Made
      (r.note (.cyclicImport cycle)).sources.Knows := .cyclic (hsources ▸ hm)
    have hnoted : (r.note (.cyclicImport cycle)).Traceable := hr
    rw [← hsources]
    obtain ⟨hmade, hq, hsame⟩ := hnoted.stored hstored hcyclic rfl rfl
    refine ⟨hq, hsame, fun o' ho => ?_⟩
    cases ho
    exact hmade

end

/-- A request is answered with what is made of known versions. -/
theorem poll_made (h : Traceable p) (name : String) : Traceable ((poll name).run p).2 ∧
    ∀ o, ((poll name).run p).1 = .ok (.ready o) → o.Made p.sources.Knows := by
  cases hm : p.sources.headModule? name with
  | none =>
    rw [poll_of_none hm]
    exact ⟨h, nofun⟩
  | some m =>
    obtain ⟨answer, q, hpoll, hreturns⟩ := poll_returns hm
    obtain ⟨hq, -, hmade⟩ := hreturns.made h (Sources.knows_of_headModule? hm)
    rw [hpoll]
    refine ⟨hq, fun o ho => hmade o ?_⟩
    cases ho
    rfl

namespace Traceable

theorem act (h : Traceable p) (a : Action) : Traceable (p.act a) := by
  have hrest : (∀ name, a ≠ .poll name) → Traceable (p.act a) := fun ha e he =>
    (h e (mem_outputs_of_act ha he)).mono fun m ⟨hash, hm⟩ => ⟨hash, get?_modules_act hm a⟩
  cases a with
  | poll name => exact (poll_made h name).1
  | _ => exact hrest fun _ => nofun

theorem perform (h : Traceable p) (actions : List Action) : Traceable (p.perform actions) := by
  induction actions generalizing p with
  | nil => exact h
  | cons a actions ih => exact ih (h.act a)

end Traceable

theorem traceable_start (environment : Environment) (limits : Limits) (resolver : Option Resolver) :
    Traceable (start environment limits resolver) := nofun

end Project

end Estimation
