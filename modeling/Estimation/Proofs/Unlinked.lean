import Estimation.Proofs.Invalidation
import Estimation.Proofs.Returning
import Estimation.Proofs.Standing

/-!
Projects that load nothing. There an import fails only where its name stands for nothing, and then it
still does, since an edit drops what depends on the name; and a request waits for nothing.
-/

namespace Estimation

open List

/-- Everything that may happen to a project whose imports are neither pinned nor loaded, while no
output is cleaned away from below others. -/
inductive LocalHistory : List Hashed → Project → Prop
  | start (environment limits) : LocalHistory [] (Project.start environment limits none)
  | setSource {l p} (name code) : LocalHistory l p →
      LocalHistory (l ++ [.code code]) (p.setSource name code)
  | removeSource {l p} (name) : LocalHistory l p → LocalHistory l (p.removeSource name)
  | moveHead {l p p' name hash} : LocalHistory l p → p.moveHead name hash = .ok p' →
      LocalHistory l p'
  | setContinues {l p} (name names) : LocalHistory l p → LocalHistory l (p.setContinues name names)
  | setEnvironment {l p} (e) : LocalHistory l p → LocalHistory l (p.setEnvironment e)
  | clean {l p name} : LocalHistory l p → p.Removable name → LocalHistory l (p.clean name)
  | cleanAll {l p} : LocalHistory l p → LocalHistory l p.cleanAll
  | poll {l p} (name) : LocalHistory l p →
      LocalHistory (l ++ Project.pollHashes name p) ((Project.poll name).run p).2

theorem LocalHistory.history {l : List Hashed} {p : Project} (h : LocalHistory l p) :
    History True l p := by
  induction h with
  | start environment limits => exact .start environment limits none
  | setSource name code _ ih => exact ih.setSource name code
  | removeSource name _ ih => exact ih.removeSource name
  | moveHead _ hmove ih => exact ih.moveHead hmove
  | setContinues name names _ ih => exact ih.setContinues name names
  | setEnvironment e _ ih => exact ih.setEnvironment e
  | clean _ hclean ih => exact ih.clean fun _ => hclean
  | cleanAll _ ih => exact ih.cleanAll
  | poll name _ ih => exact ih.poll name

theorem Sources.target_none (importer : String) (i : Import) :
    target none importer i = .ok i.specifier := by
  rw [target]
  nofun

/-- A name depends on what its imports are called. -/
theorem Sources.dependencies_none (s : Sources) {name : String} {m : Module}
    (hm : s.headModule? name = some m) :
    s.dependencies none name = ((s.knownImports name m).map Import.specifier).eraseDups := by
  rw [dependencies, hm]
  dsimp only
  rw [← filterMap_eq_map]
  congr 2
  funext i
  rw [target_none]
  rfl

/-- Imports fail where their names stand for nothing. -/
def Regime.unlinked (hashed : Hashed → Prop) : Regime where
  coherent := True
  hashed := hashed
  given _ := False
  failed s _ i e := s.headModule? i.specifier = none ∧ e = .notFound i.specifier
  first := 0

namespace Project

variable {hashed : Hashed → Prop} {p q : Project} {name : String}

/-- Nothing is loaded, nor can it be. -/
structure Idle (p : Project) : Prop where
  resolver : p.resolver = none
  loads : p.store.loads = []
  inFlight : p.inFlight = []

namespace Idle

theorem resolve (h : Idle p) (importer : String) (i : Import) :
    Idle ((resolveImport importer i).run p).2 ∧ ((resolveImport importer i).run p).1 ≠ .pending := by
  obtain ⟨hquiet, -, -, hflight, hpending⟩ := resolveImport_resolves (p := p) importer i
  constructor
  · cases hquiet.loads with
    | none hloads hin =>
      exact ⟨hquiet.resolver.trans h.resolver, hloads.trans h.loads, hin.trans h.inFlight⟩
    | @load key _ _ _ hin =>
      have hkey := hflight key (by simp [hin])
      rw [h.inFlight, h.resolver] at hkey
      simp at hkey
  · intro hp
    obtain ⟨target, -, ht⟩ := hpending hp
    rw [h.loads, h.resolver] at ht
    simp [Table.get?] at ht

theorem preserved : Preserved Idle where
  resolve importer i _ _ h := (h.resolve importer i).1
  note _ _ h := ⟨h.resolver, h.loads, h.inFlight⟩
  run _ h := ⟨h.resolver, h.loads, h.inFlight⟩
  commit _ _ _ h := ⟨h.resolver, h.loads, h.inFlight⟩

theorem fails (h : Idle p) {importer : String} {i : Import} {e : LinkError}
    (hf : p.Fails importer i e) : (Regime.unlinked hashed).failed p.sources importer i e := by
  cases hf with
  | unresolved ht =>
    rw [h.resolver, Sources.target_none] at ht
    cases ht
  | missing ht hm he =>
    rw [h.resolver, Sources.target_none] at ht
    cases ht
    rw [h.loads] at he
    rcases he with he | ⟨-, -, rfl⟩
    · cases he
    · exact ⟨hm, rfl⟩

end Idle

theorem add_ne_pending {g : Gathered} (h : g ≠ .pending) (i : Import) (x : ImportOutcome) :
    g.add i x ≠ .pending := by
  cases g with
  | pending => exact absurd rfl h
  | settled _ => exact nofun
  | cyclic _ _ => exact nofun

theorem Idle.resolved (h : Idle p) {importer : String} {i : Import} {target : ImportTarget}
    (hq : (resolveImport importer i).run p = (target, q)) : q.Idle ∧ target ≠ .pending := by
  have hresolve := h.resolve importer i
  rwa [hq] at hresolve

theorem Idle.stored (h : Idle p) {id : OutputId} {make : Work Output} {o : Output}
    (hq : (stored id make).run p = (o, q)) (hmake : (make.run p).2.Idle) : q.Idle := by
  cases ho : p.store.outputs.get? id with
  | some o' =>
    rw [stored_of_get? ho] at hq
    cases hq
    exact h
  | none =>
    rw [stored_of_none ho] at hq
    cases hq
    exact ⟨hmake.resolver, hmake.loads, hmake.inFlight⟩

theorem Idle.produce (h : Idle p) {m : Module} {outcomes : List (Import × ImportOutcome)} :
    ((produce name m outcomes).run p).2.Idle := by
  change Idle (if (m.runnable outcomes).isOk then { p with runs := p.runs + 1 } else p)
  split
  · exact ⟨h.resolver, h.loads, h.inFlight⟩
  · exact h

mutual

theorem Gathers.idle {chain : List String} {importer : String} {is : List Import} {p q : Project}
    {g : Gathered} : Gathers chain importer is p g q → p.Idle → q.Idle ∧ g ≠ .pending
  | .nil, hp => ⟨hp, nofun⟩
  | .failed hresolve hrest, hp =>
    have hrest := hrest.idle (hp.resolved hresolve).1
    ⟨hrest.1, add_ne_pending hrest.2 _ _⟩
  | .pending hresolve _, hp => absurd rfl (hp.resolved hresolve).2
  | .cyclic hresolve _, hp => ⟨(hp.resolved hresolve).1, nofun⟩
  | .ready hresolve _ hready hrest, hp =>
    have hready := hready.idle (hp.resolved hresolve).1
    have hrest := hrest.idle hready.1
    ⟨hrest.1, add_ne_pending hrest.2 _ _⟩
  | .waiting hresolve _ hwaiting _, hp =>
    absurd rfl (hwaiting.idle (hp.resolved hresolve).1).2

theorem Returns.idle {chain : List String} {name : String} {m : Module} {p q : Project}
    {answer : Poll} : Returns chain name m p answer q → p.Idle → q.Idle ∧ answer ≠ .pending
  | .pending hgathers, hp => absurd rfl (hgathers.idle hp).2
  | .settled hgathers hstored, hp =>
    ⟨(hgathers.idle hp).1.stored hstored (hgathers.idle hp).1.produce, nofun⟩
  | .cyclic hgathers hstored, hp =>
    have hq : ∀ entry, Idle (note _ entry) := fun entry =>
      Idle.preserved.note entry _ (hgathers.idle hp).1
    ⟨Idle.stored (hq _) hstored (hq _), nofun⟩

end

/-- A request is answered at once. -/
theorem Idle.poll_ready (h : Idle p) {m : Module} (hm : p.sources.headModule? name = some m) :
    ∃ o q, (poll name).run p = (.ok (.ready o), q) := by
  obtain ⟨answer, q, hpoll, hreturns⟩ := poll_returns hm
  cases answer with
  | ready o => exact ⟨o, q, hpoll⟩
  | pending => exact absurd rfl (hreturns.idle h).2

/-- What stood for nothing still does, unless an event touches it. -/
theorem Touches.headModule?_none {event : Event} {s : Sources} (h : Touches event name s)
    (hknown : ∀ n hash, s.heads.get? n = some hash → (s.modules.get? hash).isSome) {n : String}
    (hn : n ≠ name) (hm : s.headModule? n = none) : (event.onSources s).headModule? n = none := by
  have hhead : s.heads.get? n = none := by
    cases hget : s.heads.get? n with
    | none => rfl
    | some hash =>
      obtain ⟨m, hmodule⟩ := Option.isSome_iff_exists.1 (hknown n hash hget)
      have hsome : s.headModule? n = some m :=
        Option.bind_eq_some_iff.2 ⟨hash, hget, hmodule⟩
      rw [hm] at hsome
      cases hsome
  exact Option.bind_eq_none_iff.2 fun hash hget => by
    have hget : Bindings.get? n (event.onHeads s.heads) = some hash := hget
    rw [h.heads n hn, hhead] at hget
    cases hget

theorem Touches.accounts {event : Event} (h : Touches event name p.sources) (hp : p.Standing)
    (hidle : p.Idle) (hq : q.Idle) (hsources : q.sources = event.onSources p.sources) :
    Accounts (.unlinked hashed) (p.affectedBy name) p q where
  fails _ _ _ hf := hq.fails hf
  still n m i e hn hm hi hf := by
    obtain ⟨hnone, he⟩ := hf
    refine ⟨?_, he⟩
    have hdepends : p.sources.DependsOn p.resolver n i.specifier :=
      ⟨m, hm, i, hi, hidle.resolver ▸ Sources.target_none n i⟩
    rw [hsources]
    refine h.headModule?_none hp.known ?_ hnone
    rintro rfl
    exact hn (closed_affectedBy p _ _ _ hdepends (mem_append_right _ (mem_singleton.2 rfl)))

theorem Idle.accounts {names : List String} (hq : q.Idle) (hsources : ∀ n,
    q.sources.headModule? n = p.sources.headModule? n) :
    Accounts (.unlinked hashed) names p q where
  fails _ _ _ hf := hq.fails hf
  still _ _ _ _ _ _ _ hf := ⟨(hsources _).trans hf.1, hf.2⟩

end Project

open Project

namespace LocalHistory

variable {l : List Hashed} {p : Project}

theorem idle (h : LocalHistory l p) : p.Idle := by
  induction h with
  | start environment limits => exact ⟨rfl, rfl, rfl⟩
  | setSource name code _ ih =>
    refine ⟨ih.resolver, ?_, ih.inFlight⟩
    change filter _ _ = []
    rw [ih.loads]
    rfl
  | removeSource name _ ih => exact ⟨ih.resolver, ih.loads, ih.inFlight⟩
  | moveHead _ hmove ih =>
    rw [Project.moveHead] at hmove
    split at hmove <;> cases hmove
    exact ⟨ih.resolver, ih.loads, ih.inFlight⟩
  | setContinues name names _ ih => exact ⟨ih.resolver, ih.loads, ih.inFlight⟩
  | setEnvironment e _ ih => exact ⟨ih.resolver, ih.loads, ih.inFlight⟩
  | clean _ _ ih => exact ⟨ih.resolver, ih.loads, ih.inFlight⟩
  | cleanAll _ ih => exact ⟨ih.resolver, ih.loads, ih.inFlight⟩
  | poll name _ ih => exact Idle.preserved.poll name ih

theorem kept (h : LocalHistory l p) (hashed : Hashed → Prop) (hl : ∀ x ∈ l, hashed x)
    (hinj : Set.InjOn OutputKey.id {k | hashed (.key k)}) : p.Kept (.unlinked hashed) := by
  induction h with
  | start environment limits =>
    refine ⟨fun _ => none, rfl, nofun, nofun, nofun, fun importer i e hf => ?_, Nat.le_refl _, nofun,
      nofun⟩
    exact Idle.fails ⟨rfl, rfl, rfl⟩ hf
  | @setSource l p name code h ih =>
    obtain ⟨origins, hp⟩ := ih fun x hx => hl x (mem_append_left _ hx)
    have hq := (h.setSource name code).idle
    refine ⟨origins, (edits_setSource p name code).kept (closed_affectedBy p name)
      (fun hash m hm => ?_)
      ((Touches.sourceSet name _ _).accounts h.history.standing h.idle hq rfl) hp⟩
    rcases Table.of_get?_setNew hm with rfl | hm
    · exact hl _ (mem_append_right _ (mem_singleton.2 rfl))
    · exact hp.code hash m hm
  | @removeSource l p name h ih =>
    obtain ⟨origins, hp⟩ := ih hl
    have hq := (h.removeSource name).idle
    exact ⟨origins, (edits_removeSource p name).kept (closed_affectedBy p name) hp.code
      ((Touches.sourceRemoved name _).accounts h.history.standing h.idle hq rfl) hp⟩
  | @moveHead l p q name hash h hmove ih =>
    obtain ⟨origins, hp⟩ := ih hl
    have hq := (h.moveHead hmove).idle
    have hedits := edits_moveHead hmove
    rw [Project.moveHead] at hmove
    split at hmove <;> cases hmove
    exact ⟨origins, hedits.kept (closed_affectedBy p name) hp.code
      ((Touches.headMoved name hash _).accounts h.history.standing h.idle hq rfl) hp⟩
  | @setContinues l p name names h ih =>
    obtain ⟨origins, hp⟩ := ih hl
    have hq := (h.setContinues name names).idle
    exact ⟨origins, (edits_setContinues p name names).kept (closed_affectedBy p name) hp.code
      ((Touches.continuesSet name names _).accounts h.history.standing h.idle hq rfl) hp⟩
  | @setEnvironment l p e h ih =>
    obtain ⟨origins, hp⟩ := ih hl
    exact ⟨origins, (edits_setEnvironment p e).kept (closed_nil p) hp.code
      ((h.setEnvironment e).idle.accounts fun _ => rfl) hp⟩
  | clean h hclean ih =>
    obtain ⟨origins, hp⟩ := ih hl
    exact ⟨origins, hp.clean fun _ => hclean⟩
  | @cleanAll l p h ih =>
    obtain ⟨origins, hp⟩ := ih hl
    exact ⟨origins, (edits_cleanAll p).kept (closed_names p) hp.code
      (h.cleanAll.idle.accounts fun _ => rfl) hp⟩
  | poll name h ih =>
    exact (poll_sound hinj (ih fun x hx => hl x (mem_append_left _ hx)) fun x hx =>
      hl x (mem_append_right _ hx)).1

end LocalHistory

end Estimation
