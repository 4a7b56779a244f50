import Estimation.Project.Computation
import Estimation.Proofs.Graph
import Estimation.Proofs.Tables

/-!
How a request goes: imports one after the other, the first that leads back or is not there deciding
what comes of them, and then an output that is made only if it is not there. Steps of a request only
add outputs and what is known of imports.
-/

namespace Estimation

open List

namespace Project

variable {p q r : Project} {name : String} {m : Module} {o : Output} {id : OutputId}

theorem gather_cons (answer : List String → String → Module → Work Poll) (chain : List String)
    (importer : String) (i : Import) (rest : List Import) :
    (gather answer chain importer (i :: rest)).run p =
      match (resolveImport importer i).run p with
      | (.failed e, q) =>
        let r := (gather answer chain importer rest).run q
        (r.1.add i (.failed e), r.2)
      | (.pending, q) =>
        let r := (gather answer chain importer rest).run q
        (r.1.addPending, r.2)
      | (.found target m, q) =>
        if target ∈ chain then (.cyclic i (Graph.cycle chain target), q)
        else
          match (answer chain target m).run q with
          | (.ready o, q) =>
            let r := (gather answer chain importer rest).run q
            (r.1.add i (.ready o), r.2)
          | (.pending, q) =>
            let r := (gather answer chain importer rest).run q
            (r.1.addPending, r.2) := by
  rw [gather, StateT.run_bind]
  generalize (resolveImport importer i).run p = resolved
  obtain ⟨target | _ | _, q⟩ := resolved
  · change StateT.run (if _ then _ else _) q = _
    dsimp only
    split
    · rfl
    · rw [StateT.run_bind]
      generalize StateT.run (answer _ _ _) q = answered
      obtain ⟨_ | _, q⟩ := answered <;> rfl
  · rfl
  · rfl

theorem settled_of_add {i : Import} {outcome : ImportOutcome} {g : Gathered}
    {outcomes : List (Import × ImportOutcome)} (h : g.add i outcome = .settled outcomes) :
    ∃ rest, g = .settled rest ∧ outcomes = (i, outcome) :: rest := by
  cases g <;> cases h
  exact ⟨_, rfl, rfl⟩

theorem addPending_ne_settled {g : Gathered} {outcomes : List (Import × ImportOutcome)} :
    g.addPending ≠ .settled outcomes := by
  cases g <;> nofun

theorem cyclic_of_add {i j : Import} {outcome : ImportOutcome} {g : Gathered}
    {chain : List String} (h : g.add i outcome = .cyclic j chain) : g = .cyclic j chain := by
  cases g <;> cases h
  rfl

theorem cyclic_of_addPending {j : Import} {g : Gathered} {chain : List String}
    (h : g.addPending = .cyclic j chain) : g = .cyclic j chain := by
  cases g <;> cases h
  rfl

theorem pending_of_add {g : Gathered} {i : Import} {x : ImportOutcome} (h : g.add i x = .pending) :
    g = .pending := by
  cases g <;> first | rfl | cases h

/-- What comes of imports comes of all of them, in their order. -/
theorem imports_of_gather {answer : List String → String → Module → Work Poll} {chain : List String}
    {importer : String} {is : List Import} {outcomes : List (Import × ImportOutcome)}
    (h : ((gather answer chain importer is).run p).1 = .settled outcomes) :
    outcomes.map Prod.fst = is := by
  induction is generalizing p outcomes with
  | nil =>
    cases h
    rfl
  | cons i rest ih =>
    rw [gather_cons] at h
    generalize (resolveImport importer i).run p = resolved at h
    obtain ⟨found, q⟩ := resolved
    cases found with
    | failed e =>
      obtain ⟨others, hothers, rfl⟩ := settled_of_add h
      exact congrArg (cons i) (ih hothers)
    | pending => exact absurd h addPending_ne_settled
    | found target m =>
      dsimp only at h
      split at h
      · cases h
      · generalize (answer chain target m).run q = answered at h
        obtain ⟨poll, r⟩ := answered
        cases poll with
        | ready o =>
          obtain ⟨others, hothers, rfl⟩ := settled_of_add h
          exact congrArg (cons i) (ih hothers)
        | pending => exact absurd h addPending_ne_settled

theorem compute_succ (depth : Nat) (chain : List String) (name : String) (m : Module) :
    (compute (depth + 1) chain name m).run p =
      match (gather (compute depth) (chain ++ [name]) name (p.sources.knownImports name m)).run p with
      | (.pending, q) => (.pending, q)
      | (.settled outcomes, q) =>
        let r := (stored (m.outputKey name p.environment outcomes).id (produce name m outcomes)).run q
        (.ready r.1, r.2)
      | (.cyclic i cycle, q) =>
        let o := Output.cyclic name m p.environment i (.graph (.cycle cycle))
        let r := (stored o.id (pure o)).run (q.note (.cyclicImport cycle))
        (.ready r.1, r.2) := by
  rw [compute, StateT.run_bind, StateT.run_get]
  change StateT.run (_ >>= _) p = _
  rw [StateT.run_bind]
  generalize StateT.run (gather _ _ _ _) p = gathered
  obtain ⟨_ | _ | _, q⟩ := gathered <;> rfl

theorem stored_of_get? {make : Work Output} (h : p.store.outputs.get? id = some o) :
    (stored id make).run p = (o, p) := by
  rw [stored, StateT.run_bind, StateT.run_get, pure_bind]
  dsimp only
  rw [h]
  rfl

theorem stored_of_none {make : Work Output} (h : p.store.outputs.get? id = none) :
    (stored id make).run p = ((make.run p).1, ((commit (make.run p).1).run (make.run p).2).2) := by
  rw [stored, StateT.run_bind, StateT.run_get, pure_bind]
  dsimp only
  rw [h]
  rfl

theorem poll_of_none (hm : p.sources.headModule? name = none) :
    (poll name).run p = (.error (.unknownHead name), p) := by
  rw [poll, StateT.run_bind, StateT.run_get, pure_bind]
  dsimp only
  rw [hm]
  rfl

theorem poll_of_head (hm : p.sources.headModule? name = some m) :
    (poll name).run p = (.ok ((compute p.sources.reach [] name m).run p).1,
      ((compute p.sources.reach [] name m).run p).2) := by
  rw [poll, StateT.run_bind, StateT.run_get, pure_bind]
  dsimp only
  rw [hm]
  rfl

/-- Why an import without a pin fails. -/
inductive Fails (p : Project) (importer : String) (i : Import) (e : LinkError) : Prop
  | unresolved : Sources.target p.resolver importer i = .error e → Fails p importer i e
  | missing {target} : Sources.target p.resolver importer i = .ok target →
      p.sources.headModule? target = none →
      p.store.loads.get? ⟨target, none⟩ = some (.failed e) ∨
        p.resolver = none ∧ p.store.loads.get? ⟨target, none⟩ = none ∧ e = .notFound target →
      Fails p importer i e

/-- No load is started, or one for what is not there. -/
inductive Starts (p q : Project) : Prop
  | none : q.store.loads = p.store.loads → q.inFlight = p.inFlight → Starts p q
  | load {key} : p.store.loads.get? key = Option.none → p.sources.isPresent key = false →
      q.store.loads = p.store.loads.set key .loading → q.inFlight = p.inFlight ++ [key] →
      Starts p q

/-- The steps from `p` to `q` change nothing that outputs are made of, nor outputs. -/
structure Quiet (p q : Project) : Prop where
  sources : q.sources = p.sources
  resolver : q.resolver = p.resolver
  limits : q.limits = p.limits
  runs : q.runs = p.runs
  outputs : q.store.outputs = p.store.outputs
  loads : Starts p q

/-- The steps from `p` to `q` only add outputs and start loads. -/
structure Later (p q : Project) : Prop where
  sources : q.sources = p.sources
  resolver : q.resolver = p.resolver
  limits : q.limits = p.limits
  outputs : ∀ id o, p.store.outputs.get? id = some o → q.store.outputs.get? id = some o
  loads : ∀ key, q.store.loads.get? key = p.store.loads.get? key ∨
    p.store.loads.get? key = none ∧ q.store.loads.get? key = some .loading

theorem Starts.get? (h : Starts p q) (key : LoadKey) :
    q.store.loads.get? key = p.store.loads.get? key ∨
      p.store.loads.get? key = Option.none ∧ q.store.loads.get? key = some .loading := by
  cases h with
  | none hloads _ => exact .inl (by rw [hloads])
  | load hkey _ hloads _ =>
    rw [hloads, Table.get?_set]
    split
    · rename_i heq
      exact .inr ⟨heq ▸ hkey, rfl⟩
    · exact .inl rfl

theorem Fails.mono {importer : String} {i : Import} {e : LinkError} (h : q.Fails importer i e)
    (hsources : q.sources = p.sources) (hresolver : q.resolver = p.resolver)
    (hloads : ∀ key, q.store.loads.get? key = p.store.loads.get? key ∨
      p.store.loads.get? key = none ∧ q.store.loads.get? key = some .loading) :
    p.Fails importer i e := by
  cases h with
  | unresolved ht => exact .unresolved (hresolver ▸ ht)
  | missing ht hm he =>
    refine .missing (hresolver ▸ ht) (hsources ▸ hm) ?_
    rcases hloads ⟨_, none⟩ with heq | ⟨-, hq⟩
    · rw [← heq, ← hresolver]
      exact he
    · rw [hq] at he
      rcases he with he | ⟨-, he, -⟩ <;> cases he

theorem Later.fails (h : Later p q) {importer : String} {i : Import} {e : LinkError}
    (hf : q.Fails importer i e) : p.Fails importer i e :=
  hf.mono h.sources h.resolver h.loads

namespace Quiet

theorem refl (p : Project) : Quiet p p := ⟨rfl, rfl, rfl, rfl, rfl, .none rfl rfl⟩

theorem later (h : Quiet p q) : Later p q :=
  ⟨h.sources, h.resolver, h.limits, fun _ _ ho => h.outputs ▸ ho, h.loads.get?⟩

theorem settle (key : ResolutionKey) (r : Resolution) : Quiet p ((Project.settle key r).run p).2 := by
  change Quiet p (if _ then _ else _)
  split <;> exact ⟨rfl, rfl, rfl, rfl, rfl, .none rfl rfl⟩

theorem starts {key : LoadKey} (hloads : ¬((p.store.loads.get? key).isSome ||
    p.sources.isPresent key) = true) (hq : q.store.loads = p.store.loads.set key .loading)
    (hflight : q.inFlight = p.inFlight ++ [key]) : Starts p q := by
  rw [Bool.or_eq_true, not_or, Bool.not_eq_true, Option.isSome_eq_false_iff,
    Option.isNone_iff_eq_none, Bool.not_eq_true] at hloads
  exact .load hloads.1 hloads.2 hq hflight

theorem startLoad (key : LoadKey) (k : ResolutionKey) (target : String) :
    Quiet p ((Project.startLoad key [.resolutionSettled k (.loading target)]).run p).2 := by
  change Quiet p (if _ then _ else _)
  split
  · exact refl p
  · rename_i hloads
    exact ⟨rfl, rfl, rfl, rfl, rfl, starts hloads rfl rfl⟩

theorem startLoad_nil (key : LoadKey) : Quiet p ((Project.startLoad key []).run p).2 := by
  change Quiet p (if _ then _ else _)
  split
  · exact refl p
  · rename_i hloads
    exact ⟨rfl, rfl, rfl, rfl, rfl, starts hloads rfl rfl⟩

end Quiet

/-- What an import that is resolved leads to. -/
structure Resolves (p : Project) (importer : String) (i : Import) (result : ImportTarget × Project) :
    Prop where
  quiet : Quiet p result.2
  found : ∀ target m, result.1 = .found target m →
    Sources.target p.resolver importer i = .ok target ∧ p.sources.find? ⟨target, i.pin⟩ = some m
  fails : ∀ e, result.1 = .failed e → i.pin = none → p.Fails importer i e
  flight : ∀ key ∈ result.2.inFlight, key ∈ p.inFlight ∨ key.pin = i.pin ∧ p.resolver.isSome
  pending : result.1 = .pending → ∃ target, Sources.target p.resolver importer i = .ok target ∧
    (p.store.loads.get? ⟨target, i.pin⟩ = some .loading ∨ p.resolver.isSome)

theorem settle_inFlight (key : ResolutionKey) (r : Resolution) :
    ((settle key r).run p).2.inFlight = p.inFlight := by
  change (if _ then _ else _ : Project).inFlight = _
  split <;> rfl

theorem startLoad_inFlight (key : LoadKey) (more : List Event) (k : LoadKey)
    (hk : k ∈ ((startLoad key more).run p).2.inFlight) : k ∈ p.inFlight ∨ k = key := by
  change k ∈ (if _ then _ else _ : Project).inFlight at hk
  split at hk
  · exact .inl hk
  · exact (mem_append.1 hk).imp_right mem_singleton.1

namespace Resolves

variable {importer target : String} {i : Import}

theorem ofFailed {e : LinkError} (hquiet : Quiet p q) (hflight : q.inFlight = p.inFlight)
    (hfails : i.pin = none → p.Fails importer i e) : Resolves p importer i (.failed e, q) where
  quiet := hquiet
  found _ _ h := by cases h
  fails _ h := by
    cases h
    exact hfails
  flight _ hkey := .inl (hflight ▸ hkey)
  pending h := by cases h

theorem ofFound (hquiet : Quiet p q) (hflight : q.inFlight = p.inFlight)
    (ht : Sources.target p.resolver importer i = .ok target)
    (hm : p.sources.find? ⟨target, i.pin⟩ = some m) :
    Resolves p importer i (.found target m, q) where
  quiet := hquiet
  found _ _ h := by
    cases h
    exact ⟨ht, hm⟩
  fails _ h := by cases h
  flight _ hkey := .inl (hflight ▸ hkey)
  pending h := by cases h

theorem ofPending (hquiet : Quiet p q)
    (hflight : ∀ key ∈ q.inFlight, key ∈ p.inFlight ∨ key = ⟨target, i.pin⟩ ∧ p.resolver.isSome)
    (ht : Sources.target p.resolver importer i = .ok target)
    (hl : p.store.loads.get? ⟨target, i.pin⟩ = some .loading ∨ p.resolver.isSome) :
    Resolves p importer i (.pending, q) where
  quiet := hquiet
  found _ _ h := by cases h
  fails _ h := by cases h
  flight key hkey := by
    rcases hflight key hkey with hkey | ⟨rfl, hr⟩
    · exact .inl hkey
    · exact .inr ⟨rfl, hr⟩
  pending _ := ⟨target, ht, hl⟩

end Resolves

theorem resolveImport_resolves (importer : String) (i : Import) :
    Resolves p importer i ((resolveImport importer i).run p) := by
  simp only [resolveImport, StateT.run_bind, StateT.run_get, pure_bind]
  split
  · rename_i ht
    exact .ofFailed (.settle _ _) (settle_inFlight _ _) fun _ => .unresolved ht
  · rename_i target ht
    split
    · rename_i m hm
      exact .ofFound (.settle _ _) (settle_inFlight _ _) ht hm
    · rename_i hl
      exact .ofPending (.refl p) (fun _ => .inl) ht (.inl hl)
    · rename_i hm hl
      refine .ofFailed (.settle _ _) (settle_inFlight _ _) fun hpin => ?_
      rw [hpin] at hm hl
      exact .missing ht hm (.inl hl)
    · rename_i hm hl
      split
      · rename_i hr
        exact .ofPending (.startLoad _ _ _)
          (fun k hk => (startLoad_inFlight _ _ k hk).imp_right fun heq => ⟨heq, hr⟩) ht (.inr hr)
      · rename_i hr
        refine .ofFailed (.settle _ _) (settle_inFlight _ _) fun hpin => ?_
        rw [hpin] at hm hl
        exact .missing ht hm (.inr ⟨by simpa using hr, hl, by rw [Sources.absence, hpin]⟩)

theorem resolveImport_found {importer target : String} {i : Import} {m : Module}
    (ht : Sources.target p.resolver importer i = .ok target)
    (hm : p.sources.find? ⟨target, i.pin⟩ = some m) :
    ∃ q, (resolveImport importer i).run p = (.found target m, q) ∧ Quiet p q := by
  refine ⟨_, ?_, Quiet.settle ⟨importer, i.specifier⟩ (.loaded target m.hash)⟩
  simp only [resolveImport, StateT.run_bind, StateT.run_get, pure_bind, ht, hm]
  rfl

namespace Later

theorem refl (p : Project) : Later p p := (Quiet.refl p).later

theorem trans (h₁ : Later p q) (h₂ : Later q r) : Later p r where
  sources := h₂.sources.trans h₁.sources
  resolver := h₂.resolver.trans h₁.resolver
  limits := h₂.limits.trans h₁.limits
  outputs id o ho := h₂.outputs id o (h₁.outputs id o ho)
  loads key := by
    rcases h₂.loads key with heq | ⟨hq, hr⟩
    · rw [heq]
      exact h₁.loads key
    · rcases h₁.loads key with heq | ⟨-, hq'⟩
      · exact .inr ⟨heq ▸ hq, hr⟩
      · cases hq.symm.trans hq'

end Later

/-- What all steps of a request preserve. Without pins, no import that is asked for has one, and an
output is only made where there is none of its identity. -/
structure Preserved (P : Project → Prop) : Prop where
  resolve : ∀ importer i p, (p.sources.pins = [] → i.pin = none) → P p →
    P ((resolveImport importer i).run p).2
  note : ∀ entry p, P p → P (p.note entry)
  run : ∀ p, P p → P { p with runs := p.runs + 1 }
  commit : ∀ o p, p.store.outputs.get? o.id = none → P p → P ((commit o).run p).2

namespace Preserved

variable {P : Project → Prop}

theorem gather (h : Preserved P) {answer : List String → String → Module → Work Poll}
    {s : Sources} (hs : ∀ q, P q → q.sources = s)
    (hanswer : ∀ chain target m p, P p → P ((answer chain target m).run p).2)
    (chain : List String) (importer : String) (is : List Import)
    (hpins : s.pins = [] → ∀ i ∈ is, i.pin = none) (hp : P p) :
    P ((gather answer chain importer is).run p).2 := by
  induction is generalizing p with
  | nil => exact hp
  | cons i rest ih =>
    replace ih : ∀ {q}, P q → P ((Project.gather answer chain importer rest).run q).2 :=
      ih fun hs j hj => hpins hs j (mem_cons_of_mem _ hj)
    have hq := h.resolve importer i p (fun hp' => hpins (hs p hp ▸ hp') i mem_cons_self) hp
    rw [gather_cons]
    generalize (resolveImport importer i).run p = resolved at hq ⊢
    obtain ⟨target, q⟩ := resolved
    cases target with
    | failed e => exact ih hq
    | pending => exact ih hq
    | found target m =>
      dsimp only
      split
      · exact hq
      · have hr := hanswer chain target m q hq
        generalize (answer chain target m).run q = answered at hr ⊢
        obtain ⟨poll, r⟩ := answered
        cases poll <;> exact ih hr

theorem produced (h : Preserved P) (outcomes : List (Import × ImportOutcome)) (hp : P p) :
    P ((stored (m.outputKey name p.environment outcomes).id (produce name m outcomes)).run p).2 := by
  cases ho : p.store.outputs.get? (m.outputKey name p.environment outcomes).id with
  | some o =>
    rw [stored_of_get? ho]
    exact hp
  | none =>
    rw [stored_of_none ho]
    change P ((Project.commit _).run
      (if (m.runnable outcomes).isOk then { p with runs := p.runs + 1 } else p)).2
    split
    · exact h.commit _ _ ho (h.run p hp)
    · exact h.commit _ p ho hp

theorem stored (h : Preserved P) (o : Output) (hp : P p) :
    P ((stored o.id (pure o)).run p).2 := by
  cases ho : p.store.outputs.get? o.id with
  | some o' =>
    rw [stored_of_get? ho]
    exact hp
  | none =>
    rw [stored_of_none ho]
    exact h.commit o p ho hp

theorem compute_at (h : Preserved P) {s : Sources} (hs : ∀ q, P q → q.sources = s) (depth : Nat)
    (chain : List String) (name : String) (m : Module) (hp : P p) :
    P ((compute depth chain name m).run p).2 := by
  induction depth generalizing chain name m p with
  | zero => exact hp
  | succ depth ih =>
    rw [compute_succ]
    have hq := h.gather hs (fun chain target m p => ih chain target m) (chain ++ [name]) name
      (p.sources.knownImports name m)
      (fun hpins i hi => Sources.pin_of_mem_knownImports ((hs p hp).symm ▸ hpins) hi) hp
    generalize (Project.gather _ _ _ _).run p = gathered at hq ⊢
    obtain ⟨g, q⟩ := gathered
    replace hq : P q := hq
    cases g with
    | pending => exact hq
    | settled outcomes =>
      have henv : p.environment = q.environment :=
        congrArg Sources.environment ((hs p hp).trans (hs q hq).symm)
      rw [henv]
      exact h.produced outcomes hq
    | cyclic i cycle => exact h.stored _ (h.note _ q hq)

theorem sources (h : Preserved P) (s : Sources) : Preserved fun q => P q ∧ q.sources = s where
  resolve importer i q hpins hq := ⟨h.resolve importer i q hpins hq.1,
    (resolveImport_resolves importer i).quiet.sources.trans hq.2⟩
  note entry q hq := ⟨h.note entry q hq.1, hq.2⟩
  run q hq := ⟨h.run q hq.1, hq.2⟩
  commit o q hn hq := ⟨h.commit o q hn hq.1, hq.2⟩

theorem compute (h : Preserved P) (depth : Nat) (chain : List String) (name : String) (m : Module)
    (hp : P p) : P ((compute depth chain name m).run p).2 :=
  ((h.sources p.sources).compute_at (fun _ hq => hq.2) depth chain name m ⟨hp, rfl⟩).1

theorem poll (h : Preserved P) (name : String) (hp : P p) : P ((poll name).run p).2 := by
  cases hm : p.sources.headModule? name with
  | none =>
    rw [poll_of_none hm]
    exact hp
  | some m =>
    rw [poll_of_head hm]
    exact h.compute _ [] name m hp

end Preserved

theorem Later.preserved (p : Project) : Preserved (Later p) where
  resolve importer i _ _ hq := hq.trans (resolveImport_resolves importer i).quiet.later
  note _ q hq := ⟨hq.sources, hq.resolver, hq.limits, hq.outputs, hq.loads⟩
  run q hq := ⟨hq.sources, hq.resolver, hq.limits, hq.outputs, hq.loads⟩
  commit o q hn hq := by
    refine ⟨hq.sources, hq.resolver, hq.limits, fun id o' ho => ?_, hq.loads⟩
    change (q.store.outputs.set o.id o).get? id = some o'
    rw [Table.get?_set, if_neg, hq.outputs id o' ho]
    rintro rfl
    rw [hq.outputs _ o' ho] at hn
    cases hn

theorem compute_later (depth : Nat) (chain : List String) (name : String) (m : Module)
    (p : Project) : Later p ((compute depth chain name m).run p).2 :=
  (Later.preserved p).compute depth chain name m (.refl p)

theorem poll_later (name : String) (p : Project) : Later p ((poll name).run p).2 :=
  (Later.preserved p).poll name (.refl p)

end Project

end Estimation
