import Estimation.Proofs.Ordering
import Estimation.Proofs.Requests

/-!
Requests without a bound on how many names may wait. A name on the chain is never asked for again, so
the names that wait are different names of modules or of pinned imports, and the bound that requests
are given is never reached.
-/

namespace Estimation

open List

namespace Sources

variable {s : Sources} {resolver : Option Resolver} {name called : String} {m m' : Module}
  {i : Import}

/-- What an import may be called, whatever its form. -/
def calledNames (resolver : Option Resolver) (importer specifier : String) : List String :=
  specifier :: (resolver.bind fun resolve => (resolve specifier importer).toOption).toList

theorem length_calledNames_le (resolver : Option Resolver) (importer specifier : String) :
    (calledNames resolver importer specifier).length ≤ 2 := by
  rw [calledNames]
  cases resolver.bind fun resolve => (resolve specifier importer).toOption <;> simp

theorem mem_calledNames (h : target resolver name i = .ok called) :
    called ∈ calledNames resolver name i.specifier := by
  unfold target at h
  split at h
  · rename_i resolve _
    refine mem_cons_of_mem _ ?_
    rw [Option.bind_some, h]
    exact mem_singleton.2 rfl
  · cases h
    exact mem_cons_self

/-- The names that may be asked for: those of modules, and of imports with pins. -/
def askable (s : Sources) (resolver : Option Resolver) : List String :=
  s.names ++ s.pins.flatMap fun (importer, pins) =>
    pins.flatMap fun (specifier, _) => calledNames resolver importer specifier

theorem length_askable_le (s : Sources) (resolver : Option Resolver) :
    (s.askable resolver).length ≤ s.reach := by
  have hpins : ∀ (importer : String) (pins : Bindings String),
      (pins.flatMap fun e => calledNames resolver importer e.1).length ≤ 2 * pins.length := by
    intro importer pins
    induction pins with
    | nil => exact Nat.le_refl _
    | cons e pins ih =>
      have hfirst := length_calledNames_le resolver importer e.1
      rw [flatMap_cons, length_append, length_cons]
      omega
  have hall : ∀ pins : Table String (Bindings String),
      (pins.flatMap fun e => e.2.flatMap fun e' => calledNames resolver e.1 e'.1).length ≤
        2 * pins.foldr (fun e n => e.2.length + n) 0 := by
    intro pins
    induction pins with
    | nil => exact Nat.le_refl _
    | cons e pins ih =>
      have hfirst := hpins e.1 e.2
      rw [flatMap_cons, length_append, foldr_cons]
      omega
  rw [askable, length_append, names, length_map]
  exact Nat.add_le_add_left (hall s.pins) _

theorem mem_askable (hi : i ∈ s.knownImports name m) (ht : target resolver name i = .ok called)
    (hm : s.find? ⟨called, i.pin⟩ = some m') : called ∈ s.askable resolver := by
  have hpin := pin_eq_of_mem_knownImports hi
  cases hi' : i.pin with
  | none =>
    rw [hi'] at hm
    exact mem_append_left _ (mem_names hm)
  | some hash =>
    rw [hi'] at hpin
    split at hpin
    · obtain ⟨pins, hpins, hhash⟩ := Option.bind_eq_some_iff.1 hpin.symm
      rw [Bindings.get?_eq_get?] at hhash
      refine mem_append_right _ (mem_flatMap.2 ⟨_, Table.mem_of_get? hpins, ?_⟩)
      exact mem_flatMap.2 ⟨_, Table.mem_of_get? hhash, mem_calledNames ht⟩
    · cases hpin

end Sources

namespace Project

mutual

/-- What comes of imports that are asked for in their order. A name on the chain is not asked for. -/
inductive Gathers : List String → String → List Import → Project → Gathered → Project → Prop
  | nil {chain importer p} : Gathers chain importer [] p (.settled []) p
  | failed {chain importer i rest p q r e g} :
      (resolveImport importer i).run p = (.failed e, q) → Gathers chain importer rest q g r →
      Gathers chain importer (i :: rest) p (g.add i (.failed e)) r
  | pending {chain importer i rest p q r g} :
      (resolveImport importer i).run p = (.pending, q) → Gathers chain importer rest q g r →
      Gathers chain importer (i :: rest) p g.addPending r
  | cyclic {chain importer i rest p q target m} :
      (resolveImport importer i).run p = (.found target m, q) → target ∈ chain →
      Gathers chain importer (i :: rest) p (.cyclic i (Graph.cycle chain target)) q
  | ready {chain importer i rest p q r s target m o g} :
      (resolveImport importer i).run p = (.found target m, q) → target ∉ chain →
      Returns chain target m q (.ready o) r → Gathers chain importer rest r g s →
      Gathers chain importer (i :: rest) p (g.add i (.ready o)) s
  | waiting {chain importer i rest p q r s target m g} :
      (resolveImport importer i).run p = (.found target m, q) → target ∉ chain →
      Returns chain target m q .pending r → Gathers chain importer rest r g s →
      Gathers chain importer (i :: rest) p g.addPending s

/-- What comes of a request, while the names on the chain wait. -/
inductive Returns : List String → String → Module → Project → Poll → Project → Prop
  | pending {chain name m p q} :
      Gathers (chain ++ [name]) name (p.sources.knownImports name m) p .pending q →
      Returns chain name m p .pending q
  | settled {chain name m p q o r} {outcomes : List (Import × ImportOutcome)} :
      Gathers (chain ++ [name]) name (p.sources.knownImports name m) p (.settled outcomes) q →
      (stored (m.outputKey name p.environment outcomes).id (produce name m outcomes)).run q =
        (o, r) →
      Returns chain name m p (.ready o) r
  | cyclic {chain name m p q i cycle o r} :
      Gathers (chain ++ [name]) name (p.sources.knownImports name m) p (.cyclic i cycle) q →
      (stored (Output.cyclic name m p.environment i (.graph (.cycle cycle))).id
        (pure (Output.cyclic name m p.environment i (.graph (.cycle cycle))))).run
          (q.note (.cyclicImport cycle)) = (o, r) →
      Returns chain name m p (.ready o) r

end

namespace Gathers

variable {chain : List String} {importer target : String} {i : Import} {rest : List Import}
  {p q r : Project} {g : Gathered} {m : Module}

theorem of_failed {e : LinkError} (h : Gathers chain importer (i :: rest) p g q)
    (hr : (resolveImport importer i).run p = (.failed e, r)) :
    ∃ g', g = g'.add i (.failed e) ∧ Gathers chain importer rest r g' q := by
  cases h with
  | failed hr' hrest =>
    cases hr'.symm.trans hr
    exact ⟨_, rfl, hrest⟩
  | pending hr' _ => cases hr'.symm.trans hr
  | cyclic hr' _ => cases hr'.symm.trans hr
  | ready hr' _ _ _ => cases hr'.symm.trans hr
  | waiting hr' _ _ _ => cases hr'.symm.trans hr

theorem of_pending (h : Gathers chain importer (i :: rest) p g q)
    (hr : (resolveImport importer i).run p = (.pending, r)) :
    ∃ g', g = g'.addPending ∧ Gathers chain importer rest r g' q := by
  cases h with
  | failed hr' _ => cases hr'.symm.trans hr
  | pending hr' hrest =>
    cases hr'.symm.trans hr
    exact ⟨_, rfl, hrest⟩
  | cyclic hr' _ => cases hr'.symm.trans hr
  | ready hr' _ _ _ => cases hr'.symm.trans hr
  | waiting hr' _ _ _ => cases hr'.symm.trans hr

theorem of_mem (h : Gathers chain importer (i :: rest) p g q)
    (hr : (resolveImport importer i).run p = (.found target m, r)) (hmem : target ∈ chain) :
    g = .cyclic i (Graph.cycle chain target) ∧ q = r := by
  cases h with
  | failed hr' _ => cases hr'.symm.trans hr
  | pending hr' _ => cases hr'.symm.trans hr
  | cyclic hr' _ =>
    cases hr'.symm.trans hr
    exact ⟨rfl, rfl⟩
  | ready hr' hmem' _ _ =>
    cases hr'.symm.trans hr
    exact absurd hmem hmem'
  | waiting hr' hmem' _ _ =>
    cases hr'.symm.trans hr
    exact absurd hmem hmem'

theorem of_found (h : Gathers chain importer (i :: rest) p g q)
    (hr : (resolveImport importer i).run p = (.found target m, r)) (hmem : target ∉ chain) :
    ∃ answer s g', Returns chain target m r answer s ∧ Gathers chain importer rest s g' q ∧
      (answer = .pending ∧ g = g'.addPending ∨ ∃ o, answer = .ready o ∧ g = g'.add i (.ready o)) := by
  cases h with
  | failed hr' _ => cases hr'.symm.trans hr
  | pending hr' _ => cases hr'.symm.trans hr
  | cyclic hr' hmem' =>
    cases hr'.symm.trans hr
    exact absurd hmem' hmem
  | ready hr' _ hanswer hrest =>
    cases hr'.symm.trans hr
    exact ⟨_, _, _, hanswer, hrest, .inr ⟨_, rfl, rfl⟩⟩
  | waiting hr' _ hanswer hrest =>
    cases hr'.symm.trans hr
    exact ⟨_, _, _, hanswer, hrest, .inl ⟨rfl, rfl⟩⟩

end Gathers

/-- What is answered once it is known what came of the imports. -/
def Yields (name : String) (m : Module) (e : Environment) (p : Project) :
    Gathered → Poll → Project → Prop
  | .pending, answer, q => answer = .pending ∧ q = p
  | .settled outcomes, answer, q => ∃ o, answer = .ready o ∧
      (stored (m.outputKey name e outcomes).id (produce name m outcomes)).run p = (o, q)
  | .cyclic i cycle, answer, q => ∃ o, answer = .ready o ∧
      (stored (Output.cyclic name m e i (.graph (.cycle cycle))).id
        (pure (Output.cyclic name m e i (.graph (.cycle cycle))))).run
          (p.note (.cyclicImport cycle)) = (o, q)

variable {p : Project} {name : String} {m : Module} {chain : List String}

theorem gather_gathers {answer : List String → String → Module → Work Poll} {importer : String}
    {is : List Import}
    (hlater : ∀ target m q, Later q ((answer chain target m).run q).2)
    (hanswer : ∀ i ∈ is, ∀ target m q, Later p q → target ∉ chain →
      Sources.target q.resolver importer i = .ok target →
      q.sources.find? ⟨target, i.pin⟩ = some m →
      Returns chain target m q ((answer chain target m).run q).1 ((answer chain target m).run q).2)
    {q : Project} (hq : Later p q) :
    Gathers chain importer is q ((gather answer chain importer is).run q).1
      ((gather answer chain importer is).run q).2 := by
  induction is generalizing q with
  | nil => exact .nil
  | cons i rest ih =>
    replace ih := fun {r} hr => @ih (fun j hj => hanswer j (mem_cons_of_mem _ hj)) r hr
    obtain ⟨hquiet, hfound, -, -, -⟩ := resolveImport_resolves (p := q) importer i
    rw [gather_cons]
    cases hresolved : (resolveImport importer i).run q with
    | mk target r =>
      rw [hresolved] at hquiet hfound
      have hr := hq.trans hquiet.later
      cases target with
      | failed e => exact .failed hresolved (ih hr)
      | pending => exact .pending hresolved (ih hr)
      | found target m =>
        dsimp only
        split
        · rename_i hmem
          exact .cyclic hresolved hmem
        · rename_i hmem
          obtain ⟨htarget, hm⟩ := hfound target m rfl
          have hreturns := hanswer i mem_cons_self target m r hr hmem
            (hquiet.resolver ▸ htarget) (hquiet.sources ▸ hm)
          have hs := hr.trans (hlater target m r)
          generalize (answer chain target m).run r = answered at hreturns hs ⊢
          obtain ⟨poll, s⟩ := answered
          cases poll with
          | ready o => exact .ready hresolved hmem hreturns (ih hs)
          | pending => exact .waiting hresolved hmem hreturns (ih hs)

theorem compute_returns {depth : Nat} (hname : name ∈ p.sources.askable p.resolver)
    (hnodup : chain.Nodup) (hmem : name ∉ chain)
    (hchain : ∀ n ∈ chain, n ∈ p.sources.askable p.resolver)
    (hdepth : (p.sources.askable p.resolver).length ≤ depth + chain.length) :
    Returns chain name m p ((compute depth chain name m).run p).1
      ((compute depth chain name m).run p).2 := by
  induction depth generalizing chain name m p with
  | zero =>
    have hlt := length_lt_of_notMem hnodup hmem hchain hname
    omega
  | succ depth ih =>
    have hgathers : Gathers (chain ++ [name]) name (p.sources.knownImports name m) p
        ((gather (compute depth) (chain ++ [name]) name (p.sources.knownImports name m)).run p).1
        ((gather (compute depth) (chain ++ [name]) name
          (p.sources.knownImports name m)).run p).2 := by
      refine gather_gathers (fun target m q => compute_later depth _ target m q)
        (fun i hi target m' q hq hmem' ht hm' => ?_) (.refl p)
      have hsame : q.sources.askable q.resolver = p.sources.askable p.resolver := by
        rw [hq.sources, hq.resolver]
      rw [hq.resolver] at ht
      rw [hq.sources] at hm'
      refine ih (hsame ▸ Sources.mem_askable hi ht hm') (nodup_concat hnodup hmem) hmem' ?_ ?_
      · intro n hn
        rw [hsame]
        rcases mem_append.1 hn with hn | hn
        · exact hchain n hn
        · exact mem_singleton.1 hn ▸ hname
      · rw [hsame, length_append, length_singleton]
        omega
    rw [compute_succ]
    generalize (gather _ _ _ _).run p = gathered at hgathers ⊢
    obtain ⟨g, q⟩ := gathered
    cases g with
    | pending => exact .pending hgathers
    | settled outcomes => exact .settled hgathers rfl
    | cyclic i cycle => exact .cyclic hgathers rfl

theorem Preserved.resolved {P : Project → Prop} (h : Preserved P) {importer : String} {i : Import}
    {rest : List Import} {p q : Project} {result : ImportTarget}
    (hresolve : (resolveImport importer i).run p = (result, q))
    (hpins : p.sources.pins = [] → ∀ j ∈ i :: rest, j.pin = none) (hp : P p) :
    P q ∧ (q.sources.pins = [] → ∀ j ∈ rest, j.pin = none) ∧ q.sources = p.sources := by
  have hsources := (resolveImport_resolves (p := p) importer i).quiet.sources
  have hq := h.resolve importer i p (fun hs => hpins hs i mem_cons_self) hp
  rw [hresolve] at hsources hq
  exact ⟨hq, fun hs j hj => hpins (hsources ▸ hs) j (mem_cons_of_mem _ hj), hsources⟩

mutual

theorem Gathers.preserves {P : Project → Prop} (h : Preserved P) {chain : List String}
    {importer : String} {is : List Import} {p q : Project} {g : Gathered} :
    Gathers chain importer is p g q → (p.sources.pins = [] → ∀ i ∈ is, i.pin = none) → P p →
      P q ∧ q.sources = p.sources
  | .nil, _, hp => ⟨hp, rfl⟩
  | .failed hresolve hrest, hpins, hp =>
    have ⟨hq, hpins, hs⟩ := h.resolved hresolve hpins hp
    (hrest.preserves h hpins hq).imp_right fun hr => hr.trans hs
  | .pending hresolve hrest, hpins, hp =>
    have ⟨hq, hpins, hs⟩ := h.resolved hresolve hpins hp
    (hrest.preserves h hpins hq).imp_right fun hr => hr.trans hs
  | .cyclic hresolve _, hpins, hp =>
    have ⟨hq, _, hs⟩ := h.resolved hresolve hpins hp
    ⟨hq, hs⟩
  | .ready hresolve _ hready hrest, hpins, hp =>
    have ⟨hq, hpins, hs⟩ := h.resolved hresolve hpins hp
    have ⟨hr, hs'⟩ := hready.preserves h hq
    (hrest.preserves h (hs' ▸ hpins) hr).imp_right fun ht => ht.trans (hs'.trans hs)
  | .waiting hresolve _ hwaiting hrest, hpins, hp =>
    have ⟨hq, hpins, hs⟩ := h.resolved hresolve hpins hp
    have ⟨hr, hs'⟩ := hwaiting.preserves h hq
    (hrest.preserves h (hs' ▸ hpins) hr).imp_right fun ht => ht.trans (hs'.trans hs)

theorem Returns.preserves {P : Project → Prop} (h : Preserved P) {chain : List String}
    {name : String} {m : Module} {p q : Project} {answer : Poll} :
    Returns chain name m p answer q → P p → P q ∧ q.sources = p.sources
  | .pending hgathers, hp =>
    hgathers.preserves h (fun hpins _ => Sources.pin_of_mem_knownImports hpins) hp
  | @Returns.settled _ _ _ _ q o r outcomes hgathers hstored, hp => by
    have hq := hgathers.preserves h (fun hpins _ => Sources.pin_of_mem_knownImports hpins) hp
    rw [Project.environment, ← hq.2] at hstored
    change P (o, r).2 ∧ (o, r).2.sources = p.sources
    rw [← hstored]
    exact (h.sources p.sources).produced outcomes hq
  | @Returns.cyclic _ _ _ _ q i cycle o r hgathers hstored, hp => by
    have hq := hgathers.preserves h (fun hpins _ => Sources.pin_of_mem_knownImports hpins) hp
    change P (o, r).2 ∧ (o, r).2.sources = p.sources
    rw [← hstored]
    exact (h.sources p.sources).stored _ ((h.sources p.sources).note _ _ hq)

end

/-- How an import came to its outcome, in states with a property that requests preserve. -/
inductive Led (P : Project → Prop) (chain : List String) (importer : String) :
    Import → Import × ImportOutcome → Prop
  | failed {i p q e} : P p → (resolveImport importer i).run p = (.failed e, q) →
      Led P chain importer i (i, .failed e)
  | ready {i p q r target m o} : P p → P q →
      (resolveImport importer i).run p = (.found target m, q) →
      Returns chain target m q (.ready o) r → Led P chain importer i (i, .ready o)

theorem Gathers.led {P : Project → Prop} (h : Preserved P) {chain : List String}
    {importer : String} {is : List Import} {p q : Project} {g : Gathered} :
    Gathers chain importer is p g q → (p.sources.pins = [] → ∀ i ∈ is, i.pin = none) → P p →
      ∀ outcomes, g = .settled outcomes → Forall₂ (Led P chain importer) is outcomes
  | .nil, _, _, _, rfl => .nil
  | .failed hresolve hrest, hpins, hp, _, hg => by
    obtain ⟨hq, hpins, -⟩ := h.resolved hresolve hpins hp
    obtain ⟨others, hothers, rfl⟩ := settled_of_add hg
    exact .cons (.failed hp hresolve) (hrest.led h hpins hq _ hothers)
  | .pending _ _, _, _, _, hg => absurd hg addPending_ne_settled
  | .cyclic _ _, _, _, _, hg => nomatch hg
  | .ready hresolve _ hready hrest, hpins, hp, _, hg => by
    obtain ⟨hq, hpins, -⟩ := h.resolved hresolve hpins hp
    obtain ⟨hr, hs⟩ := hready.preserves h hq
    obtain ⟨others, hothers, rfl⟩ := settled_of_add hg
    exact .cons (.ready hp hq hresolve hready) (hrest.led h (hs ▸ hpins) hr _ hothers)
  | .waiting _ _ _ _, _, _, _, hg => absurd hg addPending_ne_settled

/-- An import leads to a name on the chain. -/
def LeadsInto (p : Project) (chain : List String) (importer : String) (is : List Import) : Prop :=
  ∃ i ∈ is, ∃ target ∈ chain, Sources.target p.resolver importer i = .ok target

theorem LeadsInto.cons {p : Project} {chain : List String} {importer : String} {i : Import}
    {is : List Import} (h : p.LeadsInto chain importer is) : p.LeadsInto chain importer (i :: is) :=
  h.imp fun _ => And.imp_left (mem_cons_of_mem i)

/-- A cycle is only met where an import leads back. -/
theorem Gathers.leadsInto {p₀ : Project} {chain : List String} {importer : String}
    {is : List Import} {p q : Project} {g : Gathered} :
    Gathers chain importer is p g q → (p.sources.pins = [] → ∀ i ∈ is, i.pin = none) →
      Later p₀ p → ∀ j cycle, g = .cyclic j cycle → p₀.LeadsInto chain importer is
  | .nil, _, _, _, _, hg => nomatch hg
  | .failed hresolve hrest, hpins, hp, _, _, hg =>
    have ⟨hq, hpins, _⟩ := (Later.preserved p₀).resolved hresolve hpins hp
    (hrest.leadsInto hpins hq _ _ (cyclic_of_add hg)).cons
  | .pending hresolve hrest, hpins, hp, _, _, hg =>
    have ⟨hq, hpins, _⟩ := (Later.preserved p₀).resolved hresolve hpins hp
    (hrest.leadsInto hpins hq _ _ (cyclic_of_addPending hg)).cons
  | @Gathers.cyclic _ importer i _ p q target m hresolve hmem, _, hp, _, _, _ => by
    have hfound := (resolveImport_resolves (p := p) importer i).found target m
    rw [hresolve] at hfound
    exact ⟨i, mem_cons_self, target, hmem, hp.resolver ▸ (hfound rfl).1⟩
  | .ready hresolve _ hready hrest, hpins, hp, _, _, hg =>
    have ⟨hq, hpins, _⟩ := (Later.preserved p₀).resolved hresolve hpins hp
    have ⟨hr, hs⟩ := hready.preserves (Later.preserved p₀) hq
    (hrest.leadsInto (hs ▸ hpins) hr _ _ (cyclic_of_add hg)).cons
  | .waiting hresolve _ hwaiting hrest, hpins, hp, _, _, hg =>
    have ⟨hq, hpins, _⟩ := (Later.preserved p₀).resolved hresolve hpins hp
    have ⟨hr, hs⟩ := hwaiting.preserves (Later.preserved p₀) hq
    (hrest.leadsInto (hs ▸ hpins) hr _ _ (cyclic_of_addPending hg)).cons

theorem Gathers.environment {chain : List String} {p q : Project} {g : Gathered}
    (h : Gathers chain name (p.sources.knownImports name m) p g q) :
    q.environment = p.environment :=
  congrArg Sources.environment
    (h.preserves (Later.preserved p) (fun hpins _ => Sources.pin_of_mem_knownImports hpins)
      (.refl p)).2

theorem Returns.gathered {p q : Project} {answer : Poll} (h : Returns chain name m p answer q) :
    ∃ g r, Gathers (chain ++ [name]) name (p.sources.knownImports name m) p g r ∧
      Yields name m p.environment r g answer q := by
  cases h with
  | pending hg => exact ⟨_, _, hg, rfl, rfl⟩
  | settled hg hstored => exact ⟨_, _, hg, _, rfl, hstored⟩
  | cyclic hg hstored => exact ⟨_, _, hg, _, rfl, hstored⟩

/-- Every request for a name with a version returns. -/
theorem poll_returns (hm : p.sources.headModule? name = some m) :
    ∃ answer q, (poll name).run p = (.ok answer, q) ∧ Returns [] name m p answer q :=
  ⟨_, _, poll_of_head hm, compute_returns (mem_append_left _ (Sources.mem_names hm)) nodup_nil
    not_mem_nil nofun (Sources.length_askable_le _ _)⟩

end Project

end Estimation
