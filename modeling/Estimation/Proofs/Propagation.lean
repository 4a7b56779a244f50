import Estimation.Proofs.Caching
import Estimation.Proofs.Cycles
import Estimation.Proofs.Unlinked

/-!
How failures go up. Where nothing is loaded, a request fails with the first failure that there is when
all that it needs is run through in order: a name that stands for nothing, or a module that fails by
itself. Whatever outputs are there already, none of them makes a difference.
-/

namespace Estimation

open List

/-- What comes before the first of its kind comes before it without repetitions too. -/
theorem exists_of_eraseDups {α : Type} [DecidableEq α] {xs before after : List α} {d : α}
    (h : xs.eraseDups = before ++ d :: after) :
    ∃ pre post, xs = pre ++ d :: post ∧ ∀ x ∈ pre, x ∈ before := by
  match xs with
  | [] => simp at h
  | x :: xs =>
    rw [eraseDups_cons] at h
    cases before with
    | nil =>
      rw [nil_append] at h
      obtain ⟨rfl, -⟩ := cons.inj h
      exact ⟨[], xs, rfl, nofun⟩
    | cons y before =>
      obtain ⟨rfl, htail⟩ := cons.inj h
      obtain ⟨pre', post', hfilter, hpre'⟩ := exists_of_eraseDups htail
      obtain ⟨pre, rest, rfl, rfl, hrest⟩ := filter_eq_append_iff.1 hfilter
      obtain ⟨same, post, rfl, hsame, -, -⟩ := filter_eq_cons_iff.1 hrest
      refine ⟨x :: (pre ++ same), post, by simp, fun z hz => ?_⟩
      by_cases hx : z = x
      · exact hx ▸ mem_cons_self
      · rcases mem_append.1 ((mem_cons.1 hz).resolve_left hx) with hz | hz
        · exact mem_cons_of_mem _ (hpre' z (mem_filter.2 ⟨hz, by simpa using hx⟩))
        · exact absurd (by simpa using hx) (hsame z hz)
termination_by xs.length
decreasing_by exact Nat.lt_succ_of_le (length_filter_le _ _)

namespace Module

theorem gather_of_first {before after : List (Import × ImportOutcome)} {i : Import}
    {x : ImportOutcome} {e : ModuleError} {externals named : Bindings Value}
    (hbefore : ∀ j y, (j, y) ∈ before → ∃ s, importedBy j y = .ok s)
    (hx : importedBy i x = .error e) :
    gather (before ++ (i, x) :: after) externals named = .error e := by
  induction before generalizing externals named with
  | nil =>
    rw [nil_append, gather, hx]
    rfl
  | cons outcome before ih =>
    obtain ⟨j, y⟩ := outcome
    obtain ⟨s, hs⟩ := hbefore j y mem_cons_self
    rw [cons_append, gather, hs]
    cases j.form <;> exact ih fun j y hy => hbefore j y (mem_cons_of_mem _ hy)

theorem keys_eq {outcomes outcomes' : List (Import × ImportOutcome)}
    (h : Forall₂ (fun a b => a.2.key a.1.specifier = b.2.key b.1.specifier) outcomes outcomes') :
    (outcomes.map fun (i, x) => x.key i.specifier) =
      outcomes'.map fun (i, x) => x.key i.specifier :=
  forall₂_eq_eq_eq ▸ forall₂_map_left_iff.2 (forall₂_map_right_iff.2 h)

end Module

theorem Output.make_of_first {name : String} {m : Module} {run : Run}
    {before after : List (Import × ImportOutcome)} {i : Import} {x : ImportOutcome} {e : ModuleError}
    (hbefore : ∀ j y, (j, y) ∈ before → ∃ s, Module.importedBy j y = .ok s)
    (hx : Module.importedBy i x = .error e) :
    (make name m run (before ++ (i, x) :: after)).result = .error e := by
  rw [make, ofImports]
  dsimp only
  rw [Module.runnable, Module.gather_of_first hbefore hx]
  rfl

namespace Project

/-- What becomes of an import once some modules have been run. -/
def outcomeIn (made : Table String Output) (i : Import) : ImportOutcome :=
  match made.get? i.specifier with
  | some o => .ready o
  | none => .failed (.notFound i.specifier)

/-- Runs what a name stands for, after the modules that it imports. -/
def runName (p : Project) (made : Table String Output) (name : String) :
    Except (LinkError ⊕ ModuleError) (Table String Output) :=
  match p.sources.headModule? name with
  | none => .error (.inl (.notFound name))
  | some m =>
    let o := Output.make name m ⟨made.length, p.environment, p.limits⟩
      ((p.sources.knownImports name m).map fun i => (i, outcomeIn made i))
    match o.result with
    | .ok _ => .ok (made ++ [(name, o)])
    | .error e => .error (.inr e)

/-- Runs modules in order, up to the first name that stands for nothing or whose module fails. -/
def runThrough (p : Project) (order : List String) :
    Except (LinkError ⊕ ModuleError) (Table String Output) :=
  order.foldlM p.runName []

variable {hashed : Hashed → Prop} {origins : OutputId → Option Nat} {p q : Project}
  {name : String} {o o' : Output} {order order' : List String}

theorem runThrough_snoc {made : Table String Output} (h : p.runThrough order = .ok made) :
    p.runThrough (order ++ [name]) = p.runName made name := by
  rw [runThrough] at h ⊢
  rw [foldlM_append, h]
  change List.foldlM p.runName made [name] = _
  rw [foldlM_cons]
  cases p.runName made name <;> rfl

theorem runThrough_error {fault : LinkError ⊕ ModuleError}
    (h : p.runThrough order = .error fault) (hstart : order <+: order') :
    p.runThrough order' = .error fault := by
  obtain ⟨more, rfl⟩ := hstart
  rw [runThrough] at h ⊢
  rw [foldlM_append, h]
  rfl

/-- A request that is answered works its environment into digests. -/
theorem environment_mem_pollHashes (h : ((poll name).run p).1 = .ok (.ready o)) :
    .environment p.environment ∈ pollHashes name p := by
  cases hm : p.sources.headModule? name with
  | none =>
    rw [poll_of_none hm] at h
    cases h
  | some m =>
    rw [poll_of_head hm] at h
    rw [pollHashes, hm]
    replace h : ((compute p.sources.reach [] name m).run p).1 = .ready o := Except.ok.inj h
    change _ ∈ computeHashes p.sources.reach [] name m p
    cases hreach : p.sources.reach with
    | zero =>
      rw [hreach] at h
      cases h
    | succ depth =>
      rw [hreach, compute_succ] at h
      rw [computeHashes]
      refine mem_append_right _ ?_
      generalize (gather _ _ _ _).run p = gathered at h ⊢
      obtain ⟨g, q⟩ := gathered
      cases g with
      | pending => cases h
      | settled outcomes => exact mem_cons_self
      | cyclic i cycle => exact mem_cons_self

/-- Nothing that a name depends on leads back to it. -/
abbrev Acyclic (p : Project) (name : String) : Prop :=
  Acc (fun b a => p.sources.DependsOn p.resolver a b) name

/-- What is known of a state in which a request has ended that started in `p`. -/
structure Ended (hashed : Hashed → Prop) (origins : OutputId → Option Nat) (p q : Project) :
    Prop where
  told : Told hashed
  idle : p.Idle
  later : Later p q
  kept : KeptBy (.unlinked hashed) origins q
  environment : hashed (.environment p.environment)

/-- An output in the environment of `p`, of what is there. -/
structure Present (hashed : Hashed → Prop) (origins : OutputId → Option Nat) (p q : Project)
    (o : Output) : Prop where
  derived : Derived (.unlinked hashed) (q.basis (.unlinked hashed) origins) o
  environment : o.environment = p.environment

/-- How an output was made. -/
structure Composed (hashed : Hashed → Prop) (origins : OutputId → Option Nat) (p q : Project)
    (name : String) (m : Module) (run : Run) (outcomes : List (Import × ImportOutcome)) : Prop where
  head : p.sources.headModule? name = some m
  imports : outcomes.map Prod.fst = p.sources.knownImports name m
  environment : run.environment = p.environment
  limits : run.limits = p.limits
  key : hashed (.key (m.outputKey name run.environment outcomes))
  started : (m.runnable outcomes).isOk →
    origins (m.outputKey name run.environment outcomes).id = some run.origin
  ready : ∀ i c, (i, .ready c) ∈ outcomes → Present hashed origins p q c ∧ c.name = i.specifier
  failed : ∀ i e, (i, .failed e) ∈ outcomes →
    p.sources.headModule? i.specifier = none ∧ e = .notFound i.specifier

theorem Ended.present (hq : Ended hashed origins p q)
    (h : Derived (.unlinked hashed) (q.basis (.unlinked hashed) origins) o)
    (hacc : p.Acyclic o.name) (hsame : o.environment.hash = p.environment.hash) :
    Present hashed origins p q o := by
  refine ⟨h, hq.told.environment _ _ ?_ hq.environment hsame⟩
  cases h with
  | given h => exact h.elim
  | cyclic _ _ hround =>
    simp only [basis, hq.later.sources, hq.later.resolver] at hround
    exact absurd hacc (not_acc_of_leadsRound hround)
  | made h => exact h.environment

namespace Present

variable (hq : Ended hashed origins p q)

include hq

theorem head (h : Present hashed origins p q o) :
    p.sources.headModule? o.name = some o.module :=
  hq.later.sources ▸ h.derived.names.head

theorem composed (h : Present hashed origins p q o) (hacc : p.Acyclic o.name) :
    ∃ name m run outcomes, o = .make name m run outcomes ∧
      Composed hashed origins p q name m run outcomes := by
  obtain ⟨hderived, henv⟩ := h
  cases hderived with
  | given h => exact h.elim
  | cyclic _ _ hround =>
    simp only [basis, hq.later.sources, hq.later.resolver] at hround
    exact absurd hacc (not_acc_of_leadsRound hround)
  | @made name m run outcomes h hchildren =>
    have hsources : (q.basis (.unlinked hashed) origins).sources = p.sources := hq.later.sources
    have hresolver : (q.basis (.unlinked hashed) origins).resolver = p.resolver :=
      hq.later.resolver
    refine ⟨name, m, run, outcomes, rfl, ?_⟩
    exact
      { head := hsources ▸ h.head
        imports := hsources ▸ h.imports
        environment := henv
        limits := h.limits.trans hq.later.limits
        key := h.key
        started := fun hok => (h.started hok).2 trivial
        ready := fun i c hc => by
          have hdepends : p.sources.DependsOn p.resolver name c.name := by
            rw [← hsources, ← hresolver]
            exact h.dependsOn hc
          have htarget := h.target i c hc
          rw [hresolver, hq.idle.resolver, Sources.target_none] at htarget
          exact ⟨hq.present (hchildren i c hc) (hacc.inv hdepends)
            ((h.same i c hc).trans (congrArg Environment.hash henv)), (Except.ok.inj htarget).symm⟩
        failed := fun i e he => by
          have hf := h.failed i e he
          rw [hsources] at hf
          exact hf }

end Present

namespace Composed

variable {m : Module} {run : Run} {outcomes : List (Import × ImportOutcome)} {i : Import}
  {x : ImportOutcome}

theorem mem_imports (h : Composed hashed origins p q name m run outcomes)
    (hx : (i, x) ∈ outcomes) : i ∈ p.sources.knownImports name m :=
  h.imports ▸ mem_map_of_mem hx

/-- An import whose name stands for something is ready. -/
theorem ready_of_head (h : Composed hashed origins p q name m run outcomes)
    (hx : (i, x) ∈ outcomes) {m' : Module} (hm : p.sources.headModule? i.specifier = some m') :
    ∃ c, x = .ready c ∧ Present hashed origins p q c ∧ c.name = i.specifier := by
  cases x with
  | ready c => exact ⟨c, rfl, h.ready i c hx⟩
  | failed e =>
    rw [(h.failed i e hx).1] at hm
    cases hm

theorem dependsOn (h : Composed hashed origins p q name m run outcomes)
    (hidle : p.Idle) (hx : (i, x) ∈ outcomes) : p.sources.DependsOn p.resolver name i.specifier :=
  ⟨m, h.head, i, h.mem_imports hx, hidle.resolver ▸ Sources.target_none name i⟩

end Composed

/-- There is one identity for what a name stands for. -/
theorem Present.id_eq (hq : Ended hashed origins p q) (h : Present hashed origins p q o)
    (h' : Present hashed origins p q o') (hacc : p.Acyclic name) (hname : o.name = name)
    (hname' : o'.name = name) : o.id = o'.id := by
  induction hacc generalizing o o' with
  | intro name hacc ih =>
    subst hname
    obtain ⟨name, m, run, outcomes, rfl, hc⟩ := h.composed hq (.intro _ hacc)
    obtain ⟨name', m', run', outcomes', rfl, hc'⟩ := h'.composed hq (hname' ▸ .intro _ hacc)
    cases hname'
    cases hc.head.symm.trans hc'.head
    have hall : Forall₂ (fun a b => a.2.key a.1.specifier = b.2.key b.1.specifier) outcomes
        outcomes' := by
      refine forall₂_of_map (hc.imports.trans hc'.imports.symm) ?_
      rintro ⟨i, x⟩ hx ⟨j, y⟩ hy hij
      obtain rfl : i = j := hij
      have hdepends := hc.dependsOn hq.idle hx
      cases x with
      | failed e =>
        cases y with
        | failed e' => rfl
        | ready c' =>
          obtain ⟨hready, hspecifier⟩ := hc'.ready i c' hy
          have hhead := hready.head hq
          rw [hspecifier, (hc.failed i e hx).1] at hhead
          cases hhead
      | ready c =>
        obtain ⟨hready, hspecifier⟩ := hc.ready i c hx
        obtain ⟨c', rfl, hready', hspecifier'⟩ :=
          hc'.ready_of_head hy (hspecifier ▸ hready.head hq)
        exact congrArg ImportKey.output
          (ih i.specifier hdepends hready hready' hspecifier hspecifier')
    change OutputKey.id _ = OutputKey.id _
    rw [Module.outputKey, Module.outputKey, Module.keys_eq hall, hc.environment, hc'.environment]

/-- Identities correspond if those of one side are of what a name stands for, and those of the other of
the run in the place that the name has in the order. -/
def Placed (hashed : Hashed → Prop) (origins : OutputId → Option Nat) (p q : Project)
    (order : List String) (i j : Identity) : Prop :=
  i.serial = j.serial ∧ ∃ o, Present hashed origins p q o ∧ p.Acyclic o.name ∧
    origins o.id = some i.origin ∧ order[j.origin]? = some o.name

theorem placed_oneToOne (hq : Ended hashed origins p q) (horder : order.Nodup) :
    OneToOne (Placed hashed origins p q order) := by
  rintro ⟨a, n⟩ ⟨b, n'⟩ ⟨a', k⟩ ⟨b', k'⟩ ⟨hs, o, ho, hacc, ha, hb⟩ ⟨hs', o', ho', -, ha', hb'⟩
  dsimp only at hs hs' ha ha' hb hb'
  subst hs hs'
  simp only [Identity.mk.injEq, and_congr_left_iff]
  rintro rfl
  constructor
  · rintro rfl
    have hid : o.id = o'.id := hq.kept.apart _ _ _ ha ha'
    have hname : o.name = o'.name := by
      obtain ⟨key, hkey, heq, hkeyName, -⟩ := ho.derived.names.key
      obtain ⟨key', hkey', heq', hkeyName', -⟩ := ho'.derived.names.key
      cases hq.told.key hkey hkey' (heq.symm.trans (hid.trans heq'))
      exact hkeyName.symm.trans hkeyName'
    exact (getElem?_inj (List.getElem?_eq_some_iff.1 hb).1 horder).1 (by rw [hb, hb', hname])
  · rintro rfl
    have hname : o.name = o'.name := Option.some.inj (hb.symm.trans hb')
    have hid := Present.id_eq hq ho ho' hacc rfl hname.symm
    rw [hid] at ha
    exact Option.some.inj (ha.symm.trans ha')

/-- What has been run so far is all successful, and whatever is there of a name of the order is the
same. -/
structure Agrees (hashed : Hashed → Prop) (origins : OutputId → Option Nat) (p q : Project)
    (whole order : List String) (made : Table String Output) : Prop where
  ran : p.runThrough order = .ok made
  names : made.map Prod.fst = order
  there : ∀ n ∈ order, ∃ m r, p.sources.headModule? n = some m ∧ made.get? n = some r
  same : ∀ n r, made.get? n = some r → r.isOk ∧ ∀ o, Present hashed origins p q o → o.name = n →
    Parallel (SuccessesRenamed (Placed hashed origins p q whole)) o.result r.result

/-- A name stands for nothing, or fails with a fault, and with it all that is there of it. -/
structure Faulty (hashed : Hashed → Prop) (origins : OutputId → Option Nat) (p q : Project)
    (name : String) (fault : LinkError ⊕ ModuleError) : Prop where
  missing : p.sources.headModule? name = none → fault = .inl (.notFound name)
  own : ∀ e, fault = .inr e → e.Own
  fails : ∀ o, Present hashed origins p q o → o.name = name →
    ∃ e, o.result = .error e ∧ e.root = fault

namespace Agrees

variable {whole order : List String} {made : Table String Output} {m : Module} {i : Import}
  (h : Agrees hashed origins p q whole order made) (hq : Ended hashed origins p q)
  (hdependencies : ∀ d ∈ p.sources.dependencies p.resolver name, d ∈ order)

include h hq hdependencies

theorem brings (hm : p.sources.headModule? name = some m) (hi : i ∈ p.sources.knownImports name m) :
    ∃ m' r, p.sources.headModule? i.specifier = some m' ∧ made.get? i.specifier = some r ∧
      outcomeIn made i = .ready r := by
  have hdepends : p.sources.DependsOn p.resolver name i.specifier :=
    ⟨m, hm, i, hi, hq.idle.resolver ▸ Sources.target_none name i⟩
  obtain ⟨m', r, hm', hr⟩ := h.there _ (hdependencies _ (Sources.mem_dependencies.2 hdepends))
  exact ⟨m', r, hm', hr, by rw [outcomeIn, hr]⟩

/-- What is there of a name is the same as what it comes to next. -/
theorem same_next (hwhole : whole.Nodup) (hacc : p.Acyclic name)
    (hstart : order ++ [name] <+: whole) (hm : p.sources.headModule? name = some m)
    (ho : Present hashed origins p q o) (hname : o.name = name) :
    Parallel (SuccessesRenamed (Placed hashed origins p q whole)) o.result
      (Output.make name m ⟨made.length, p.environment, p.limits⟩
        ((p.sources.knownImports name m).map fun i => (i, outcomeIn made i))).result := by
  subst hname
  obtain ⟨name, m', run, outcomes, rfl, hc⟩ := ho.composed hq hacc
  cases hc.head.symm.trans hm
  have hbrought : Forall₂ (BroughtAlike (Placed hashed origins p q whole)) outcomes
      ((p.sources.knownImports name m).map fun i => (i, outcomeIn made i)) := by
    refine forall₂_of_map (f := Prod.fst) (g := Prod.fst) ?_ ?_
    · rw [hc.imports, map_map]
      exact (map_id _).symm
    · rintro ⟨i, x⟩ hx ⟨j, y⟩ hy hij
      obtain rfl : i = j := hij
      obtain ⟨j, -, heq⟩ := mem_map.1 hy
      cases heq
      obtain ⟨m', r, hm', hr, houtcome⟩ := h.brings hq hdependencies hm (hc.mem_imports hx)
      obtain ⟨c, rfl, hpresent, hspecifier⟩ := hc.ready_of_head hx hm'
      rw [houtcome]
      exact .of_parallel ((h.same _ r hr).2 c hpresent hspecifier)
  refine Output.make_renamed (placed_oneToOne hq hwhole) hc.limits hc.environment hbrought
    fun hok _ n => ⟨rfl, _, ho, hacc, hc.started hok, ?_⟩
  obtain ⟨more, rfl⟩ := hstart
  rw [← h.names, append_assoc, getElem?_append_right (by rw [length_map]), length_map, Nat.sub_self]
  rfl

/-- A module whose imports have all been run fails by itself if it fails. -/
theorem own_of_next {run : Run} {e : ModuleError} (hm : p.sources.headModule? name = some m)
    (he : (Output.make name m run
      ((p.sources.knownImports name m).map fun i => (i, outcomeIn made i))).result = .error e) :
    e.Own := by
  rcases Output.make_error he with ⟨before, i, x, after, houtcomes, -, hx⟩ | hown
  · have hmem : (i, x) ∈ (p.sources.knownImports name m).map fun i => (i, outcomeIn made i) := by
      rw [houtcomes]
      simp
    obtain ⟨j, hj, heq⟩ := mem_map.1 hmem
    cases heq
    obtain ⟨m', r, -, hr, houtcome⟩ := h.brings hq hdependencies hm hj
    obtain ⟨hok, -⟩ := h.same _ r hr
    rw [houtcome, Module.importedBy] at hx
    rw [Output.isOk] at hok
    cases hresult : r.result with
    | ok s =>
      rw [hresult] at hx
      cases hx
    | error cause =>
      rw [hresult] at hok
      cases hok
  · exact hown

/-- The next name is run, or running through ends with it. -/
theorem step (hwhole : whole.Nodup) (hacc : p.Acyclic name) (hname : name ∉ order)
    (hstart : order ++ [name] <+: whole) :
    (∃ made', Agrees hashed origins p q whole (order ++ [name]) made') ∨
      ∃ fault, p.runThrough (order ++ [name]) = .error fault ∧
        Faulty hashed origins p q name fault := by
  have hran : p.runThrough (order ++ [name]) = p.runName made name := runThrough_snoc h.ran
  cases hm : p.sources.headModule? name with
  | none =>
    rw [runName, hm] at hran
    refine .inr ⟨_, hran, fun _ => rfl, nofun, fun o ho hn => ?_⟩
    have hhead := ho.head hq
    rw [hn, hm] at hhead
    cases hhead
  | some m =>
    have hsame := fun o => h.same_next (o := o) hq hdependencies hwhole hacc hstart hm
    have hown : ∀ run e, (Output.make name m run ((p.sources.knownImports name m).map fun i =>
        (i, outcomeIn made i))).result = .error e → e.Own := fun _ _ =>
      h.own_of_next hq hdependencies hm
    rw [runName, hm] at hran
    dsimp only at hran
    generalize hr : Output.make name m _ _ = r at hran hsame
    cases hresult : r.result with
    | ok s =>
      rw [hresult] at hran hsame
      have hnone : made.get? name = none := by
        by_contra hsome
        obtain ⟨r', hr'⟩ := Option.ne_none_iff_exists'.1 hsome
        exact hname (h.names ▸ mem_map_of_mem (Table.mem_of_get? hr'))
      have hnext : Table.get? name (made ++ [(name, r)]) = some r := by
        rw [Table.get?_append, hnone]
        simp [Table.get?]
      have hearlier : ∀ n, n ≠ name → Table.get? n (made ++ [(name, r)]) = made.get? n := by
        intro n hn
        rw [Table.get?_append]
        simp [Table.get?, hn.symm]
      refine .inl ⟨_, hran, by rw [map_append, h.names]; rfl, fun n hn => ?_, fun n r' hr' => ?_⟩
      · by_cases heq : n = name
        · exact ⟨m, r, heq ▸ hm, heq ▸ hnext⟩
        · obtain ⟨m', r', hm', hr'⟩ := h.there n ((mem_append.1 hn).resolve_right
            fun hn => heq (mem_singleton.1 hn))
          exact ⟨m', r', hm', (hearlier n heq).trans hr'⟩
      · by_cases heq : n = name
        · subst heq
          cases hnext.symm.trans hr'
          exact ⟨by rw [Output.isOk, hresult], fun o ho hn => hresult ▸ hsame o ho hn⟩
        · exact h.same n r' ((hearlier n heq).symm.trans hr')
    | error e =>
      rw [hresult] at hran hsame
      refine .inr ⟨_, hran, fun hnone => ?_, fun e' he' => ?_, fun o ho hn => ?_⟩
      · rw [hm] at hnone
        cases hnone
      · cases he'
        exact hown _ _ (hr ▸ hresult)
      · have hparallel := hsame o ho hn
        generalize hx : o.result = x at hparallel
        cases hparallel
        exact ⟨e, rfl, (hown _ _ (hr ▸ hresult)).root⟩

omit hdependencies in
/-- The first faulty import counts. -/
theorem carries {before after : List String} {d : String} {fault : LinkError ⊕ ModuleError}
    (hd : p.sources.dependencies p.resolver name = before ++ d :: after)
    (hbefore : ∀ n ∈ before, n ∈ order) (hf : Faulty hashed origins p q d fault)
    (hacc : p.Acyclic name) : Faulty hashed origins p q name fault := by
  obtain ⟨m, hm, -⟩ : p.sources.DependsOn p.resolver name d := by
    rw [← Sources.mem_dependencies, hd]
    simp
  refine ⟨fun hnone => absurd (hm.symm.trans hnone) nofun, hf.own, fun o ho hname => ?_⟩
  subst hname
  obtain ⟨name, m', run, outcomes, rfl, hc⟩ := ho.composed hq hacc
  cases hc.head.symm.trans hm
  obtain ⟨before', after', hspecifiers, hbefore'⟩ :
      ∃ before' after', outcomes.map (fun e => e.1.specifier) = before' ++ d :: after' ∧
        ∀ n ∈ before', n ∈ before := by
    change p.sources.dependencies p.resolver name = _ at hd
    rw [hq.idle.resolver, Sources.dependencies_none _ hc.head, ← hc.imports, map_map] at hd
    exact exists_of_eraseDups hd
  obtain ⟨outcomesBefore, rest, rfl, rfl, hrest⟩ := map_eq_append_iff.1 hspecifiers
  obtain ⟨⟨i, x⟩, outcomesAfter, rfl, hi, -⟩ := map_eq_cons_iff.1 hrest
  dsimp only at hi
  subst hi
  have hx : ∃ e, Module.importedBy i x = .error e ∧ e.root = fault := by
    have hmem : (i, x) ∈ outcomesBefore ++ (i, x) :: outcomesAfter := by simp
    cases x with
    | failed e =>
      obtain ⟨hnone, rfl⟩ := hc.failed i e hmem
      exact ⟨_, rfl, (hf.missing hnone).symm⟩
    | ready c =>
      obtain ⟨hpresent, hspecifier⟩ := hc.ready i c hmem
      obtain ⟨e, he, hroot⟩ := hf.fails c hpresent hspecifier
      exact ⟨.failedImport i e, by rw [Module.importedBy, he]; rfl, hroot⟩
  obtain ⟨e, he, hroot⟩ := hx
  refine ⟨e, Output.make_of_first (fun j y hy => ?_) he, hroot⟩
  have hspecifier := hbefore _ (hbefore' _ (mem_map_of_mem hy))
  obtain ⟨m', r, hm', hr⟩ := h.there _ hspecifier
  obtain ⟨c, rfl, hpresent, hname⟩ := hc.ready_of_head (mem_append_left _ hy) hm'
  obtain ⟨hok, hsame⟩ := h.same _ r hr
  have hparallel := hsame c hpresent hname
  rw [Module.importedBy]
  rw [Output.isOk] at hok
  generalize c.result = x, r.result = z at hparallel hok ⊢
  cases hparallel with
  | ok _ => exact ⟨_, rfl⟩
  | error e => cases hok

end Agrees

/-- How far running through names comes: they are all run, or those up to the first faulty one. -/
inductive Comes (hashed : Hashed → Prop) (origins : OutputId → Option Nat) (p q : Project)
    (whole order order' names : List String) : Prop
  | all {made} : Agrees hashed origins p q whole order' made →
      Comes hashed origins p q whole order order' names
  | upTo {b d a between made fault} : names = b ++ d :: a →
      Agrees hashed origins p q whole between made → order <+: between →
      (∀ n ∈ b, n ∈ between) → p.runThrough order' = .error fault →
      Faulty hashed origins p q d fault → Comes hashed origins p q whole order order' names

theorem comes_of_visits {chain names whole : List String} {made : Table String Output}
    (hq : Ended hashed origins p q) (hwhole : (p.sources.graph p.resolver).Ordered whole)
    (h : (p.sources.graph p.resolver).Visits chain order names order')
    (ho : (p.sources.graph p.resolver).Ordered order) (hstart : order' <+: whole)
    (hmade : Agrees hashed origins p q whole order made) :
    Comes hashed origins p q whole order order' names := by
  induction h generalizing made with
  | nil => exact .all hmade
  | @there chain order order' name names _ hmem _ ih =>
    cases ih ho hstart hmade with
    | all hall => exact .all hall
    | upTo hnames hbetween hgrown hbefore hran hf =>
      exact .upTo (b := name :: _) (by rw [hnames, cons_append]) hbetween hgrown
        (forall_mem_cons.2 ⟨hgrown.subset hmem, hbefore⟩) hran hf
  | @fresh chain order between order' name names hname hmem hvisits hrest ihdependencies ih =>
    have hbelow := hvisits.grows ho
    have ho' := hbelow.ordered_snoc hmem
    have hgrown := (hrest.grows ho').grown
    have hacc : p.Acyclic name := by
      rw [Acyclic, ← dependsOn_graph]
      exact ho'.acc (by simp)
    have hnodup := hwhole.nodup
    rw [Sources.dependencies_graph] at hbelow ihdependencies
    have hfirst : ∀ fault, p.runThrough (between ++ [name]) = .error fault →
        Faulty hashed origins p q name fault →
        Comes hashed origins p q whole order order' (name :: names) := fun fault hran hf =>
      .upTo (b := []) rfl hmade prefix_rfl nofun (runThrough_error hran hgrown) hf
    cases ihdependencies ho ((prefix_append _ _).trans (hgrown.trans hstart)) hmade with
    | all hall =>
      rcases hall.step hq hbelow.mem hnodup hacc (fun hn => hmem (hbelow.waits name (by simp) hn))
        (hgrown.trans hstart) with ⟨made', hmade'⟩ | ⟨fault, hran, hf⟩
      · cases ih ho' hstart hmade' with
        | all hall => exact .all hall
        | upTo hnames hbetween hgrown' hbefore hran hf =>
          exact .upTo (b := name :: _) (by rw [hnames, cons_append]) hbetween
            (hbelow.grown.trans ((prefix_append _ _).trans hgrown'))
            (forall_mem_cons.2 ⟨hgrown'.subset (by simp), hbefore⟩) hran hf
      · exact hfirst fault hran hf
    | upTo hnames hbetween _ hbefore hran hf =>
      exact hfirst _ (runThrough_error hran (prefix_append _ _))
        (hbetween.carries hq hnames hbefore hf hacc)

/-- A request succeeds if all that it needs can be run through in order. If not, what it fails with
comes from the first name that stands for nothing or fails. -/
theorem poll_propagates {l : List Hashed} (h : LocalHistory l p)
    (hhead : (p.sources.head? name).isSome) (hacc : p.Acyclic name)
    (hl : Hashed.Collisionless (l ++ pollHashes name p))
    (hsized : ∀ k, .key k ∈ l ++ pollHashes name p → k.Sized) :
    ∃ order o q, p.sources.fullOrder p.resolver [name] = .ok order ∧
      (poll name).run p = (.ok (.ready o), q) ∧
      (o.isOk ↔ ∃ made, p.runThrough order = .ok made) ∧
      ∀ fault, p.runThrough order = .error fault →
        (∃ e, o.result = .error e ∧ e.root = fault) ∧ ∀ e, fault = .inr e → e.Own := by
  obtain ⟨m, hm⟩ := h.history.standing.headModule? hhead
  obtain ⟨o, q, hpoll⟩ := h.idle.poll_ready hm
  have hready : ((poll name).run p).1 = .ok (.ready o) := by rw [hpoll]
  have ht := told_of_collisionless hl hsized
  obtain ⟨⟨origins, hkept⟩, hanswers⟩ := poll_sound ht.key
    (h.kept (· ∈ l ++ pollHashes name p) (fun _ => mem_append_left _) ht.key)
    fun _ => mem_append_right _
  have hlater := poll_later name p
  have ho := hanswers o hready
  rw [hpoll] at hkept hlater ho
  have hq : Ended (· ∈ l ++ pollHashes name p) origins p q :=
    ⟨ht, h.idle, hlater, hkept, mem_append_right _ (environment_mem_pollHashes hready)⟩
  have hpresent := hq.present (hkept.derived _ (Table.mem_of_get? ho.stored)) (ho.name ▸ hacc) ho.same
  obtain ⟨order, horder⟩ : ∃ order, (p.sources.graph p.resolver).runOrder [name] = .ok order := by
    rw [Graph.runOrder_ok_iff_acc, dependsOn_graph]
    exact hacc
  have hmade : Agrees (· ∈ l ++ pollHashes name p) origins p q order [] [] :=
    ⟨rfl, rfl, nofun, nofun⟩
  refine ⟨order, o, q, by rw [Sources.fullOrder, horder]; rfl, hpoll, ?_⟩
  cases comes_of_visits hq (Graph.ordered_of_runOrder horder).1 (Graph.visits_of_runOrder horder)
    .nil prefix_rfl hmade with
  | @all made hall =>
    have hmem : name ∈ order := (Graph.ordered_of_runOrder horder).2
    obtain ⟨_, r, -, hr⟩ := hall.there name hmem
    obtain ⟨hok, hsame⟩ := hall.same name r hr
    have hparallel := hsame o hpresent ho.name
    refine ⟨⟨fun _ => ⟨made, hall.ran⟩, fun _ => ?_⟩, fun fault hfault => ?_⟩
    · rw [Output.isOk] at hok ⊢
      generalize o.result = x, r.result = z at hparallel hok ⊢
      cases hparallel with
      | ok _ => rfl
      | error e => cases hok
    · cases hall.ran.symm.trans hfault
  | @upTo before d after _ _ fault hnames _ _ _ hran hf =>
    have hd : d = name := by
      cases before with
      | nil => exact (cons.inj hnames).1.symm
      | cons _ before => exact absurd (cons.inj hnames).2.symm (by simp)
    subst hd
    obtain ⟨e, he, hroot⟩ := hf.fails o hpresent ho.name
    refine ⟨⟨fun hok => ?_, ?_⟩, fun fault' hfault => ?_⟩
    · rw [Output.isOk, he] at hok
      cases hok
    · rintro ⟨made, hmade⟩
      cases hran.symm.trans hmade
    · cases hran.symm.trans hfault
      exact ⟨⟨e, he, hroot⟩, hf.own⟩

/-- A module that imports another, which imports what is not there. -/
def lacking : Project :=
  ((start .default .default none).setSource "B" "import \"A\" as a").setSource "C"
    "import \"B\" as b"

set_option maxRecDepth 100000 in
theorem poll_propagates_lacking : ∃ order o q,
    lacking.sources.fullOrder lacking.resolver ["C"] = .ok order ∧
    (poll "C").run lacking = (.ok (.ready o), q) ∧
    (o.isOk ↔ ∃ made, lacking.runThrough order = .ok made) ∧
    (∀ fault, lacking.runThrough order = .error fault →
      (∃ e, o.result = .error e ∧ e.root = fault) ∧ ∀ e, fault = .inr e → e.Own) ∧
    order = ["A", "B", "C"] ∧ lacking.runThrough order = .error (.inl (.notFound "A")) := by
  let l : List Hashed := [.code "import \"A\" as a"] ++ [.code "import \"B\" as b"]
  have h : LocalHistory l lacking :=
    ((LocalHistory.start .default .default).setSource "B" _).setSource "C" _
  have hrun : (lacking.sources.head? "C").isSome ∧
      (lacking.sources.graph lacking.resolver).runOrder ["C"] = .ok ["A", "B", "C"] ∧
      lacking.sources.headModule? "A" = none ∧
      (((l ++ pollHashes "C" lacking).map Hashed.bytes).dedup.map Digest.sha256).Nodup ∧
      ∀ k ∈ Hashed.keys (l ++ pollHashes "C" lacking), ∀ part ∈ k.parts,
        part.utf8ByteSize < 2 ^ 64 := by
    decide +kernel
  obtain ⟨hhead, horder, hnone, hnodup, hsized⟩ := hrun
  have hacc : lacking.Acyclic "C" := by
    rw [Acyclic, ← dependsOn_graph]
    exact Graph.runOrder_ok_iff_acc.1 ⟨_, horder⟩
  obtain ⟨order, o, q, hfull, hpoll, hok, hfault⟩ := poll_propagates h hhead hacc
    (Hashed.collisionless_of_nodup hnodup) fun k hk => hsized k (mem_filterMap.2 ⟨_, hk, rfl⟩)
  have heq : order = ["A", "B", "C"] := by
    rw [Sources.fullOrder, horder] at hfull
    exact (Except.ok.inj hfull).symm
  refine ⟨order, o, q, hfull, hpoll, hok, hfault, heq, ?_⟩
  rw [heq, runThrough, foldlM_cons, runName, hnone]
  rfl

/-! Without coherence all may run through, and yet a request fails. -/

theorem runName_ok {made : Table String Output} {m : Module}
    (hm : p.sources.headModule? name = some m)
    (ho : Output.make name m ⟨made.length, p.environment, p.limits⟩
      ((p.sources.knownImports name m).map fun i => (i, outcomeIn made i)) = o)
    (hok : o.isOk) : p.runName made name = .ok (made ++ [(name, o)]) := by
  rw [runName, hm]
  dsimp only
  rw [ho]
  rw [Output.isOk] at hok
  cases hresult : o.result with
  | ok s => rfl
  | error e =>
    rw [hresult] at hok
    cases hok

namespace Compared

set_option maxRecDepth 100000 in
theorem runThrough_given (hs : Given p.sources) (hlimits : p.limits = .default) :
    ∃ made, p.runThrough ["A", "B", "D"] = .ok made := by
  have henv : p.environment = .default := hs.environment
  have hA : p.runName [] "A" = .ok [("A", supplied 0)] := by
    refine runName_ok hs.headA ?_ (by decide +kernel)
    rw [hs.importsA, henv, hlimits]
    rfl
  have hB : p.runName [("A", supplied 0)] "B" =
      .ok [("A", supplied 0), ("B", passed 1 (supplied 0))] := by
    refine runName_ok hs.headB ?_ (by decide +kernel)
    rw [hs.importsB, henv, hlimits]
    rfl
  have hD : p.runName [("A", supplied 0), ("B", passed 1 (supplied 0))] "D" =
      .ok ([("A", supplied 0), ("B", passed 1 (supplied 0))] ++
        [("D", comparison 2 (supplied 0) (passed 1 (supplied 0)))]) := by
    refine runName_ok hs.headD ?_ (by decide +kernel)
    rw [hs.importsD, henv, hlimits]
    rfl
  have hfirst : p.runThrough ["A"] = .ok [("A", supplied 0)] :=
    (runThrough_snoc (show p.runThrough [] = .ok [] from rfl)).trans hA
  exact ⟨_, (runThrough_snoc ((runThrough_snoc hfirst).trans hB)).trans hD⟩

end Compared

open Compared in
set_option maxRecDepth 100000 in
/-- All that is needed runs through, but a request fails. -/
theorem poll_fails_compared : ∃ l o q, History False l compared.asked.cleaned ∧
    compared.asked.cleaned.resolver = none ∧ compared.asked.cleaned.Acyclic "D" ∧
    Hashed.Collisionless (l ++ pollHashes "D" compared.asked.cleaned) ∧
    (∀ k, .key k ∈ l ++ pollHashes "D" compared.asked.cleaned → k.Sized) ∧
    compared.asked.cleaned.sources.fullOrder compared.asked.cleaned.resolver ["D"] =
      .ok ["A", "B", "D"] ∧
    (∃ made, compared.asked.cleaned.runThrough ["A", "B", "D"] = .ok made) ∧
    (poll "D").run compared.asked.cleaned = (.ok (.ready o), q) ∧ ¬ o.isOk := by
  have hcleaned := snapshot_cleaned given_compared snapshot_compared
  have hsources : compared.asked.cleaned.sources = compared.sources :=
    congrArg Snapshot.sources hcleaned
  have hresolver : compared.asked.cleaned.resolver = none := congrArg Snapshot.resolver hcleaned
  have hlimits : compared.asked.cleaned.limits = .default := congrArg Snapshot.limits hcleaned
  obtain ⟨-, hpoll, -, -, hhashed⟩ := asked_again given_compared snapshot_compared
  have hall : ∀ x ∈ codes ++ pollHashes "D" compared ++ pollHashes "D" compared.asked.cleaned,
      x ∈ hashes := by
    intro x hx
    rw [append_assoc] at hx
    rcases mem_append.1 hx with hx | hx
    · exact mem_append_left _ hx
    · exact hhashed x hx
  have horder : (compared.sources.graph none).runOrder ["D"] = .ok ["A", "B", "D"] := by
    decide +kernel
  refine ⟨_, _, _, history_cleaned (history_asked history), hresolver, ?_,
    collisionless.1.mono hall, fun k hk => collisionless.2 k (hall _ hk), ?_,
    runThrough_given (hsources ▸ given_compared) hlimits, Prod.ext hpoll rfl, by decide +kernel⟩
  · rw [Acyclic, ← dependsOn_graph, hsources, hresolver]
    exact Graph.runOrder_ok_iff_acc.1 ⟨_, horder⟩
  · rw [hsources, hresolver, Sources.fullOrder, horder]
    rfl

end Project

end Estimation
