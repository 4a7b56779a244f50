import Estimation.Proofs.Caching
import Estimation.Proofs.Fates
import Estimation.Proofs.Recall
import Mathlib.Data.Set.Finite.Basic

/-!
Requests and loads in any order. As the fates of names are settled, so is what becomes of each import,
and with it the identity of the output that a name has once it has one; and the runs that made outputs
were given the same.
-/

namespace Estimation

open List

theorem Project.Preserved.and {P Q : Project → Prop} (hP : Preserved P) (hQ : Preserved Q) :
    Preserved fun p => P p ∧ Q p where
  resolve importer i p hpins h := ⟨hP.resolve importer i p hpins h.1,
    hQ.resolve importer i p hpins h.2⟩
  note entry p h := ⟨hP.note entry p h.1, hQ.note entry p h.2⟩
  run p h := ⟨hP.run p h.1, hQ.run p h.2⟩
  commit o p hn h := ⟨hP.commit o p hn h.1, hQ.commit o p hn h.2⟩

namespace Project

variable {linker : LoadKey → Except LinkError Module} {p q q' r r' : Project}
  {name importer : String} {m : Module} {i : Import} {o o' : Output} {chain : List String}

/-- One name needs another for what it comes to. -/
def Needs (linker : LoadKey → Except LinkError Module) (p : Project) (a b : String) : Prop :=
  ∃ m, p.fate linker a = .ok m ∧
    ∃ i ∈ p.sources.knownImports a m, Sources.target p.resolver a i = .ok b

/-- What a name needs, and what that needs, comes to an end. -/
abbrev Grounded (linker : LoadKey → Except LinkError Module) (p : Project) (name : String) : Prop :=
  Acc (fun b a => p.Needs linker a b) name

namespace Going

theorem importFate_of_failed (h : Going linker p q) {e : LinkError} (hpin : i.pin = none)
    (hq : (resolveImport importer i).run q = (.failed e, r)) :
    p.importFate linker importer i = .error e := by
  have hfails := (resolveImport_resolves (p := q) importer i).fails e
  rw [hq] at hfails
  exact (h.importFate importer i).symm.trans (hfails rfl hpin).fate

theorem fate_of_found (h : Going linker p q) {target : String} (hpin : i.pin = none)
    (hq : (resolveImport importer i).run q = (.found target m, r)) :
    Sources.target p.resolver importer i = .ok target ∧ p.fate linker target = .ok m := by
  have hfound := (resolveImport_resolves (p := q) importer i).found target m
  rw [hq, hpin] at hfound
  obtain ⟨htarget, hm⟩ := hfound rfl
  exact ⟨h.resolver ▸ htarget, (h.fate target).symm.trans (fate_of_head hm)⟩

theorem importFate_of_found (h : Going linker p q) {target : String} (hpin : i.pin = none)
    (hq : (resolveImport importer i).run q = (.found target m, r)) :
    p.importFate linker importer i = .ok m := by
  obtain ⟨htarget, hfate⟩ := h.fate_of_found hpin hq
  rw [Project.importFate, htarget]
  exact hfate

theorem outcomes (h : Going linker p q) (hpins : p.sources.pins = []) (hfiled : Filed q)
    (hm : p.fate linker name = .ok m) (hacc : p.Grounded linker name)
    (hchain : (chain ++ [name]).IsChain (p.Needs linker))
    (hq : Returns chain name m q (.ready o) r) :
    ∃ outcomes, Forall₂ (Led (fun q => Going linker p q ∧ Filed q) (chain ++ [name]) name)
        (p.sources.knownImports name m) outcomes ∧
      o.id = (m.outputKey name p.environment outcomes).id := by
  obtain ⟨g, s, hg, hyields⟩ := hq.gathered
  have hknown : ∀ i ∈ q.sources.knownImports name m, i.pin = none := fun _ =>
    Sources.pin_of_mem_knownImports h.pins
  have hgoing : Preserved (Going linker p) := Going.preserved
  have hpreserved := hgoing.and Filed.preserved
  have henv := hg.environment
  cases g with
  | pending => cases hyields.1
  | cyclic j cycle =>
    obtain ⟨i, hi, target, htarget, ht⟩ := hg.leadsInto (fun _ => hknown) (.refl q) j cycle rfl
    rw [h.knownImports hpins] at hi
    rw [h.resolver] at ht
    have hneeds : p.Needs linker name target := ⟨m, hm, i, hi, ht⟩
    have hround := (leadsRound_cycle (isChain_concat hchain hneeds) htarget).head hneeds
    exact absurd hacc (not_acc_of_leadsRound hround)
  | settled outcomes =>
    refine ⟨outcomes, ?_, ?_⟩
    · rw [← h.knownImports hpins]
      exact hg.led hpreserved (fun _ => hknown) ⟨h, hfiled⟩ outcomes rfl
    · obtain ⟨o', heq, hstored⟩ := hyields
      cases heq
      have hs := (hg.preserves hpreserved (fun _ => hknown) ⟨h, hfiled⟩).1
      have hid : ((produce name m outcomes).run s).1.id =
          (m.outputKey name q.environment outcomes).id := by
        rw [produce_id, henv]
      have hfiles := (Files.stored hs.2 hid (.produce name m outcomes)).1
      rw [hstored, h.environment] at hfiles
      exact hfiles

theorem keys_eq {is : List Import} {chain chain' : List String}
    {outcomes outcomes' : List (Import × ImportOutcome)} (hpins : ∀ i ∈ is, i.pin = none)
    (hid : ∀ i ∈ is, ∀ target m q r q' r' o o', Sources.target p.resolver importer i = .ok target →
      p.fate linker target = .ok m → Going linker p q ∧ Filed q → Going linker p q' ∧ Filed q' →
      Returns chain target m q (.ready o) r → Returns chain' target m q' (.ready o') r' →
      o.id = o'.id)
    (hled : Forall₂ (Led (fun q => Going linker p q ∧ Filed q) chain importer) is outcomes)
    (hled' : Forall₂ (Led (fun q => Going linker p q ∧ Filed q) chain' importer) is outcomes') :
    (outcomes.map fun (i, x) => x.key i.specifier) =
      outcomes'.map fun (i, x) => x.key i.specifier := by
  induction hled generalizing outcomes' with
  | nil =>
    cases hled'
    rfl
  | cons hi _ ih =>
    cases hled' with
    | cons hi' hrest' =>
      have hrest := ih (fun j hj => hpins j (mem_cons_of_mem _ hj))
        (fun j hj => hid j (mem_cons_of_mem _ hj)) hrest'
      refine congrArg₂ cons ?_ hrest
      have hpin := hpins _ mem_cons_self
      cases hi with
      | failed h hq =>
        cases hi' with
        | failed => rfl
        | ready h' _ hq' _ =>
          cases (h.1.importFate_of_failed hpin hq).symm.trans (h'.1.importFate_of_found hpin hq')
      | ready h hr hq hready =>
        cases hi' with
        | failed h' hq' =>
          cases (h'.1.importFate_of_failed hpin hq').symm.trans (h.1.importFate_of_found hpin hq)
        | ready h' hr' hq' hready' =>
          obtain ⟨htarget, hfate⟩ := h.1.fate_of_found hpin hq
          obtain ⟨htarget', hfate'⟩ := h'.1.fate_of_found hpin hq'
          cases htarget.symm.trans htarget'
          cases hfate.symm.trans hfate'
          exact congrArg ImportKey.output
            (hid _ mem_cons_self _ _ _ _ _ _ _ _ htarget hfate hr hr' hready hready')

/-- Wherever it is asked for and whatever else was there, an output has one identity. -/
theorem id_eq (hpins : p.sources.pins = []) (hacc : p.Grounded linker name) {chain chain' : List String}
    (h : Going linker p q) (h' : Going linker p q') (hfiled : Filed q) (hfiled' : Filed q')
    (hm : p.fate linker name = .ok m) (hchain : (chain ++ [name]).IsChain (p.Needs linker))
    (hchain' : (chain' ++ [name]).IsChain (p.Needs linker))
    (hq : Returns chain name m q (.ready o) r) (hq' : Returns chain' name m q' (.ready o') r') :
    o.id = o'.id := by
  -- Other names may wait on either side, so the chains are not the same.
  induction hacc generalizing chain chain' q q' m o o' r r' with
  | intro name hacc ih =>
    obtain ⟨outcomes, hled, hid⟩ := h.outcomes hpins hfiled hm (.intro _ hacc) hchain hq
    obtain ⟨outcomes', hled', hid'⟩ := h'.outcomes hpins hfiled' hm (.intro _ hacc) hchain' hq'
    have hkeys := keys_eq (fun i => Sources.pin_of_mem_knownImports hpins) ?_ hled hled'
    · rw [hid, hid', Module.outputKey, Module.outputKey, hkeys]
    · intro i hi target m' q r q' r' o o' htarget hfate hs hs' hready hready'
      have hneeds : p.Needs linker name target := ⟨m, hm, i, hi, htarget⟩
      exact ih target hneeds hs.1 hs'.1 hs.2 hs'.2 hfate (isChain_concat hchain hneeds)
        (isChain_concat hchain' hneeds) hready hready'

theorem needs (h : Going linker p q) (hpins : p.sources.pins = []) {a b : String}
    (hab : q.sources.DependsOn q.resolver a b) : p.Needs linker a b := by
  obtain ⟨m, hm, i, hi, ht⟩ := hab
  exact ⟨m, (h.fate a).symm.trans (fate_of_head hm), i, h.knownImports hpins a m ▸ hi,
    h.resolver ▸ ht⟩

end Going

end Project

/-- What is known of outputs and imports since some state, without edits. -/
def Regime.since (linker : LoadKey → Except LinkError Module) (p : Project)
    (hashed : Hashed → Prop) : Regime where
  coherent := True
  hashed := hashed
  given o := ∃ e ∈ p.store.outputs, e.2 = o
  failed _ importer i e := p.importFate linker importer i = .error e
  first := p.runs

/-- Identities from before some run are the same, and others correspond if runs for one output gave
them. -/
def SharingSince (first : Nat) (origins origins' : OutputId → Option Nat) (i j : Identity) : Prop :=
  i = j ∧ i.origin < first ∨ Sharing origins origins' i j

theorem LeadsRound.mono {R S : String → String → Prop} (hRS : ∀ a b, R a b → S a b) {a : String}
    {chain : List String} (h : LeadsRound R a chain) : LeadsRound S a chain := by
  obtain ⟨first, between, rfl, hlinks, hreach⟩ := h
  exact ⟨first, between, rfl, hlinks.imp hRS, hreach.lift id hRS⟩

namespace Module

/-- An import with what the key of an output says of it. -/
def keyed (e : Import × ImportOutcome) : Import × ImportKey := (e.1, e.2.key e.1.specifier)

def entryOf? : Import × ImportKey → Option ProfileEntry
  | (i, .output _) => i.span.map (⟨i.text, ·⟩)
  | _ => none

variable {outcomes outcomes' : List (Import × ImportOutcome)}

theorem keyed_eq (himports : outcomes.map Prod.fst = outcomes'.map Prod.fst)
    (hkeys : (outcomes.map fun (i, x) => x.key i.specifier) =
      outcomes'.map fun (i, x) => x.key i.specifier) :
    outcomes.map keyed = outcomes'.map keyed := by
  have h := congrArg₂ zip himports hkeys
  rwa [zip_map', zip_map'] at h

theorem importEntries_keyed (outcomes : List (Import × ImportOutcome)) :
    importEntries outcomes = (outcomes.map keyed).filterMap entryOf? := by
  rw [importEntries, filterMap_map]
  refine congrArg (filterMap · outcomes) (funext ?_)
  rintro ⟨i, x⟩
  cases x with
  | failed e => rfl
  | ready o => cases hspan : i.span <;> simp [keyed, entryOf?, ImportOutcome.key, hspan]

theorem importEntries_eq (h : outcomes.map keyed = outcomes'.map keyed) :
    importEntries outcomes = importEntries outcomes' := by
  rw [importEntries_keyed, importEntries_keyed, h]

end Module

namespace Project

variable {linker : LoadKey → Except LinkError Module} {hashed : Hashed → Prop}
  {origins origins' : OutputId → Option Nat} {p q q' : Project} {name : String} {o o' : Output}
  {I : Identity → Identity → Prop}

theorem sharingSince_oneToOne {R R' : Regime} (hfirst : R.first = R'.first)
    (hp : KeptBy R origins p) (hq : KeptBy R' origins' q) :
    OneToOne (SharingSince R.first origins origins') := by
  have hleft : ∀ {i j}, Sharing origins origins' i j → ¬ i.origin < R.first := by
    rintro i j ⟨-, id, hi, -⟩ hlt
    exact absurd (hp.between id _ hi).1 (Nat.not_le_of_lt hlt)
  have hright : ∀ {i j}, Sharing origins origins' i j → ¬ j.origin < R.first := by
    rintro i j ⟨-, id, -, hj⟩ hlt
    exact absurd (hq.between id _ hj).1 (Nat.not_le_of_lt (hfirst ▸ hlt))
  rintro i j i' j' (⟨rfl, hi⟩ | hij) (⟨rfl, hi'⟩ | hij')
  · rfl
  · constructor
    · rintro rfl
      exact absurd hi (hleft hij')
    · rintro rfl
      exact absurd hi (hright hij')
  · constructor
    · rintro rfl
      exact absurd hi' (hleft hij)
    · rintro rfl
      exact absurd hi' (hright hij)
  · exact sharing_oneToOne hp.apart hq.apart hij hij'

theorem kept_since {coherent : Prop} (h : KeptBy (.plain coherent hashed) origins p) :
    KeptBy (.since linker p hashed) (fun _ => none) p where
  pins := h.pins
  code := h.code
  ids := h.ids
  derived e he := .given ⟨e, he, rfl⟩ ⟨(h.derived e he).names.head, (h.derived e he).names.key⟩
  fails _ _ _ := Fails.fate
  since := Nat.le_refl _
  between := nofun
  apart := nofun

theorem old_renamed {coherent : Prop} (hone : OneToOne I) (hold : ∀ i, i.origin < p.runs → I i i)
    (h : Derived (.plain coherent hashed) (p.basis (.plain coherent hashed) origins) o) :
    Parallel (SuccessesRenamed I) o.result o.result := by
  induction h with
  | given h => exact h.elim
  | cyclic => exact .error _
  | @made name m run outcomes h _ ih =>
    have hbrought : Forall₂ (BroughtAlike I) outcomes outcomes := by
      refine forall₂_same.2 ?_
      rintro ⟨i, x⟩ hx
      cases x with
      | failed e => exact .failed i e
      | ready c => exact .of_parallel (ih i c hx)
    exact Output.make_renamed hone rfl rfl hbrought fun hr _ n => hold _ (h.started hr).1

theorem recorded_of_renamed {x : Except ModuleError Success} (h : Parallel (SuccessesRenamed I) x x) :
    Parallel (SuccessesRecorded I) x x := by
  cases x with
  | ok s =>
    cases h with
    | ok hs => exact .ok ⟨hs, rfl⟩
  | error e => exact .error e

theorem made_since (hfiled : Filed p) (hpins : p.sources.pins = []) (h : Going linker p q)
    (hacc : p.Grounded linker o.name)
    (hd : Derived (.since linker p hashed) (q.basis (.since linker p hashed) origins) o)
    (hnew : p.store.outputs.get? o.id = none) :
    ∃ m run outcomes, o = .make o.name m run outcomes ∧
      (q.basis (.since linker p hashed) origins).Fits (.since linker p hashed) o.name m run
        outcomes := by
  cases hd with
  | given hgiven =>
    obtain ⟨e, he, rfl⟩ := hgiven
    have hsome := Table.isSome_of_mem he
    rw [← hfiled e he, hnew] at hsome
    cases hsome
  | made hfits => exact ⟨_, _, _, rfl, hfits⟩
  | cyclic _ _ hround =>
    exact absurd hacc (not_acc_of_leadsRound (hround.mono fun _ _ => h.needs hpins))

section

variable (hpins : p.sources.pins = []) (ht : Told hashed) (h : Going linker p q)
  (h' : Going linker p q') (hq : KeptBy (.since linker p hashed) origins q)
  (hq' : KeptBy (.since linker p hashed) origins' q')

include hpins ht h h' hq hq'

/-- Outputs that were made since, and have one identity, were made of the same. -/
theorem made_recorded {m m' : Module} {name name' : String} {run run' : Run}
    {outcomes outcomes' : List (Import × ImportOutcome)}
    (hfits : (q.basis (.since linker p hashed) origins).Fits (.since linker p hashed) name m run
      outcomes)
    (hfits' : (q'.basis (.since linker p hashed) origins').Fits (.since linker p hashed) name' m'
      run' outcomes')
    (hid : (Output.make name m run outcomes).id = (Output.make name' m' run' outcomes').id)
    (hready : ∀ c c', p.Needs linker name c.name → q.store.outputs.get? c.id = some c →
      q'.store.outputs.get? c'.id = some c' → c.id = c'.id →
      Parallel (SuccessesRenamed (SharingSince p.runs origins origins')) c.result c'.result) :
    Parallel (SuccessesRecorded (SharingSince p.runs origins origins'))
      (Output.make name m run outcomes).result (Output.make name' m' run' outcomes').result := by
  have hkeys := ht.key hfits.key hfits'.key hid
  simp only [Module.outputKey, OutputKey.mk.injEq] at hkeys
  obtain ⟨rfl, -, henv, himports⟩ := hkeys
  have hm : p.fate linker name = .ok m := (h.fate name).symm.trans (fate_of_head hfits.head)
  have hm' : p.fate linker name = .ok m' := (h'.fate name).symm.trans (fate_of_head hfits'.head)
  cases hm.symm.trans hm'
  replace henv := ht.environment _ _ hfits.environment hfits'.environment henv
  have hlimits : run.limits = run'.limits :=
    (hfits.limits.trans h.limits).trans (hfits'.limits.trans h'.limits).symm
  have hfst : outcomes.map Prod.fst = outcomes'.map Prod.fst := by
    rw [hfits.imports, hfits'.imports]
    exact (h.knownImports hpins name m).trans (h'.knownImports hpins name m).symm
  have hpairs := Module.keyed_eq hfst himports
  have hbrought : Forall₂ (BroughtAlike (SharingSince p.runs origins origins')) outcomes
      outcomes' := by
    refine forall₂_of_map hpairs ?_
    rintro ⟨i, x⟩ hx ⟨j, y⟩ hy hij
    obtain ⟨rfl, hkey⟩ := Prod.mk.inj hij
    cases x with
    | failed e =>
      cases y with
      | failed e' =>
        cases (hfits.failed i e hx).symm.trans (hfits'.failed i e' hy)
        exact .failed i e
      | ready c' => cases hkey
    | ready c =>
      cases y with
      | failed e' => cases hkey
      | ready c' =>
        have hi : i ∈ p.sources.knownImports name m := by
          rw [← h.knownImports hpins, ← (show _ = q.sources.knownImports name m from hfits.imports)]
          exact mem_map_of_mem hx
        have hneeds : p.Needs linker name c.name :=
          ⟨m, hm, i, hi, h.resolver ▸ hfits.target i c hx⟩
        exact .of_parallel (hready c c' hneeds (hfits.kept i c hx trivial)
          (hfits'.kept i c' hy trivial) (ImportKey.output.inj hkey))
  refine Output.make_recorded (sharingSince_oneToOne rfl hq hq') hlimits henv hbrought
    (fun hr hr' n => ?_) (Module.importEntries_eq hpairs)
  exact .inr ⟨rfl, _, (hfits.started hr).2 trivial,
    (congrArg origins' hid).trans ((hfits'.started hr').2 trivial)⟩

/-- Outputs of one identity are the same, whatever went before them. -/
theorem results_recorded {coherent : Prop} {origins₀ : OutputId → Option Nat}
    (hp : KeptBy (.plain coherent hashed) origins₀ p) (hacc : p.Grounded linker name)
    (ho : q.store.outputs.get? o.id = some o) (ho' : q'.store.outputs.get? o'.id = some o')
    (hid : o.id = o'.id) (hname : o.name = name) :
    Parallel (SuccessesRecorded (SharingSince p.runs origins origins')) o.result o'.result := by
  induction hacc generalizing o o' with
  | intro name hacc ih =>
    subst hname
    -- What was there at the start is there on both sides. What was not was made since, on either side,
    -- of imports that are the same by induction.
    cases hold : p.store.outputs.get? o.id with
    | some old =>
      cases (h.outputs _ _ hold).symm.trans ho
      cases (h'.outputs _ _ (hid ▸ hold)).symm.trans ho'
      have hone : OneToOne (SharingSince p.runs origins origins') :=
        sharingSince_oneToOne rfl hq hq'
      exact recorded_of_renamed (old_renamed hone (fun i hi => .inl ⟨rfl, hi⟩)
        (hp.derived _ (Table.mem_of_get? hold)))
    | none =>
      have hd := hq.derived _ (Table.mem_of_get? ho)
      have hd' := hq'.derived _ (Table.mem_of_get? ho')
      obtain ⟨k, hk, hk', hkname, -⟩ := hd.names.key
      obtain ⟨l, hl, hl', hlname, -⟩ := hd'.names.key
      cases ht.key hk hl (hk'.symm.trans (hid.trans hl'))
      have hacc' : p.Grounded linker o'.name := hlname.symm.trans hkname ▸ .intro _ hacc
      obtain ⟨m, run, outcomes, hmake, hfits⟩ :=
        made_since hp.ids hpins h (.intro _ hacc) hd hold
      obtain ⟨m', run', outcomes', hmake', hfits'⟩ :=
        made_since hp.ids hpins h' hacc' hd' (hid ▸ hold)
      rw [hmake, hmake'] at hid ⊢
      refine made_recorded hpins ht h h' hq hq' hfits hfits' hid fun c c' hneeds hc hc' hid => ?_
      exact (ih c.name hneeds hc hc' hid rfl).mono fun _ _ => SuccessesRecorded.toSuccessesRenamed

end

/-- A request for an output, or the end of a load that is in flight. -/
inductive Turn where
  | poll (name : String)
  | finishLoad (key : LoadKey)

namespace Turn

def action (linker : LoadKey → Except LinkError Module) : Turn → Action
  | poll name => .poll name
  | finishLoad key => .finishLoad key (linker key)

def hashes (linker : LoadKey → Except LinkError Module) (p : Project) : Turn → List Hashed
  | poll name => pollHashes name p
  | finishLoad key => loadHashes (linker key)

end Turn

def take (linker : LoadKey → Except LinkError Module) (p : Project) (turns : List Turn) : Project :=
  p.perform (turns.map (Turn.action linker))

/-- What is worked into digests while turns are taken. -/
def takeHashes (linker : LoadKey → Except LinkError Module) : Project → List Turn → List Hashed
  | _, [] => []
  | p, t :: turns => t.hashes linker p ++ takeHashes linker (p.act (t.action linker)) turns

theorem takeHashes_append (q : Project) (turns turns' : List Turn) :
    takeHashes linker q (turns ++ turns') =
      takeHashes linker q turns ++ takeHashes linker (q.take linker turns) turns' := by
  induction turns generalizing q with
  | nil => rfl
  | cons t turns ih =>
    rw [cons_append, takeHashes, takeHashes, ih, append_assoc]
    rfl

/-- What stays true of a project while nothing is edited. -/
structure Runs (linker : LoadKey → Except LinkError Module) (hashed : Hashed → Prop)
    (p q : Project) : Prop where
  going : Going linker p q
  kept : q.Kept (.since linker p hashed)

namespace Runs

theorem act (ht : Told hashed) (h : Runs linker hashed p q) {t : Turn}
    (hh : ∀ x ∈ t.hashes linker q, hashed x) : Runs linker hashed p (q.act (t.action linker)) := by
  cases t with
  | poll name => exact ⟨Going.preserved.poll name h.going, (poll_sound ht.key h.kept hh).1⟩
  | finishLoad key =>
    rw [Turn.action, Project.act]
    split
    · rename_i hkey
      have htold : ∀ m m', linker key = .ok m → q.sources.modules.get? m.hash = some m' →
          m' = m := by
        intro m m' hm hm'
        obtain ⟨_, hkept⟩ := h.kept
        have hcode : hashed (.code m.code) := hh _ (by
          rw [Turn.hashes, hm]
          exact mem_singleton.2 rfl)
        refine Module.ext (ht.code _ _ (hkept.code _ m' hm') hcode ?_)
        rw [← m'.hash_eq, ← m.hash_eq, h.going.standing.hashes _ m' hm']
      have hgoing := h.going.finishLoad hkey htold
      exact ⟨hgoing, h.kept.finishLoad hh
        ⟨fun importer i _ hf => (hgoing.importFate importer i).symm.trans hf.fate,
          fun _ _ _ _ _ _ _ => id⟩⟩
    · exact h

theorem take (ht : Told hashed) (h : Runs linker hashed p q) {turns : List Turn}
    (hh : ∀ x ∈ takeHashes linker q turns, hashed x) :
    Runs linker hashed p (q.take linker turns) := by
  induction turns generalizing q with
  | nil => exact h
  | cons t turns ih =>
    exact ih (h.act ht fun x hx => hh x (mem_append_left _ hx))
      fun x hx => hh x (mem_append_right _ hx)

theorem filed (h : Runs linker hashed p q) : Filed q := by
  obtain ⟨_, hkept⟩ := h.kept
  exact hkept.ids

end Runs

theorem grounded_of_finite
    (hfinite : {b | Relation.ReflTransGen (p.Needs linker) name b}.Finite)
    (hacyclic : ∀ b, Relation.ReflTransGen (p.Needs linker) name b →
      ¬ Relation.TransGen (p.Needs linker) b b) : p.Grounded linker name := by
  let closure := {b | Relation.ReflTransGen (p.Needs linker) name b}
  have : Finite closure := hfinite
  let below (b a : closure) : Prop := Relation.TransGen (p.Needs linker) a.1 b.1
  have : IsTrans closure below := ⟨fun _ _ _ hab hbc => hbc.trans hab⟩
  have : Std.Irrefl below := ⟨fun b => hacyclic b.1 b.2⟩
  have hwf := Finite.wellFounded_of_trans_of_irrefl below
  have hall : ∀ a : closure, p.Grounded linker a.1 := by
    intro a
    induction a using hwf.induction with
    | _ a ih => exact .intro _ fun b hab => ih ⟨b, a.2.tail hab⟩ (.single hab)
  exact hall ⟨name, .refl⟩

theorem Runs.answer (ht : Told hashed) (h : Runs linker hashed p q) {turns : List Turn}
    (hh : ∀ x ∈ takeHashes linker q (turns ++ [.poll name]), hashed x)
    (ho : ((poll name).run (q.take linker turns)).1 = .ok (.ready o)) :
    Runs linker hashed p (q.take linker turns) ∧ ∃ m r, p.fate linker name = .ok m ∧
      Returns [] name m (q.take linker turns) (.ready o) r ∧ Runs linker hashed p r ∧
      Answers r name (q.take linker turns).environment o := by
  rw [takeHashes_append] at hh
  have hq := h.take ht fun x hx => hh x (mem_append_left _ hx)
  have hpoll : ∀ x ∈ pollHashes name (q.take linker turns), hashed x := fun x hx =>
    hh x (mem_append_right _ (mem_append_left _ hx))
  refine ⟨hq, ?_⟩
  generalize q.take linker turns = q at hq hpoll ho ⊢
  have hsound := poll_sound ht.key hq.kept hpoll
  have hgoing := Going.preserved.poll name hq.going
  cases hm : q.sources.headModule? name with
  | none =>
    rw [poll_of_none hm] at ho
    cases ho
  | some m =>
    obtain ⟨answer, r, hpoll, hreturns⟩ := poll_returns hm
    rw [hpoll] at ho hsound hgoing
    cases ho
    exact ⟨m, r, (hq.going.fate name).symm.trans (fate_of_head hm), hreturns,
      ⟨hgoing, hsound.1⟩, hsound.2 o rfl⟩

/-- From one state on, without edits, the order of requests and of the ends of loads makes no
difference to an answer. Functions correspond one to one, and those that were there stay the same. -/
theorem answers_confluent {coherent : Prop} {l : List Hashed} (h : History coherent l p)
    (hflight : p.inFlight = [])
    (hfinite : {b | Relation.ReflTransGen (p.Needs linker) name b}.Finite)
    (hacyclic : ∀ b, Relation.ReflTransGen (p.Needs linker) name b →
      ¬ Relation.TransGen (p.Needs linker) b b) {turns turns' : List Turn}
    (hl : Hashed.Collisionless (l ++ takeHashes linker p (turns ++ [.poll name]) ++
      takeHashes linker p (turns' ++ [.poll name])))
    (hsized : ∀ k, .key k ∈ l ++ takeHashes linker p (turns ++ [.poll name]) ++
      takeHashes linker p (turns' ++ [.poll name]) → k.Sized)
    (ho : ((poll name).run (p.take linker turns)).1 = .ok (.ready o))
    (ho' : ((poll name).run (p.take linker turns')).1 = .ok (.ready o')) :
    o.id = o'.id ∧ ∃ I, OneToOne I ∧ (∀ i, i.origin < p.runs → I i i) ∧
      Parallel (SuccessesRecorded I) o.result o'.result := by
  have ht := told_of_collisionless hl hsized
  have hgrounded := grounded_of_finite hfinite hacyclic
  obtain ⟨origins₀, hp⟩ := h.kept (· ∈ l ++ takeHashes linker p (turns ++ [.poll name]) ++
    takeHashes linker p (turns' ++ [.poll name]))
    (fun _ hx => mem_append_left _ (mem_append_left _ hx)) ht.key
  have hgoing : Going linker p p := .start h.standing h.pins hflight
  have hstart := Runs.mk hgoing ⟨_, kept_since hp⟩
  obtain ⟨hq, m, r, hm, hreturns, hr, hanswers⟩ := hstart.answer ht
    (fun _ hx => mem_append_left _ (mem_append_right _ hx)) ho
  obtain ⟨hq', m', r', hm', hreturns', hr', hanswers'⟩ := hstart.answer ht
    (fun _ hx => mem_append_right _ hx) ho'
  cases hm.symm.trans hm'
  have hid := hq.going.id_eq h.pins hgrounded hq'.going hq.filed hq'.filed hm
    (isChain_singleton name) (isChain_singleton name) hreturns hreturns'
  obtain ⟨origins, hkept⟩ := hr.kept
  obtain ⟨origins', hkept'⟩ := hr'.kept
  refine ⟨hid, _, sharingSince_oneToOne rfl hkept hkept', fun i hi => .inl ⟨rfl, hi⟩, ?_⟩
  exact results_recorded h.pins ht hr.going hr'.going hkept hkept' hp hgrounded hanswers.stored
    hanswers'.stored hid hanswers.name

def joining : Project :=
  (start .default .default (some .byName)).setSource "main" "import \"a\" as a\nimport \"b\" as b"

def absent (key : LoadKey) : Except LinkError Module := .error (.notFound key.name)

set_option maxRecDepth 100000 in
theorem joining_needs {a b : String} (h : joining.Needs absent a b) :
    a = "main" ∧ (b = "a" ∨ b = "b") := by
  obtain ⟨m, hm, i, hi, ht⟩ := h
  have hhead := (standing_start .default .default (some .byName)).headModule?_setSource "main"
    "import \"a\" as a\nimport \"b\" as b" a nofun
  change joining.sources.headModule? a = if "main" = a then _ else none at hhead
  split at hhead <;> rename_i hmain
  · subst hmain
    rw [fate_of_head hhead] at hm
    cases hm
    have htargets : ∀ i ∈ joining.sources.knownImports "main"
        (.ofCode "import \"a\" as a\nimport \"b\" as b"),
        Sources.target joining.resolver "main" i = .ok "a" ∨
          Sources.target joining.resolver "main" i = .ok "b" := by
      decide +kernel
    refine ⟨rfl, (htargets i hi).imp (fun h => ?_) fun h => ?_⟩ <;> cases ht.symm.trans h <;> rfl
  · rw [fate, hhead] at hm
    cases hm

def joiningTurns : List Turn := [.poll "main", .finishLoad ⟨"a", none⟩, .finishLoad ⟨"b", none⟩]

def joiningTurns' : List Turn :=
  [.poll "main", .finishLoad ⟨"b", none⟩, .poll "main", .finishLoad ⟨"a", none⟩]

def joiningHashes : List Hashed :=
  [.code "import \"a\" as a\nimport \"b\" as b"] ++
    takeHashes absent joining (joiningTurns ++ [.poll "main"]) ++
    takeHashes absent joining (joiningTurns' ++ [.poll "main"])

def answer? : Except GraphError Poll → Option Output
  | .ok (.ready o) => some o
  | _ => none

theorem of_answer? {r : Except GraphError Poll} (h : (answer? r).isSome) :
    ∃ o, r = .ok (.ready o) := by
  obtain e | o | _ := r
  · cases h
  · exact ⟨o, rfl⟩
  · cases h

set_option maxRecDepth 100000 in
theorem answers_confluent_joining :
    ∃ o o', ((poll "main").run (joining.take absent joiningTurns)).1 = .ok (.ready o) ∧
      ((poll "main").run (joining.take absent joiningTurns')).1 = .ok (.ready o') ∧
      o.id = o'.id ∧ ∃ I, OneToOne I ∧ (∀ i, i.origin < joining.runs → I i i) ∧
        Parallel (SuccessesRecorded I) o.result o'.result := by
  have hrun : (answer? ((poll "main").run (joining.take absent joiningTurns)).1).isSome ∧
      (answer? ((poll "main").run (joining.take absent joiningTurns')).1).isSome ∧
      ((joiningHashes.map Hashed.bytes).dedup.map Digest.sha256).Nodup ∧
      ∀ k ∈ Hashed.keys joiningHashes, ∀ part ∈ k.parts, part.utf8ByteSize < 2 ^ 64 := by
    decide +kernel
  obtain ⟨hanswer, hanswer', hnodup, hsized⟩ := hrun
  obtain ⟨o, ho⟩ := of_answer? hanswer
  obtain ⟨o', ho'⟩ := of_answer? hanswer'
  have history : History True [.code "import \"a\" as a\nimport \"b\" as b"] joining :=
    (History.start .default .default (some .byName)).setSource "main" _
  have hfinite : {b | Relation.ReflTransGen (joining.Needs absent) "main" b}.Finite := by
    refine (Set.toFinite {"main", "a", "b"}).subset fun b hb => ?_
    rcases Relation.ReflTransGen.cases_tail hb with rfl | ⟨c, -, hcb⟩
    · exact .inl rfl
    · exact .inr (joining_needs hcb).2
  have hacyclic : ∀ b, Relation.ReflTransGen (joining.Needs absent) "main" b →
      ¬ Relation.TransGen (joining.Needs absent) b b := by
    intro b _ h
    obtain ⟨c, hbc, -⟩ := Relation.TransGen.head'_iff.1 h
    obtain ⟨d, -, hdb⟩ := Relation.TransGen.tail'_iff.1 h
    have hb := (joining_needs hdb).2
    rw [(joining_needs hbc).1] at hb
    exact absurd hb (by decide)
  exact ⟨o, o', ho, ho', answers_confluent history rfl hfinite hacyclic
    (Hashed.collisionless_of_nodup hnodup)
    (fun k hk => hsized k (mem_filterMap.2 ⟨_, hk, rfl⟩)) ho ho'⟩

end Project

end Estimation
