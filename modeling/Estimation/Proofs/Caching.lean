import Estimation.Proofs.Identity
import Estimation.Proofs.Renaming.Outputs
import Estimation.Proofs.Replies
import Estimation.Proofs.Standing
import Estimation.Proofs.Wholeness

/-!
Outputs of one identity are the same: whatever a module is run with is determined by the identity of
its output, but for the identities of functions. Of two histories without collisions in which no output
is left without what it is made of, the functions correspond one to one, since each output has one run
that it comes from.
-/

namespace Estimation

open List

/-- Both are successful, and the same but for the identities of closures in them. -/
inductive OutputsRenamed (I : Identity → Identity → Prop) : Output → Output → Prop
  | intro {o o' s s'} : o.result = .ok s → o'.result = .ok s' → SuccessesRenamed I s s' →
      OutputsRenamed I o o'

namespace OutputsRenamed

variable {I : Identity → Identity → Prop} {o o' : Output}

theorem isOk (h : OutputsRenamed I o o') : o.isOk := by
  obtain ⟨hs, -, -⟩ := h
  rw [Output.isOk, hs]

theorem of_parallel (h : Parallel (SuccessesRenamed I) o.result o'.result) (hok : o'.isOk) :
    OutputsRenamed I o o' := by
  cases hs : o.result with
  | ok s =>
    cases hs' : o'.result with
    | ok s' =>
      rw [hs, hs'] at h
      obtain ⟨hss⟩ := h
      exact .intro hs hs' hss
    | error e =>
      rw [Output.isOk, hs'] at hok
      cases hok
  | error e =>
    rw [hs] at h
    rw [Output.isOk] at hok
    generalize o'.result = x at h hok
    cases h
    cases hok

end OutputsRenamed

variable {I : Identity → Identity → Prop} {name : String} {m : Module} {run run' : Run}
  {outcomes outcomes' : List (Import × ImportOutcome)}

namespace Module

/-- Imports bring the same if they have the same keys and forms, and outputs of the same identities
are the same. -/
theorem brought_alike (hforms : (outcomes.map fun e => e.1.form) = outcomes'.map fun e => e.1.form)
    (hkeys : (outcomes.map fun (i, x) => x.key i.specifier) =
      outcomes'.map fun (i, x) => x.key i.specifier)
    (h : ∀ i x, (i, x) ∈ outcomes' → ∃ o', x = .ready o' ∧
      ∀ j o, (j, .ready o) ∈ outcomes → o.id = o'.id → OutputsRenamed I o o') :
    Forall₂ (BroughtAlike I) outcomes outcomes' := by
  induction outcomes generalizing outcomes' with
  | nil =>
    cases outcomes' with
    | nil => exact .nil
    | cons _ _ => cases hforms
  | cons e outcomes ih =>
    cases outcomes' with
    | nil => cases hforms
    | cons e' outcomes' =>
      obtain ⟨i, x⟩ := e
      obtain ⟨j, y⟩ := e'
      obtain ⟨hform, hforms'⟩ := cons.inj hforms
      obtain ⟨hkey, hkeys'⟩ := cons.inj hkeys
      obtain ⟨o', rfl, ho'⟩ := h j y mem_cons_self
      cases x with
      | failed cause => cases hkey
      | ready o =>
        obtain ⟨hs, hs', hss⟩ := ho' i o mem_cons_self (ImportKey.output.inj hkey)
        refine .cons (.of_ok hform hs hs' hss) (ih hforms' hkeys' fun j y hy => ?_)
        · obtain ⟨o', rfl, ho'⟩ := h j y (mem_cons_of_mem _ hy)
          exact ⟨o', rfl, fun i o ho => ho' i o (mem_cons_of_mem _ ho)⟩

theorem forms_of_knownImports (s : Sources) (name : String) {program : Syntax.Program}
    (hm : m.program = .ok program) : (s.knownImports name m).map Import.form =
      replicate (s.continuesOf name).length .continued ++
        program.imports.map fun i => .named i.name := by
  have hcontinued : (s.continuedImports name).map Import.form =
      replicate (s.continuesOf name).length .continued := by
    rw [Sources.continuedImports, map_map, ← map_const']
    rfl
  rw [Sources.knownImports, Sources.importsOf, namedImports, hm, ← hcontinued]
  cases s.pins.get? name with
  | none =>
    change ((s.continuedImports name ++ _).map Import.form) = _
    rw [map_append, map_map]
    rfl
  | some pins =>
    change (((s.continuedImports name ++ _).map fun i : Import => i.pinned _).map Import.form) = _
    rw [map_map, map_append, map_map]
    rfl

/-- The forms of imports are determined by the code and their number, whatever is pinned. -/
theorem forms_eq (s t : Sources) {program : Syntax.Program} (hm : m.program = .ok program)
    (hlength : (s.knownImports name m).length = (t.knownImports name m).length) :
    (s.knownImports name m).map Import.form = (t.knownImports name m).map Import.form := by
  have hs := forms_of_knownImports s name hm
  have ht := forms_of_knownImports t name hm
  have hcontinues : (s.continuesOf name).length = (t.continuesOf name).length := by
    have hs := congrArg length hs
    have ht := congrArg length ht
    simp only [length_map, length_append, length_replicate] at hs ht
    omega
  rw [hs, ht, hcontinues]

end Module

/-- Identities correspond if runs for one output gave them, in the same order. -/
def Sharing (origins origins' : OutputId → Option Nat) (i j : Identity) : Prop :=
  i.serial = j.serial ∧ ∃ id, origins id = some i.origin ∧ origins' id = some j.origin

namespace Project

variable {hashed : Hashed → Prop} {origins origins' : OutputId → Option Nat} {p q : Project}
  {o o' : Output}

theorem sharing_oneToOne
    (hapart : ∀ id id' n, origins id = some n → origins id' = some n → id = id')
    (hapart' : ∀ id id' n, origins' id = some n → origins' id' = some n → id = id') :
    OneToOne (Sharing origins origins') := by
  rintro i j i' j' ⟨hs, id, hi, hj⟩ ⟨hs', id', hi', hj'⟩
  obtain ⟨a, n⟩ := i
  obtain ⟨b, n'⟩ := j
  dsimp only at hs hs' hi hj hi' hj'
  constructor
  · rintro rfl
    cases hapart _ _ _ hi hi'
    cases hj.symm.trans hj'
    cases j'
    rw [Identity.mk.injEq]
    exact ⟨rfl, hs.symm.trans hs'⟩
  · rintro rfl
    cases hapart' _ _ _ hj hj'
    cases hi.symm.trans hi'
    cases i'
    rw [Identity.mk.injEq]
    exact ⟨rfl, hs.trans hs'.symm⟩

/-- Whether what has been hashed can be told from its digest. -/
structure Told (hashed : Hashed → Prop) : Prop where
  key : Set.InjOn OutputKey.id {k | hashed (.key k)}
  code : ∀ c d, hashed (.code c) → hashed (.code d) → Digest.ofText c = Digest.ofText d → c = d
  environment : ∀ e e', hashed (.environment e) → hashed (.environment e') → e.hash = e'.hash →
    e = e'

theorem renamed_of_id_eq (ht : Told hashed) (hp : StockedBy hashed origins p)
    (hq : StockedBy hashed origins' q) (hlimits : p.limits = q.limits)
    (ho : Composed (p.stock hashed origins) o) (ho' : Composed (q.stock hashed origins') o')
    (hid : o.id = o'.id) (hok : o'.isOk) : OutputsRenamed (Sharing origins origins') o o' := by
  induction ho' generalizing o with
  | cyclic => cases hok
  | @made name m run outcomes' h' _ ih =>
    have hready := fun i x (hx : (i, x) ∈ outcomes') => Output.ready_of_isOk hok hx
    cases ho with
    | @cyclic n m' e i error hkey =>
      have hkeys := ht.key hkey h'.key hid
      have himports : [ImportKey.cyclic i.specifier] = _ := (OutputKey.mk.inj hkeys).2.2.2
      have hmem : ImportKey.cyclic i.specifier ∈
          outcomes'.map fun (i, x) => x.key i.specifier := by
        rw [← himports]
        exact mem_singleton.2 rfl
      obtain ⟨⟨j, x⟩, hx, hkey⟩ := mem_map.1 hmem
      obtain ⟨c, rfl, -⟩ := hready j x hx
      cases hkey
    | @made n m' run' outcomes h hchildren =>
      have hkeys := ht.key h.key h'.key hid
      simp only [Module.outputKey, OutputKey.mk.injEq] at hkeys
      obtain ⟨rfl, hhash, henv, himports⟩ := hkeys
      have hcode : m'.code = m.code := ht.code _ _ h.code h'.code (by
        rw [← m'.hash_eq, ← m.hash_eq, hhash])
      cases Module.ext hcode
      replace henv := ht.environment _ _ h.environment h'.environment henv
      obtain ⟨program, hprogram⟩ := Output.program_of_isOk hok
      have hlength : outcomes.length = outcomes'.length := by
        simpa using congrArg length himports
      have hforms : (outcomes.map fun e => e.1.form) = outcomes'.map fun e => e.1.form := by
        obtain ⟨s, hs⟩ := h.imports
        obtain ⟨t, ht⟩ := h'.imports
        have hforms := Module.forms_eq s t hprogram
          (by rw [← hs, ← ht, length_map, length_map, hlength])
        rw [← hs, ← ht, map_map, map_map] at hforms
        exact hforms
      have hbrought : Forall₂ (BroughtAlike (Sharing origins origins')) outcomes outcomes' := by
        refine Module.brought_alike hforms himports fun i x hx => ?_
        obtain ⟨c', rfl, hc'⟩ := hready i x hx
        exact ⟨c', rfl, fun j c hc hid => ih i c' hx (hchildren j c hc) hid hc'⟩
      refine .of_parallel ?_ hok
      refine Output.make_renamed (sharing_oneToOne hp.apart hq.apart)
        (h.limits.trans (hlimits.trans h'.limits.symm)) henv hbrought fun hr hr' n => ?_
      exact ⟨rfl, _, h.started hr, (congrArg origins' hid).trans (h'.started hr')⟩

/-- One correspondence of identities does for all outputs of two projects: of one identity, a success is
the same as the other output but for it. -/
def SameOutputs (p q : Project) : Prop :=
  ∃ I, OneToOne I ∧ ∀ e ∈ p.store.outputs, ∀ e' ∈ q.store.outputs, e.2.id = e'.2.id →
    e.2.isOk ∨ e'.2.isOk → OutputsRenamed I e.2 e'.2

theorem Stocked.sameOutputs (ht : Told hashed) (hp : p.Stocked hashed) (hq : q.Stocked hashed)
    (hlimits : p.limits = q.limits) : SameOutputs p q := by
  obtain ⟨origins, hp⟩ := hp
  obtain ⟨origins', hq⟩ := hq
  refine ⟨Sharing origins origins', sharing_oneToOne hp.apart hq.apart, fun e he e' he' hid hok => ?_⟩
  have hd := hp.composed e he
  have hd' := hq.composed e' he'
  have hok' : e'.2.isOk := by
    rcases hok with hok | hok
    · exact (renamed_of_id_eq ht hq hp hlimits.symm hd' hd hid.symm hok).isOk
    · exact hok
  exact renamed_of_id_eq ht hp hq hlimits hd hd' hid hok'

theorem told_of_collisionless {l : List Hashed} (hl : Hashed.Collisionless l)
    (hsized : ∀ k, .key k ∈ l → k.Sized) : Told (· ∈ l) where
  key := Hashed.key_injective hl hsized
  code _ _ := Hashed.code_injective hl
  environment _ _ := Hashed.environment_injective hl

/-- A name stands for what it was given last. -/
theorem Told.headModule?_setSource (ht : Told hashed) {coherent : Prop} {l : List Hashed}
    (h : History coherent l p) (hl : ∀ x ∈ l, hashed x) (name code : String)
    (hcode : hashed (.code code)) (n : String) : (p.setSource name code).sources.headModule? n =
      if name = n then some (.ofCode code) else p.sources.headModule? n := by
  refine h.standing.headModule?_setSource name code n fun m hm => ?_
  obtain ⟨origins, hkept⟩ := h.kept hashed hl ht.key
  exact ht.code _ _ (hkept.code _ m hm) hcode (m.hash_eq ▸ h.standing.hashes _ m hm)

/-- Outputs of one identity are the same, in any two projects and when they are made anew, as long as no
output was left without those that it is made of. Where nothing is pinned, only what is cleaned away from
below others is missing there, and making an output anew gives the same identity. -/
theorem outputs_renamed (environment environment' : Environment) (limits : Limits)
    (resolver resolver' : Option Resolver) (actions actions' : List Action) :
    let s := start environment limits resolver
    let s' := start environment' limits resolver'
    let p := s.perform actions
    let l := performHashes s actions
    let l' := performHashes s' actions'
    Hashed.Collisionless (l ++ l') → (∀ k, .key k ∈ l ++ l' → k.Sized) →
      (StaysWhole l s actions →
        (StaysWhole l' s' actions' → SameOutputs p (s'.perform actions')) ∧
        ∀ name e, Hashed.Collisionless (l ++ pollHashes name (p.scratch e)) →
          (∀ k, .key k ∈ l ++ pollHashes name (p.scratch e) → k.Sized) →
          SameOutputs p ((poll name).run (p.scratch e)).2) ∧
      (AllHarmless s actions → StaysWhole l s actions ∧ ∀ e ∈ p.store.outputs, e.2.isOk →
        ∃ o, ((poll e.2.name).run (p.scratch e.2.environment)).1 = .ok (.ready o) ∧
          o.id = e.2.id) := by
  intro s s' p l l' hl hsized
  have ht := told_of_collisionless hl hsized
  have hinj : Set.InjOn OutputKey.id {k | .key k ∈ l} := ht.key.mono fun k hk => mem_append_left _ hk
  have hinj' : Set.InjOn OutputKey.id {k | .key k ∈ l'} :=
    ht.key.mono fun k hk => mem_append_right _ hk
  have hstart : History True [] s := .start environment limits resolver
  refine ⟨fun hwhole => ?_, fun hharmless => ?_⟩
  · have hp := (stocked_start (· ∈ l) environment limits resolver).perform hinj (fun _ => id) hwhole
    refine ⟨fun hwhole' => ?_, fun name e hl hsized => ?_⟩
    · have hq :=
        (stocked_start (· ∈ l') environment' limits resolver').perform hinj' (fun _ => id) hwhole'
      refine Stocked.sameOutputs ht (hp.mono fun _ => mem_append_left _)
        (hq.mono fun _ => mem_append_right _) ?_
      exact (limits_perform s actions).trans (limits_perform s' actions').symm
    · have hp := hp.mono fun x hx => mem_append_left (pollHashes name (p.scratch e)) hx
      have hq := (hp.scratch e).poll name fun _ => mem_append_right l
      exact Stocked.sameOutputs (told_of_collisionless hl hsized) hp hq
        (poll_later name (p.scratch e)).limits.symm
  · refine ⟨hstart.staysWhole hharmless hinj nofun fun _ => id, fun e he hok => ?_⟩
    exact poll_scratch (hstart.perform hharmless) hinj he hok

/-- A module that defines a function. -/
def defining : List Action := [.setSource "a" "f(x)=x", .poll "a"]

/-- Another module goes on from the old version of it, which has to be made again for this. -/
def handing : List Action := defining ++
  [.setSource "a" "1", .setSource "b" "f", .setContinues "b" ["a"],
    .setPins "b" [("a", Digest.ofText "f(x)=x")], .poll "b"]

set_option maxRecDepth 100000 in
theorem outputs_renamed_handing :
    let p := (start .default .default none).perform defining
    let q := (start .default .default none).perform handing
    SameOutputs p q ∧ SameOutputs p ((poll "a").run (p.scratch .default)).2 ∧
      (∀ e ∈ p.store.outputs,
        ∃ o, ((poll e.2.name).run (p.scratch e.2.environment)).1 = .ok (.ready o) ∧ o.id = e.2.id) ∧
      (q.store.outputs.map fun e => (e.2.name, e.2.isOk)) = [("a", true), ("b", true)] ∧
      (p.store.outputs.map fun e => e.2.id) = (q.store.outputs.map fun e => e.2.id).take 1 := by
  let s := start .default .default none
  let l := performHashes s defining
  let l' := performHashes s handing
  let l'' := pollHashes "a" ((s.perform defining).scratch .default)
  have hrun : (((l ++ (l' ++ l'')).map Hashed.bytes).dedup.map Digest.sha256).Nodup ∧
      (∀ k ∈ Hashed.keys (l ++ (l' ++ l'')), ∀ part ∈ k.parts, part.utf8ByteSize < 2 ^ 64) ∧
      (∀ e ∈ (s.perform defining).store.outputs, e.2.isOk) ∧
      ((s.perform handing).store.outputs.map fun e => (e.2.name, e.2.isOk)) =
        [("a", true), ("b", true)] ∧
      ((s.perform defining).store.outputs.map fun e => e.2.id) =
        ((s.perform handing).store.outputs.map fun e => e.2.id).take 1 := by
    decide +kernel
  obtain ⟨hnodup, hsized, hok, hoks, hids⟩ := hrun
  have hall : Hashed.Collisionless (l ++ (l' ++ l'')) := Hashed.collisionless_of_nodup hnodup
  have hsized : ∀ k, .key k ∈ l ++ (l' ++ l'') → k.Sized := fun k hk =>
    hsized k (Hashed.mem_keys.2 hk)
  have hl : l ++ l' ⊆ l ++ (l' ++ l'') := by simp
  have hl' : l ++ l'' ⊆ l ++ (l' ++ l'') := by simp
  have hinj := (told_of_collisionless hall hsized).key
  have hclears : Clears s defining := ⟨.inr rfl, .inl ⟨_, rfl⟩, trivial⟩
  have hclears' : Clears s handing := by
    refine ⟨.inr rfl, .inl ⟨_, rfl⟩, .inr ?_, .inr ?_, .inr ?_, .inr ?_, .inl ⟨_, rfl⟩, trivial⟩ <;>
      decide +kernel
  have hwhole : StaysWhole l s defining :=
    hclears.staysWhole (stocked_start _ _ _ _)
      (hinj.mono fun k hk => hl (mem_append_left _ hk)) fun _ => id
  have hwhole' : StaysWhole l' s handing :=
    hclears'.staysWhole (stocked_start _ _ _ _)
      (hinj.mono fun k hk => hl (mem_append_right _ hk)) fun _ => id
  obtain ⟨hsame, hkept⟩ := outputs_renamed .default .default .default none none defining handing
    (hall.mono hl) fun k hk => hsized k (hl hk)
  refine ⟨(hsame hwhole).1 hwhole', (hsame hwhole).2 "a" .default (hall.mono hl') fun k hk =>
    hsized k (hl' hk), fun e he => ?_, hoks, hids⟩
  exact (hkept ⟨trivial, trivial, trivial⟩).2 e he (hok e he)

/-! Without coherence a success may become a failure. Of three modules one defines a function, one hands
it on, and one fails unless what it is given by both is the same. Once the first is cleaned away from
below the second, it is not. -/

def supplying : Module := .ofCode "export f(x) = x"

def passing : Module := .ofCode "import \"A\" as a\nexport g = a.f"

def comparing : Module := .ofCode
  "import \"A\" as a\nimport \"B\" as b\nexport v = a.f == b.g ? 1 : throw(\"changed\")"

def compared : Project :=
  (((start .default .default none).setSource "A" supplying.code).setSource "B"
    passing.code).setSource "D" comparing.code

def asked (p : Project) : Project := ((poll "D").run p).2

def cleaned (p : Project) : Project := (p.clean "A").clean "D"

namespace Compared

def importA : Import := ⟨"A", .named "a", none, some ⟨⟨1, 1, 0⟩, ⟨1, 16, 15⟩⟩⟩

def importB : Import := ⟨"B", .named "b", none, some ⟨⟨2, 1, 16⟩, ⟨2, 16, 31⟩⟩⟩

def supplied (n : Nat) : Output := .make "A" supplying ⟨n, .default, .default⟩ []

def passed (n : Nat) (a : Output) : Output :=
  .make "B" passing ⟨n, .default, .default⟩ [(importA, .ready a)]

def comparison (n : Nat) (a b : Output) : Output :=
  .make "D" comparing ⟨n, .default, .default⟩ [(importA, .ready a), (importB, .ready b)]

def keyA : OutputKey := supplying.outputKey "A" .default []

def keyB : OutputKey := ⟨"B", passing.hash, Environment.default.hash, [.output keyA.id]⟩

def keyD : OutputKey :=
  ⟨"D", comparing.hash, Environment.default.hash, [.output keyA.id, .output keyB.id]⟩

def codes : List Hashed := [.code supplying.code, .code passing.code, .code comparing.code]

def hashes : List Hashed := codes ++ [.environment .default, .key keyA, .key keyB, .key keyD]

/-- What counts of the sources. -/
structure Given (s : Sources) : Prop where
  environment : s.environment = .default
  reach : s.reach = 3
  headA : s.headModule? "A" = some supplying
  headB : s.headModule? "B" = some passing
  headD : s.headModule? "D" = some comparing
  importsA : s.knownImports "A" supplying = []
  importsB : s.knownImports "B" passing = [importA]
  importsD : s.knownImports "D" comparing = [importA, importB]

/-- What counts of the states: the outputs that are there, and how many runs there were. -/
def having (s : Sources) (outputs : Table OutputId Output) (runs : Nat) : Snapshot :=
  ⟨s, none, .default, outputs, runs⟩

set_option maxRecDepth 100000 in
theorem collisionless : Hashed.Collisionless hashes ∧ ∀ k, .key k ∈ hashes → k.Sized := by
  have hhashes : ((hashes.map Hashed.bytes).dedup.map Digest.sha256).Nodup ∧
      ∀ k ∈ Hashed.keys hashes, ∀ part ∈ k.parts, part.utf8ByteSize < 2 ^ 64 := by
    decide +kernel
  exact ⟨Hashed.collisionless_of_nodup hhashes.1,
    fun k hk => hhashes.2 k (mem_filterMap.2 ⟨_, hk, rfl⟩)⟩

theorem told : Told (· ∈ hashes) := told_of_collisionless collisionless.1 collisionless.2

theorem ids_ne : keyA.id ≠ keyB.id ∧ keyA.id ≠ keyD.id ∧ keyB.id ≠ keyD.id := by
  have hne : ∀ {k k'}, .key k ∈ hashes → .key k' ∈ hashes → k.name ≠ k'.name → k.id ≠ k'.id :=
    fun hk hk' hname heq => hname (congrArg OutputKey.name (told.key hk hk' heq))
  refine ⟨hne ?_ ?_ ?_, hne ?_ ?_ ?_, hne ?_ ?_ ?_⟩ <;>
    simp [hashes, codes, keyA, keyB, keyD, Module.outputKey]

theorem history : History False codes compared :=
  (((History.start .default .default none).setSource "A" _).setSource "B" _).setSource "D" _

set_option maxRecDepth 100000 in
theorem given_compared : Given compared.sources := by
  have h₀ : History False [] (start .default .default none) := .start ..
  have h₁ := h₀.setSource "A" supplying.code
  have h₂ := h₁.setSource "B" passing.code
  have hA := told.headModule?_setSource h₀ (by simp) "A" supplying.code (by simp [hashes, codes])
  have hB := told.headModule?_setSource h₁ (by simp [hashes, codes]) "B" passing.code
    (by simp [hashes, codes])
  have hD := told.headModule?_setSource h₂ (by simp [hashes, codes]) "D" comparing.code
    (by simp [hashes, codes])
  exact ⟨rfl, by decide +kernel, (hD "A").trans ((hB "A").trans (hA "A")),
    (hD "B").trans (hB "B"), hD "D", by decide +kernel, by decide +kernel, by decide +kernel⟩

section

variable {s : Sources} (hs : Given s) {depth n : Nat} {chain : List String}
  {outputs : Table OutputId Output} {a b : Output}

theorem supplied_id : (supplied n).id = keyA.id := rfl

theorem passed_id (ha : a.id = keyA.id) : (passed n a).id = keyB.id := by
  rw [keyB, ← ha]
  rfl

theorem comparison_id (ha : a.id = keyA.id) (hb : b.id = keyB.id) :
    (comparison n a b).id = keyD.id := by
  rw [keyD, ← ha, ← hb]
  rfl

include hs

theorem environment_mem : .environment (having s outputs n).sources.environment ∈ hashes := by
  change .environment s.environment ∈ hashes
  rw [hs.environment]
  simp [hashes, codes]

theorem settling_nil : Settling (· ∈ hashes) depth chain "A"
    ((having s outputs n).sources.knownImports "A" supplying) (having s outputs n) []
    (having s outputs n) :=
  hs.importsA ▸ .nil

theorem key_supplying :
    supplying.outputKey "A" (having s outputs n).sources.environment [] = keyA :=
  hs.environment ▸ rfl

theorem key_passing (ha : a.id = keyA.id) :
    passing.outputKey "B" (having s outputs n).sources.environment [(importA, .ready a)] = keyB := by
  rw [keyB, ← ha, ← hs.environment]
  rfl

theorem key_comparing (ha : a.id = keyA.id) (hb : b.id = keyB.id) :
    comparing.outputKey "D" (having s outputs n).sources.environment
      [(importA, .ready a), (importB, .ready b)] = keyD := by
  rw [keyD, ← ha, ← hb, ← hs.environment]
  rfl

set_option maxRecDepth 100000 in
theorem replying_supplied (hn : outputs.get? keyA.id = none) :
    Replying (· ∈ hashes) (depth + 1) chain "A" supplying (having s outputs n) (supplied n)
      (having s (outputs ++ [(keyA.id, supplied n)]) (n + 1)) := by
  refine .made (settling_nil hs) (key_supplying hs) (environment_mem hs) (by simp [hashes, codes])
    rfl hn (by decide +kernel) ?_
  rw [supplied, ← hs.environment]
  rfl

/-- The function is there already. -/
theorem settling_supplied (hchain : "A" ∉ chain) (ha : outputs.get? keyA.id = some a) :
    Settling (· ∈ hashes) (depth + 1) chain "B"
      ((having s outputs n).sources.knownImports "B" passing) (having s outputs n)
      [(importA, .ready a)] (having s outputs n) := by
  refine hs.importsB ▸ .cons rfl hs.headA hchain ?_ .nil
  exact .kept (settling_nil hs) (key_supplying hs) (environment_mem hs) (by simp [hashes, codes]) ha

theorem replying_passed (hchain : "A" ∉ chain ++ ["B"]) (ha : outputs.get? keyA.id = some a)
    (hid : a.id = keyA.id) (hn : outputs.get? keyB.id = none)
    (hok : (passing.runnable [(importA, .ready a)]).isOk) :
    Replying (· ∈ hashes) (depth + 2) chain "B" passing (having s outputs n) (passed n a)
      (having s (outputs ++ [(keyB.id, passed n a)]) (n + 1)) := by
  refine .made (settling_supplied hs hchain ha) (key_passing hs hid) (environment_mem hs)
    (by simp [hashes, codes]) rfl hn hok ?_
  rw [passed, ← hs.environment]
  rfl

theorem replying_passed_kept (hchain : "A" ∉ chain ++ ["B"]) (ha : outputs.get? keyA.id = some a)
    (hid : a.id = keyA.id) (hb : outputs.get? keyB.id = some b) :
    Replying (· ∈ hashes) (depth + 2) chain "B" passing (having s outputs n) b
      (having s outputs n) :=
  .kept (settling_supplied hs hchain ha) (key_passing hs hid) (environment_mem hs)
    (by simp [hashes, codes]) hb

theorem replying_comparison {outputs₁ outputs₂ : Table OutputId Output} {n₁ n₂ : Nat}
    (ha : Replying (· ∈ hashes) 2 ([] ++ ["D"]) "A" supplying (having s outputs n) a
      (having s outputs₁ n₁))
    (hb : Replying (· ∈ hashes) 2 ([] ++ ["D"]) "B" passing (having s outputs₁ n₁) b
      (having s outputs₂ n₂))
    (hida : a.id = keyA.id) (hidb : b.id = keyB.id) (hn : outputs₂.get? keyD.id = none)
    (hok : (comparing.runnable [(importA, .ready a), (importB, .ready b)]).isOk) :
    Replying (· ∈ hashes) 3 [] "D" comparing (having s outputs n) (comparison n₂ a b)
      (having s (outputs₂ ++ [(keyD.id, comparison n₂ a b)]) (n₂ + 1)) := by
  have hsettling : Settling (· ∈ hashes) 2 ([] ++ ["D"]) "D"
      ((having s outputs n).sources.knownImports "D" comparing) (having s outputs n)
      [(importA, .ready a), (importB, .ready b)] (having s outputs₂ n₂) := by
    refine hs.importsD ▸ .cons rfl hs.headA (by simp [importA]) ha ?_
    exact .cons rfl hs.headB (by simp [importB]) hb .nil
  refine .made hsettling (key_comparing hs hida hidb) (environment_mem hs)
    (by simp [hashes, codes]) rfl hn hok ?_
  rw [comparison, ← hs.environment]
  rfl

set_option maxRecDepth 100000 in
/-- At first all three are run. -/
theorem replying_first : Replying (· ∈ hashes) 3 [] "D" comparing (having s [] 0)
    (comparison 2 (supplied 0) (passed 1 (supplied 0)))
    (having s [(keyA.id, supplied 0), (keyB.id, passed 1 (supplied 0)),
      (keyD.id, comparison 2 (supplied 0) (passed 1 (supplied 0)))] 3) := by
  obtain ⟨hAB, hAD, hBD⟩ := ids_ne
  have ha : Replying (· ∈ hashes) 2 ([] ++ ["D"]) "A" supplying (having s [] 0) (supplied 0)
      (having s [(keyA.id, supplied 0)] 1) :=
    replying_supplied hs rfl
  have hb : Replying (· ∈ hashes) 2 ([] ++ ["D"]) "B" passing (having s [(keyA.id, supplied 0)] 1)
      (passed 1 (supplied 0))
      (having s [(keyA.id, supplied 0), (keyB.id, passed 1 (supplied 0))] 2) := by
    refine replying_passed hs (by simp) ?_ supplied_id ?_ (by decide +kernel)
    · simp [Table.get?]
    · simp [Table.get?, hAB]
  refine replying_comparison hs ha hb supplied_id (passed_id supplied_id) ?_ (by decide +kernel)
  simp [Table.get?, hAD, hBD]

set_option maxRecDepth 100000 in
/-- Later what hands the function on is still there, and was made with another one. -/
theorem replying_again : Replying (· ∈ hashes) 3 [] "D" comparing
    (having s [(keyB.id, passed 1 (supplied 0))] 3)
    (comparison 4 (supplied 3) (passed 1 (supplied 0)))
    (having s [(keyB.id, passed 1 (supplied 0)), (keyA.id, supplied 3),
      (keyD.id, comparison 4 (supplied 3) (passed 1 (supplied 0)))] 5) := by
  obtain ⟨hAB, hAD, hBD⟩ := ids_ne
  have ha : Replying (· ∈ hashes) 2 ([] ++ ["D"]) "A" supplying
      (having s [(keyB.id, passed 1 (supplied 0))] 3) (supplied 3)
      (having s [(keyB.id, passed 1 (supplied 0)), (keyA.id, supplied 3)] 4) :=
    replying_supplied hs (by simp [Table.get?, hAB.symm])
  have hb : Replying (· ∈ hashes) 2 ([] ++ ["D"]) "B" passing
      (having s [(keyB.id, passed 1 (supplied 0)), (keyA.id, supplied 3)] 4) (passed 1 (supplied 0))
      (having s [(keyB.id, passed 1 (supplied 0)), (keyA.id, supplied 3)] 4) := by
    refine replying_passed_kept (a := supplied 3) hs (by simp) ?_ supplied_id ?_
    · simp [Table.get?, hAB.symm]
    · simp [Table.get?]
  refine replying_comparison hs ha hb supplied_id (passed_id supplied_id) ?_ (by decide +kernel)
  simp [Table.get?, hAD, hBD]

omit hs in
theorem poll_of_having {p : Project} (hs : Given p.sources) {o : Output} {c : Snapshot}
    (h : Replying (· ∈ hashes) 3 [] "D" comparing (having p.sources outputs n) o c)
    (hp : p.snapshot = having p.sources outputs n) :
    ((poll "D").run p).1 = .ok (.ready o) ∧ p.asked.snapshot = c ∧
      ∀ x ∈ pollHashes "D" p, x ∈ hashes :=
  poll_of_replying hs.headD (hs.reach ▸ h) hp

end

theorem snapshot_setSource {p : Project} (h : p.snapshot = having p.sources [] 0)
    (name code : String) :
    (p.setSource name code).snapshot = having (p.setSource name code).sources [] 0 := by
  rw [snapshot, having, Snapshot.mk.injEq] at h ⊢
  obtain ⟨-, hresolver, hlimits, houtputs, hruns⟩ := h
  refine ⟨rfl, hresolver, hlimits, ?_, hruns⟩
  change Event.without _ (Event.without _ p.store.outputs) = []
  rw [houtputs]
  rfl

theorem snapshot_compared : compared.snapshot = having compared.sources [] 0 :=
  snapshot_setSource (snapshot_setSource (snapshot_setSource rfl _ _) _ _) _ _

theorem snapshot_cleaned {p : Project} (hs : Given p.sources)
    (hp : p.snapshot = having p.sources [] 0) :
    p.asked.cleaned.snapshot = having p.sources [(keyB.id, passed 1 (supplied 0))] 3 := by
  rw [cleaned, snapshot_clean, snapshot_clean, (poll_of_having hs (replying_first hs) hp).2.1]
  rfl

/-- Asked for again, the comparison is made with another function on one side. -/
theorem asked_again {p : Project} (hs : Given p.sources) (hp : p.snapshot = having p.sources [] 0) :
    p.asked.store.outputs = [(keyA.id, supplied 0), (keyB.id, passed 1 (supplied 0)),
      (keyD.id, comparison 2 (supplied 0) (passed 1 (supplied 0)))] ∧
    ((poll "D").run p.asked.cleaned).1 =
      .ok (.ready (comparison 4 (supplied 3) (passed 1 (supplied 0)))) ∧
    p.asked.cleaned.asked.store.outputs = [(keyB.id, passed 1 (supplied 0)), (keyA.id, supplied 3),
      (keyD.id, comparison 4 (supplied 3) (passed 1 (supplied 0)))] ∧
    p.asked.cleaned.asked.limits = p.asked.limits ∧
    ∀ x ∈ pollHashes "D" p ++ pollHashes "D" p.asked.cleaned, x ∈ hashes := by
  obtain ⟨-, hasked, hhashed⟩ := poll_of_having hs (replying_first hs) hp
  have hcleaned := snapshot_cleaned hs hp
  have hsources : p.asked.cleaned.sources = p.sources := congrArg Snapshot.sources hcleaned
  rw [← hsources] at hs hcleaned
  obtain ⟨hpoll, hagain, hhashed'⟩ := poll_of_having hs (replying_again hs) hcleaned
  exact ⟨congrArg Snapshot.outputs hasked, hpoll, congrArg Snapshot.outputs hagain,
    (congrArg Snapshot.limits hagain).trans (congrArg Snapshot.limits hasked).symm,
    fun x hx => (mem_append.1 hx).elim (hhashed x) (hhashed' x)⟩

theorem history_asked {p : Project} {l : List Hashed} (h : History False l p) :
    History False (l ++ pollHashes "D" p) p.asked := h.poll "D"

theorem history_cleaned {p : Project} {l : List Hashed} (h : History False l p) :
    History False l p.cleaned :=
  (h.clean False.elim).clean False.elim

end Compared

open Compared in
set_option maxRecDepth 100000 in
/-- A success and a failure of one identity. -/
theorem outputs_not_renamed_compared : ∃ l l', History False l compared.asked ∧
    History False l' compared.asked.cleaned.asked ∧
    compared.asked.limits = compared.asked.cleaned.asked.limits ∧
    Hashed.Collisionless (l ++ l') ∧ (∀ k, .key k ∈ l ++ l' → k.Sized) ∧
    ∃ e ∈ compared.asked.store.outputs, ∃ e' ∈ compared.asked.cleaned.asked.store.outputs,
      e.2.id = e'.2.id ∧ e.2.isOk ∧ ¬ e'.2.isOk := by
  obtain ⟨hasked, -, hagain, hlimits, hhashed⟩ := asked_again given_compared snapshot_compared
  have hp := history_asked history
  have hq := history_asked (history_cleaned hp)
  have hmem : ∀ x ∈ codes ++ pollHashes "D" compared, x ∈ hashes := fun x hx =>
    (mem_append.1 hx).elim (mem_append_left _) fun hx => hhashed x (mem_append_left _ hx)
  have hmem' : ∀ x ∈ codes ++ pollHashes "D" compared ++ pollHashes "D" compared.asked.cleaned,
      x ∈ hashes := fun x hx =>
    (mem_append.1 hx).elim (hmem x) fun hx => hhashed x (mem_append_right _ hx)
  have hall := fun x hx => (mem_append.1 hx).elim (hmem x) (hmem' x)
  refine ⟨_, _, hp, hq, hlimits.symm, collisionless.1.mono hall,
    fun k hk => collisionless.2 k (hall _ hk), ?_⟩
  refine ⟨(keyD.id, comparison 2 (supplied 0) (passed 1 (supplied 0))), ?_,
    (keyD.id, comparison 4 (supplied 3) (passed 1 (supplied 0))), ?_, ?_, ?_, ?_⟩
  · simp [hasked]
  · simp [hagain]
  · exact (comparison_id supplied_id (passed_id supplied_id)).trans
      (comparison_id supplied_id (passed_id supplied_id)).symm
  · decide +kernel
  · decide +kernel

end Project

end Estimation
