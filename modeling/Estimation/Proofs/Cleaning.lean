import Estimation.Proofs.Heads
import Estimation.Proofs.Repetition
import Estimation.Proofs.Unlinked

/-!
What stays when all is cleaned: the outputs under names that stand for nothing. They were made because
an import that means the name was pinned to their version.
-/

namespace Estimation

open List

theorem Sources.isSome_head?_iff {s : Sources} {name : String} :
    (s.head? name).isSome ↔ name ∈ s.names := by
  refine ⟨mem_names_of_head?, fun h => ?_⟩
  obtain ⟨entry, hentry, rfl⟩ := mem_map.1 h
  rw [head?, Bindings.get?_eq_get?]
  exact Table.isSome_of_mem hentry

namespace Action

/-- An action by which an import that means a name is pinned to a version. -/
def Pins (resolver : Option Resolver) (name hash : String) : Action → Prop
  | .setPins importer pins => ∃ i : Import, pins.get? i.specifier = some hash ∧
      Sources.target resolver importer i = .ok name
  | _ => False

theorem eq_removeSource {p : Project} {n : String} {a : Action} (h : a.edit? p n = some none) :
    a = .removeSource n := by
  cases a with
  | setSource _ _ =>
    rw [edit?] at h
    split at h <;> cases h
  | moveHead _ _ =>
    rw [edit?] at h
    split at h <;> cases h
  | removeSource name =>
    rw [edit?] at h
    split at h
    · next heq => rw [heq]
    · cases h
  | _ => cases h

end Action

namespace Project

variable {p q r : Project} {name importer n hash : String} {m : Module} {i : Import} {o : Output}
  {id : OutputId} {e : OutputId × Output} {actions : List Action} {resolver : Option Resolver}
  {d : Demand} {found : ImportTarget}

namespace Demand

/-- Steps of a request that only store outputs of what it visits. -/
structure Fills (d : Demand) (p q : Project) : Prop extends Late p q where
  stores : ∀ e ∈ q.store.outputs, e ∈ p.store.outputs ∨ d.Visits e.2.name e.2.module

namespace Fills

theorem refl (p : Project) : d.Fills p p := ⟨.refl p, fun _ => .inl⟩

theorem trans (h : d.Fills p q) (h' : d.Fills q r) : d.Fills p r :=
  ⟨h.toLate.trans h'.toLate, fun e he => (h'.stores e he).elim (h.stores e) .inr⟩

theorem resolved (h : (resolveImport importer i).run p = (found, q)) : d.Fills p q := by
  have houtputs := (resolveImport_resolves (p := p) importer i).quiet.outputs
  rw [h] at houtputs
  exact ⟨(Reads.of_run h).late, fun e he => .inl (houtputs ▸ he)⟩

theorem stored {make : Work Output} (h : (Project.stored id make).run p = (o, q))
    (hid : (make.run p).1.id = id) (hmake : ∃ runs, (make.run p).2 = { p with runs })
    (hvisits : d.Visits (make.run p).1.name (make.run p).1.module) : d.Fills p q := by
  refine ⟨(Holds.stored (d := d) h hid hmake).late, fun e he => ?_⟩
  rcases stored_cases h with ⟨-, rfl⟩ | ⟨-, rfl, rfl⟩
  · exact .inl he
  · rcases Table.mem_set he with rfl | he
    · exact .inr hvisits
    · obtain ⟨runs, hmake⟩ := hmake
      rw [hmake] at he
      exact .inl he

theorem stepwise : d.Stepwise d.Fills where
  late h := h.toLate
  refl := .refl
  trans h h' := h.trans h'
  resolved _ _ h := .resolved h
  noted _ chain := ⟨(Still.cyclicImport chain).late, fun _ => .inl⟩
  stored h hid hmake hvisits := .stored h hid hmake hvisits

end Fills

end Demand

/-- What is asked for under a name is what it stands for, or is pinned. -/
theorem Demand.Visits.stands_or_pinned (hd : Standing d.project)
    (hm : d.project.sources.headModule? d.name = some d.m) (h : d.Visits n m) :
    (d.project.sources.head? n).isSome ∨ ∃ importer i,
      d.project.sources.pin? importer i.specifier = some m.hash ∧
        Sources.target d.project.resolver importer i = .ok n := by
  cases h with
  | asked => exact .inl (Sources.head?_of_headModule? hm)
  | @imported importer m' i target m _ hi ht hfind =>
    have hpin := Sources.pin_eq_of_mem_knownImports hi
    cases hi' : i.pin with
    | none =>
      rw [hi'] at hfind
      exact .inl (Sources.head?_of_headModule? hfind)
    | some pin =>
      rw [hi'] at hfind hpin
      obtain rfl := hd.hashes pin m hfind
      split at hpin
      · exact .inr ⟨importer, i, hpin.symm, ht⟩
      · cases hpin

theorem pin?_act {a : Action} {specifier : String}
    (h : (p.act a).sources.pin? importer specifier = some hash) :
    p.sources.pin? importer specifier = some hash ∨
      ∃ pins : Bindings String, a = .setPins importer pins ∧ pins.get? specifier = some hash := by
  cases a with
  | setPins name pins =>
    change (Table.get? importer (p.sources.pins.set name pins)).bind _ = _ at h
    rw [Table.get?_set] at h
    split at h
    · next heq => exact .inr ⟨pins, heq ▸ rfl, h⟩
    · exact .inl h
  | removeSource name =>
    change (Table.get? importer (p.sources.pins.erase name)).bind _ = _ at h
    rw [Table.get?_erase] at h
    split at h
    · cases h
    · exact .inl h
  | moveHead name other =>
    rcases moveHead_cases p name other with ⟨-, hq⟩ | ⟨-, hq⟩ <;> rw [hq] at h <;> exact .inl h
  | poll name => exact .inl ((poll_later name p).sources ▸ h)
  | startLoad key => exact .inl ((Quiet.startLoad_nil key).sources ▸ h)
  | finishLoad key result =>
    rw [act] at h
    split at h <;> exact .inl h
  | _ => exact .inl h

/-- Only what is removed stands for nothing any more. -/
theorem isSome_head?_act (h : (p.sources.head? n).isSome) (a : Action) :
    ((p.act a).sources.head? n).isSome ∨ a = .removeSource n := by
  cases hedit : a.edit? p n with
  | none =>
    rw [head?_act_of_none hedit, Option.isSome_or, h]
    exact .inl rfl
  | some given =>
    cases given with
    | none => exact .inr (Action.eq_removeSource hedit)
    | some hash => exact .inl (Option.isSome_of_eq_some (head?_act_of_edit hedit))

/-- Names under which outputs are stored stand for something, or have been pinned, and the pins that
count have been given. -/
structure Rooted (resolver : Option Resolver) (actions : List Action) (p : Project) : Prop where
  pins : ∀ importer specifier hash, p.sources.pin? importer specifier = some hash →
    ∃ pins : Bindings String, .setPins importer pins ∈ actions ∧ pins.get? specifier = some hash
  outputs : ∀ e ∈ p.store.outputs, (p.sources.head? e.2.name).isSome ∨
    ∃ a ∈ actions, a.Pins resolver e.2.name e.2.module.hash

namespace Rooted

theorem poll (h : Rooted resolver actions p) (hp : Standing p) (hr : p.resolver = resolver)
    (name : String) : Rooted resolver actions ((Project.poll name).run p).2 := by
  cases hm : p.sources.headModule? name with
  | none => rwa [poll_of_none hm]
  | some m =>
    obtain ⟨answer, q, hpoll, hreturns⟩ := poll_returns hm
    have hfills : (⟨p, name, m⟩ : Demand).Fills p q :=
      hreturns.stepwise Demand.Fills.stepwise (.refl p) .asked
    rw [hpoll]
    refine ⟨hfills.sources ▸ h.pins, fun e he => ?_⟩
    rw [hfills.sources]
    rcases hfills.stores e he with he | hvisits
    · exact h.outputs e he
    · refine (hvisits.stands_or_pinned hp hm).imp_right ?_
      rintro ⟨importer, i, hpin, ht⟩
      obtain ⟨pins, hmem, hget⟩ := h.pins importer i.specifier _ hpin
      exact ⟨_, hmem, i, hget, hr ▸ ht⟩

/-- A name that is removed loses its outputs. -/
theorem edited (h : Rooted resolver actions p) {a : Action} (ha : ∀ name, a ≠ .poll name) :
    Rooted resolver (actions ++ [a]) (p.act a) where
  pins importer specifier hash hpin := by
    rcases pin?_act hpin with hpin | ⟨pins, rfl, hget⟩
    · obtain ⟨pins, hmem, hget⟩ := h.pins importer specifier hash hpin
      exact ⟨pins, mem_append_left _ hmem, hget⟩
    · exact ⟨pins, mem_append_right _ (mem_singleton.2 rfl), hget⟩
  outputs e he := by
    rcases h.outputs e (mem_outputs_of_act ha he) with hhead | ⟨b, hb, hpins⟩
    · rcases isSome_head?_act hhead a with hhead | rfl
      · exact .inl hhead
      · exact absurd (mem_singleton.2 rfl) (Event.mem_without.1 he).2
    · exact .inr ⟨b, mem_append_left _ hb, hpins⟩

theorem mono {actions' : List Action} (h : Rooted resolver actions p)
    (hsub : ∀ a ∈ actions, a ∈ actions') : Rooted resolver actions' p where
  pins importer specifier hash hpin :=
    (h.pins importer specifier hash hpin).imp fun _ hpins => ⟨hsub _ hpins.1, hpins.2⟩
  outputs e he := (h.outputs e he).imp_right fun ⟨a, ha, hpins⟩ => ⟨a, hsub a ha, hpins⟩

theorem perform (actions : List Action) (environment : Environment) (limits : Limits) :
    Rooted resolver actions ((start environment limits resolver).perform actions) := by
  induction actions using List.reverseRecOn with
  | nil => exact ⟨nofun, nofun⟩
  | append_singleton actions a ih =>
    have hp := (standing_start environment limits resolver).perform actions
    have hr : ((start environment limits resolver).perform actions).resolver = resolver :=
      perform_resolver _ actions
    rw [perform_append]
    cases a with
    | poll name => exact (ih.poll hp hr name).mono fun _ => mem_append_left _
    | _ => exact ih.edited nofun

end Rooted

theorem perform_poll (p : Project) (actions : List Action) (name : String) :
    p.perform (actions ++ [.poll name]) = ((Project.poll name).run (p.perform actions)).2 := by
  rw [perform_append]
  rfl

theorem mem_cleanAll : e ∈ p.cleanAll.store.outputs ↔
    e ∈ p.store.outputs ∧ p.sources.head? e.2.name = none := by
  rw [← Option.not_isSome_iff_eq_none, Sources.isSome_head?_iff]
  exact Event.mem_without

/-- After all has been cleaned, just the outputs stay under names that stand for nothing. An import that
means the name has been pinned to the version; so nothing stays as long as what is pinned stands for
something. -/
theorem cleanAll_leaves (environment : Environment) (limits : Limits) (resolver : Option Resolver)
    (actions : List Action) :
    let p := (start environment limits resolver).perform actions
    (∀ e, e ∈ p.cleanAll.store.outputs ↔
      e ∈ p.store.outputs ∧ p.sources.head? e.2.name = none) ∧
    (∀ e ∈ p.cleanAll.store.outputs, ∃ a ∈ actions, a.Pins resolver e.2.name e.2.module.hash) ∧
    ((∀ a ∈ actions, ∀ name hash, a.Pins resolver name hash → (p.sources.head? name).isSome) →
      p.cleanAll.store.outputs = []) := by
  intro p
  have hpinned : ∀ e ∈ p.cleanAll.store.outputs,
      ∃ a ∈ actions, a.Pins resolver e.2.name e.2.module.hash := by
    intro e he
    obtain ⟨he, hnone⟩ := mem_cleanAll.1 he
    refine ((Rooted.perform actions environment limits).outputs e he).resolve_left fun hhead => ?_
    rw [hnone] at hhead
    cases hhead
  refine ⟨fun e => mem_cleanAll, hpinned, fun hheads => ?_⟩
  refine eq_nil_iff_forall_not_mem.2 fun e he => ?_
  obtain ⟨a, ha, hpins⟩ := hpinned e he
  have hhead := hheads a ha _ _ hpins
  rw [(mem_cleanAll.1 he).2] at hhead
  cases hhead

namespace Cleaning

/-- A module imports a version that its name does not stand for any more. -/
def pinning : List Action :=
  [.setSource "lib" "true", .setSource "lib" "false", .setSource "main" "import \"lib\" as lib",
    .setPins "main" [("lib", Digest.ofText "true")]]

def names (p : Project) : List String := p.store.outputs.map fun e => e.2.name

theorem pins_pinning {a : Action} (ha : a ∈ pinning ++ [.poll "main"])
    (h : a.Pins none name hash) : name = "lib" := by
  simp only [pinning, cons_append, nil_append, mem_cons, not_mem_nil, or_false] at ha
  rcases ha with rfl | rfl | rfl | rfl | rfl
  · cases h
  · cases h
  · cases h
  · obtain ⟨i, hget, ht⟩ := h
    rw [Sources.target_none] at ht
    cases ht
    simp only [Bindings.get?] at hget
    split at hget
    · next heq => exact heq.symm
    · cases hget
  · cases h

set_option maxRecDepth 100000 in
theorem cleanAll_leaves_pinning :
    let p := (start .default .default none).perform (pinning ++ [.poll "main"])
    names p = ["lib", "main"] ∧ p.cleanAll.store.outputs = [] := by
  intro p
  have hnames : names p = ["lib", "main"] := by decide +kernel
  have hhead : (((start .default .default none).perform pinning).sources.head? "lib").isSome := by
    decide +kernel
  have hclean := (cleanAll_leaves .default .default none (pinning ++ [.poll "main"])).2.2
  refine ⟨hnames, hclean fun a ha name hash hpins => ?_⟩
  rw [pins_pinning ha hpins, perform_poll, (poll_later "main" _).sources]
  exact hhead

set_option maxRecDepth 100000 in
/-- Where the name has been removed, the output of the pinned version stays. -/
theorem names_cleanAll_removed :
    names ((start .default .default none).perform
      (pinning ++ [.removeSource "lib", .poll "main", .cleanAll])) = ["lib"] := by
  decide +kernel

end Cleaning

end Project

end Estimation
