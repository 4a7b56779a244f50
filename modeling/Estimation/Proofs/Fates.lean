import Estimation.Proofs.Invalidation
import Estimation.Proofs.Standing

/-!
What names come to once all loads have ended. It is settled as long as nothing is edited: a load is
started for a name only where it has no version and no load has failed, and brings what it brings
whenever it ends.
-/

namespace Estimation

open List

namespace Project

variable {linker : LoadKey → Except LinkError Module} {p q r : Project} {name importer : String}
  {i : Import} {e : LinkError}

/-- The version of a name, or why it cannot be had, once the loads have ended that there may be. -/
def fate (linker : LoadKey → Except LinkError Module) (p : Project) (name : String) :
    Except LinkError Module :=
  match p.sources.headModule? name with
  | some m => .ok m
  | none =>
    match p.store.loads.get? ⟨name, none⟩ with
    | some (.failed e) => .error e
    | _ => if p.resolver.isSome then linker ⟨name, none⟩ else .error (.notFound name)

def importFate (linker : LoadKey → Except LinkError Module) (p : Project) (importer : String)
    (i : Import) : Except LinkError Module := do
  p.fate linker (← Sources.target p.resolver importer i)

theorem fate_of_head {m : Module} (hm : p.sources.headModule? name = some m) :
    p.fate linker name = .ok m := by
  rw [fate, hm]

theorem fate_of_failed (hm : p.sources.headModule? name = none)
    (he : p.store.loads.get? ⟨name, none⟩ = some (.failed e)) : p.fate linker name = .error e := by
  rw [fate, hm]
  dsimp only
  rw [he]

theorem fate_of_loading (hm : p.sources.headModule? name = none)
    (hl : p.store.loads.get? ⟨name, none⟩ = some .loading) (hr : p.resolver.isSome) :
    p.fate linker name = linker ⟨name, none⟩ := by
  rw [fate, hm]
  dsimp only
  rw [hl]
  exact if_pos hr

theorem Fails.fate (h : p.Fails importer i e) : p.importFate linker importer i = .error e := by
  rw [importFate]
  cases h with
  | unresolved ht =>
    rw [ht]
    rfl
  | @missing target ht hm he =>
    rw [ht]
    change p.fate linker target = _
    rcases he with he | ⟨hr, hl, rfl⟩
    · exact fate_of_failed hm he
    · rw [Project.fate, hm]
      dsimp only
      rw [hl, hr]
      rfl

/-- A load that goes on is recorded, and its name has no version. -/
structure Underway (p : Project) (key : LoadKey) : Prop where
  pin : key.pin = none
  recorded : p.store.loads.get? key = some .loading
  head : p.sources.head? key.name = none
  resolver : p.resolver.isSome

theorem Underway.mono {key : LoadKey} (h : p.Underway key)
    (hloads : q.store.loads.get? key = p.store.loads.get? key)
    (hhead : q.sources.head? key.name = p.sources.head? key.name)
    (hresolver : q.resolver = p.resolver) : q.Underway key :=
  ⟨h.pin, hloads.trans h.recorded, hhead.trans h.head, hresolver ▸ h.resolver⟩

/-- From `p` on nothing has been edited. -/
structure Going (linker : LoadKey → Except LinkError Module) (p q : Project) : Prop where
  standing : Standing q
  fate : ∀ name, q.fate linker name = p.fate linker name
  resolver : q.resolver = p.resolver
  limits : q.limits = p.limits
  environment : q.environment = p.environment
  continues : q.sources.continues = p.sources.continues
  pins : q.sources.pins = []
  outputs : ∀ id o, p.store.outputs.get? id = some o → q.store.outputs.get? id = some o
  flight : ∀ key ∈ q.inFlight, q.Underway key
  nodup : q.inFlight.Nodup

namespace Going

theorem start (h : Standing p) (hpins : p.sources.pins = []) (hflight : p.inFlight = []) :
    Going linker p p :=
  ⟨h, fun _ => rfl, rfl, rfl, rfl, rfl, hpins, fun _ _ => id, by simp [hflight],
    hflight ▸ nodup_nil⟩

theorem importFate (h : Going linker p q) (importer : String) (i : Import) :
    q.importFate linker importer i = p.importFate linker importer i := by
  rw [Project.importFate, Project.importFate, h.resolver, funext h.fate]

theorem knownImports (h : Going linker p q) (hp : p.sources.pins = []) (name : String) (m : Module) :
    q.sources.knownImports name m = p.sources.knownImports name m :=
  Sources.knownImports_congr (by rw [Sources.continuesOf, Sources.continuesOf, h.continues])
    (h.pins.trans hp.symm)

end Going

theorem Quiet.fate (h : Quiet p q) (name : String) : q.fate linker name = p.fate linker name := by
  rw [Project.fate, Project.fate, h.sources, h.resolver]
  cases h.loads with
  | none hloads _ => rw [hloads]
  | @load key hnone _ hloads _ =>
    rw [hloads, Table.get?_set]
    split
    · rfl
    · by_cases heq : key = ⟨name, none⟩
      · rw [if_pos heq, ← heq, hnone]
      · rw [if_neg heq]

theorem Going.resolve (h : Going linker p q) (hpin : i.pin = none) :
    Going linker p ((resolveImport importer i).run q).2 := by
  obtain ⟨hquiet, -, -, hflight, -⟩ := resolveImport_resolves (p := q) importer i
  generalize (resolveImport importer i).run q = resolved at hquiet hflight
  obtain ⟨found, r⟩ := resolved
  dsimp only at hquiet hflight ⊢
  have hunderway : (∀ key ∈ r.inFlight, r.Underway key) ∧ r.inFlight.Nodup := by
    have hsame : ∀ key, r.sources.head? key = q.sources.head? key := by
      simp [hquiet.sources]
    cases hquiet.loads with
    | none hloads hin =>
      rw [hin]
      exact ⟨fun key hkey => (h.flight key hkey).mono (by rw [hloads]) (hsame _) hquiet.resolver,
        h.nodup⟩
    | @load started hnone hpresent hloads hin =>
      have hnew : started ∉ q.inFlight := fun hmem => by
        have hrecorded := (h.flight started hmem).recorded
        rw [hnone] at hrecorded
        cases hrecorded
      obtain ⟨hstarted, hresolver⟩ :=
        (hflight started (hin ▸ mem_append_right _ (mem_singleton.2 rfl))).resolve_left hnew
      rw [hin]
      refine ⟨fun key hkey => ?_, nodup_concat h.nodup hnew⟩
      rcases mem_append.1 hkey with hkey | hkey
      · refine (h.flight key hkey).mono ?_ (hsame _) hquiet.resolver
        rw [hloads, Table.get?_set, if_neg]
        rintro rfl
        exact hnew hkey
      · cases mem_singleton.1 hkey
        have hnone : started.pin = none := hstarted.trans hpin
        refine ⟨hnone, ?_, ?_, hquiet.resolver ▸ hresolver⟩
        · rw [hloads, Table.get?_set, if_pos rfl]
        · rw [Sources.isPresent, hnone, Option.isSome_eq_false_iff, Option.isNone_iff_eq_none]
            at hpresent
          exact (hsame _).trans hpresent
  exact
    { standing := h.standing.quiet hquiet
      fate := fun name => (hquiet.fate name).trans (h.fate name)
      resolver := hquiet.resolver.trans h.resolver
      limits := hquiet.limits.trans h.limits
      environment := (congrArg Sources.environment hquiet.sources).trans h.environment
      continues := hquiet.sources ▸ h.continues
      pins := hquiet.sources ▸ h.pins
      outputs := fun id o ho => hquiet.outputs ▸ h.outputs id o ho
      flight := hunderway.1
      nodup := hunderway.2 }

theorem Going.preserved : Preserved (Going linker p) where
  resolve _ _ _ hpin h := h.resolve (hpin h.pins)
  note _ q h :=
    { h with
      standing := Standing.preserved.note _ q h.standing
      flight := fun key hkey => (h.flight key hkey).mono rfl rfl rfl }
  run q h :=
    { h with
      standing := Standing.preserved.run q h.standing
      flight := fun key hkey => (h.flight key hkey).mono rfl rfl rfl }
  commit o q hn h :=
    { h with
      standing := Standing.preserved.commit o q hn h.standing
      outputs := fun id o' ho =>
        ((Later.preserved q).commit o q hn (.refl q)).outputs id o' (h.outputs id o' ho)
      flight := fun key hkey => (h.flight key hkey).mono rfl rfl rfl }

theorem Underway.key_eq {key : LoadKey} (h : q.Underway key) : key = ⟨key.name, none⟩ := h.pin ▸ rfl

theorem Underway.headModule? {key : LoadKey} (h : q.Underway key) :
    q.sources.headModule? key.name = none := by
  rw [Sources.headModule?, h.head]
  rfl

theorem Underway.fate {key : LoadKey} (h : q.Underway key) :
    q.fate linker key.name = linker key := by
  have hrecorded := h.recorded
  rw [h.key_eq] at hrecorded
  rw [fate_of_loading h.headModule? hrecorded h.resolver, ← h.key_eq]

theorem headModule?_finishLoad (hq : Standing q) {key : LoadKey} {m : Module}
    (hhead : q.sources.head? key.name = none)
    (htold : ∀ m', q.sources.modules.get? m.hash = some m' → m' = m) (name : String) :
    (q.finishLoad key (.ok m)).sources.headModule? name =
      if key.name = name then some m else q.sources.headModule? name := by
  refine hq.headModule?_given ?_ rfl htold name
  change (if (q.sources.heads.get? key.name).isSome then _ else _) = _
  rw [show q.sources.heads.get? key.name = none from hhead]
  rfl

theorem fate_finishLoad (hq : Standing q) {key : LoadKey} (h : q.Underway key)
    (htold : ∀ m m', linker key = .ok m → q.sources.modules.get? m.hash = some m' → m' = m)
    (name : String) :
    (q.finishLoad key (linker key)).fate linker name = q.fate linker name := by
  have hfate : q.fate linker key.name = linker key := h.fate
  have hne : key.name ≠ name → key ≠ ⟨name, none⟩ := fun hn heq => hn (congrArg LoadKey.name heq)
  cases hresult : linker key with
  | error e =>
    have hloads : ∀ k, (q.finishLoad key (.error e)).store.loads.get? k =
        if key = k then some (.failed e) else q.store.loads.get? k := fun _ => Table.get?_set _ _ _ _
    -- The failure is on record, and no version is there that would count before it.
    by_cases hn : key.name = name
    · subst hn
      rw [hfate, hresult]
      exact fate_of_failed h.headModule? ((hloads _).trans (if_pos h.key_eq))
    · rw [Project.fate, Project.fate, hloads, if_neg (hne hn)]
      rfl
  | ok m =>
    have hhead := headModule?_finishLoad hq h.head (htold m · hresult)
    by_cases hn : key.name = name
    · subst hn
      rw [hfate, hresult]
      exact fate_of_head ((hhead _).trans (if_pos rfl))
    · have hloads : (q.finishLoad key (.ok m)).store.loads.get? ⟨name, none⟩ =
          q.store.loads.get? ⟨name, none⟩ := (Table.get?_erase _ _ _).trans (if_neg (hne hn))
      rw [Project.fate, Project.fate, hhead, if_neg hn, hloads]
      rfl

theorem Going.finishLoad (h : Going linker p q) {key : LoadKey} (hkey : key ∈ q.inFlight)
    (htold : ∀ m m', linker key = .ok m → q.sources.modules.get? m.hash = some m' → m' = m) :
    Going linker p (q.finishLoad key (linker key)) := by
  have hunderway := h.flight key hkey
  have hothers : ∀ k ∈ q.inFlight.erase key, (q.finishLoad key (linker key)).Underway k := by
    intro k hk
    obtain ⟨hne, hk⟩ := h.nodup.mem_erase_iff.1 hk
    have hname : key.name ≠ k.name := fun hname => hne <| by
      rw [(h.flight k hk).key_eq, hunderway.key_eq, hname]
    cases hresult : linker key with
    | error e =>
      exact (h.flight k hk).mono ((Table.get?_set _ _ _ _).trans (if_neg hne.symm)) rfl rfl
    | ok m =>
      refine (h.flight k hk).mono ((Table.get?_erase _ _ _).trans (if_neg hne.symm)) ?_ rfl
      rw [head?_finishLoad, if_neg hname, Option.or_none]
  exact
    { standing := h.standing.finishLoad key (linker key)
      fate := fun name => (fate_finishLoad h.standing hunderway htold name).trans (h.fate name)
      resolver := h.resolver
      limits := h.limits
      environment := h.environment
      continues := h.continues
      pins := h.pins
      outputs := h.outputs
      flight := hothers
      nodup := h.nodup.erase key }

end Project

end Estimation
