import Estimation.Proofs.Keeping

/-!
Edits keep what outputs are derived from: an edit of a name drops every output that depends on it,
and no output that is left sees a difference. So all that may happen to a project keeps it.
-/

namespace Estimation

open List

namespace Sources

variable {s t : Sources} {name : String} {m : Module}

theorem knownImports_congr (hc : t.continuesOf name = s.continuesOf name) (hp : t.pins = s.pins) :
    t.knownImports name m = s.knownImports name m := by
  simp only [knownImports, importsOf, continuedImports, hc, hp]

theorem headModule?_of_head? (hh : t.head? name = s.head? name)
    (hm : ∀ hash m, s.modules.get? hash = some m → t.modules.get? hash = some m)
    (h : s.headModule? name = some m) : t.headModule? name = some m := by
  obtain ⟨hash, hs, h⟩ := Option.bind_eq_some_iff.1 h
  exact Option.bind_eq_some_iff.2 ⟨hash, hh.trans hs, hm hash m h⟩

end Sources

namespace Project

variable {R : Regime} {origins : OutputId → Option Nat} {p q : Project} {name : String}
  {names : List String}

/-- From `p` to `q` only the sources of some names change, and no outputs of those are left. -/
structure Edits (names : List String) (p q : Project) : Prop where
  heads : ∀ n m, n ∉ names → p.sources.headModule? n = some m → q.sources.headModule? n = some m
  continues : ∀ n, n ∉ names → q.sources.continuesOf n = p.sources.continuesOf n
  pins : p.sources.pins = [] → q.sources.pins = []
  resolver : q.resolver = p.resolver
  limits : q.limits = p.limits
  runs : q.runs = p.runs
  outputs : ∀ e ∈ q.store.outputs, e ∈ p.store.outputs ∧ e.2.name ∉ names
  stored : ∀ id o, p.store.outputs.get? id = some o → o.name ∉ names →
    q.store.outputs.get? id = some o

/-- Whatever is derived from outputs of some names has one of these names itself. -/
def Closed (names : List String) (p : Project) : Prop :=
  ∀ a b, p.sources.DependsOn p.resolver a b → b ∈ names → a ∈ names

theorem closed_affectedBy (p : Project) (name : String) : p.Closed (p.affectedBy name) :=
  fun _ _ => Sources.mem_affectedBy

namespace Edits

variable (h : Edits names p q) (hc : p.Closed names) (hpins : p.sources.pins = [])

include h hpins

theorem knownImports {n : String} {m : Module} (hn : n ∉ names) :
    q.sources.knownImports n m = p.sources.knownImports n m :=
  Sources.knownImports_congr (h.continues n hn) ((h.pins hpins).trans hpins.symm)

theorem dependsOn {a b : String} (ha : a ∉ names)
    (hab : p.sources.DependsOn p.resolver a b) : q.sources.DependsOn q.resolver a b := by
  obtain ⟨m, hm, i, hi, ht⟩ := hab
  exact ⟨m, h.heads a m ha hm, i, h.knownImports hpins ha ▸ hi, h.resolver ▸ ht⟩

include hc

/-- A way that does not start with what was edited does not come to it either. -/
theorem leadsRound {a : String} {chain : List String} (ha : a ∉ names)
    (hround : LeadsRound (p.sources.DependsOn p.resolver) a chain) :
    LeadsRound (q.sources.DependsOn q.resolver) a chain := by
  obtain ⟨first, between, hchain, hlinks, hreach⟩ := hround
  have hway : Relation.ReflTransGen (q.sources.DependsOn q.resolver) a first ∧
      first ∉ names := by
    clear hchain
    induction hreach with
    | refl => exact ⟨.refl, ha⟩
    | tail _ hbc ih => exact ⟨.tail ih.1 (h.dependsOn hpins ih.2 hbc), fun hm => ih.2 (hc _ _ hbc hm)⟩
  have hall : ∀ rest a, a ∉ names → (a :: rest).IsChain (p.sources.DependsOn p.resolver) →
      (a :: rest).IsChain (q.sources.DependsOn q.resolver) := by
    intro rest
    induction rest with
    | nil => exact fun a _ _ => isChain_singleton a
    | cons b rest ih =>
      intro a ha hlinks
      obtain ⟨hab, hrest⟩ := isChain_cons_cons.1 hlinks
      exact isChain_cons_cons.2 ⟨h.dependsOn hpins ha hab, ih b (fun hm => ha (hc _ _ hab hm)) hrest⟩
  subst hchain
  exact ⟨first, between, rfl, hall _ _ hway.2 hlinks, hway.1⟩

end Edits

/-- Imports that have failed, or fail now, have a reason to, for all but some names. -/
structure Accounts (R : Regime) (names : List String) (p q : Project) : Prop where
  fails : ∀ importer i e, q.Fails importer i e → R.failed q.sources importer i e
  still : ∀ n m i e, n ∉ names → p.sources.headModule? n = some m →
    i ∈ p.sources.knownImports n m → R.failed p.sources n i e → R.failed q.sources n i e

theorem Edits.kept (h : Edits names p q) (hc : p.Closed names)
    (hcode : ∀ hash m, q.sources.modules.get? hash = some m → R.hashed (.code m.code))
    (ha : Accounts R names p q) (hp : KeptBy R origins p) : KeptBy R origins q where
  pins := h.pins hp.pins
  code := hcode
  ids e he := hp.ids e (h.outputs e he).1
  derived e he := by
    obtain ⟨he, hn⟩ := h.outputs e he
    refine (hp.derived e he).transfer (P := fun o => o.name ∉ names) hn ?_ h.resolver h.limits
      ?_ ?_ (fun o chain => h.leadsRound hc hp.pins) ?_ fun o m => ha.still o.name m
    · exact fun o m hn hm => ⟨h.heads o.name m hn hm, h.knownImports hp.pins hn⟩
    · exact fun o n _ hs => ⟨h.runs ▸ hs.1, hs.2⟩
    · exact fun o hn hk hcoherent => h.stored o.id o (hk hcoherent) hn
    · exact fun o c hn hd _ hc' => hn (hc o.name c.name hd hc')
  fails := ha.fails
  since := h.runs ▸ hp.since
  between id n hid := h.runs ▸ hp.between id n hid
  apart := hp.apart

/-- An event that changes only what `name` stands for and what goes on in it. -/
structure Touches (event : Event) (name : String) (s : Sources) : Prop where
  heads : ∀ n, n ≠ name → Bindings.get? n (event.onHeads s.heads) = s.heads.get? n
  modules : ∀ hash m, s.modules.get? hash = some m →
    (event.onModules s.modules).get? hash = some m
  continues : ∀ n, n ≠ name → (event.onContinues s.continues).get? n = s.continues.get? n
  pins : s.pins = [] → event.onPins s.pins = []

theorem Touches.edits {event : Event} (h : Touches event name p.sources)
    (hsources : q.sources = event.onSources p.sources) (hresolver : q.resolver = p.resolver)
    (hlimits : q.limits = p.limits) (hruns : q.runs = p.runs)
    (houtputs : q.store.outputs =
      Event.without (p.affectedBy name) (Event.without [name] p.store.outputs)) :
    Edits (p.affectedBy name) p q := by
  have hne : ∀ n, n ∉ p.affectedBy name → n ≠ name := by
    rintro _ hn rfl
    exact hn (mem_append_right _ (mem_singleton.2 rfl))
  refine ⟨fun n m hn => ?_, fun n hn => ?_, ?_, hresolver, hlimits, hruns, fun e he => ?_,
    fun id o ho hn => ?_⟩
  · rw [hsources]
    exact Sources.headModule?_of_head? (h.heads n (hne n hn)) h.modules
  · rw [hsources, Sources.continuesOf, Sources.continuesOf]
    exact congrArg (Option.getD · []) (h.continues n (hne n hn))
  · rw [hsources]
    exact h.pins
  · rw [houtputs] at he
    obtain ⟨he, hn⟩ := Event.mem_without.1 he
    exact ⟨(Event.mem_without.1 he).1, hn⟩
  · rw [houtputs]
    exact Event.get?_without (Event.get?_without ho (by simpa using hne _ hn)) hn

theorem Touches.sourceSet (name : String) (m : Module) (s : Sources) :
    Touches (.sourceSet name m) name s where
  heads n hn := by rw [Event.onHeads, Bindings.get?_insert, if_neg hn.symm]
  modules _ _ h := Table.get?_setNew h _ _
  continues _ _ := rfl
  pins := id

theorem Touches.headMoved (name hash : String) (s : Sources) :
    Touches (.headMoved name hash) name s where
  heads n hn := by rw [Event.onHeads, Bindings.get?_insert, if_neg hn.symm]
  modules _ _ := id
  continues _ _ := rfl
  pins := id

theorem Touches.continuesSet (name : String) (names : List String) (s : Sources) :
    Touches (.continuesSet name names) name s where
  heads _ _ := rfl
  modules _ _ := id
  continues n hn := by rw [Event.onContinues, Table.get?_set, if_neg hn.symm]
  pins := id

theorem Touches.sourceRemoved (name : String) (s : Sources) :
    Touches (.sourceRemoved name) name s where
  heads n hn := by
    rw [Event.onHeads, Bindings.get?_eq_get?, Bindings.get?_eq_get?, Table.get?_erase,
      if_neg hn.symm]
  modules _ _ := id
  continues n hn := by rw [Event.onContinues, Table.get?_erase, if_neg hn.symm]
  pins h := by
    rw [Event.onPins, h]
    rfl

theorem edits_setSource (p : Project) (name code : String) :
    Edits (p.affectedBy name) p (p.setSource name code) :=
  (Touches.sourceSet name (.ofCode code) p.sources).edits rfl rfl rfl rfl rfl

theorem edits_removeSource (p : Project) (name : String) :
    Edits (p.affectedBy name) p (p.removeSource name) :=
  (Touches.sourceRemoved name p.sources).edits rfl rfl rfl rfl (filter_comm ..)

theorem edits_moveHead {hash : String} (h : p.moveHead name hash = .ok q) :
    Edits (p.affectedBy name) p q := by
  rw [moveHead] at h
  split at h <;> cases h
  exact (Touches.headMoved name hash p.sources).edits rfl rfl rfl rfl rfl

theorem edits_setContinues (p : Project) (name : String) (names : List String) :
    Edits (p.affectedBy name) p (p.setContinues name names) :=
  (Touches.continuesSet name names p.sources).edits rfl rfl rfl rfl rfl

theorem closed_nil (p : Project) : p.Closed [] := fun _ _ _ h => nomatch h

theorem closed_names (p : Project) : p.Closed p.sources.names :=
  fun _ _ ⟨_, hm, _⟩ _ => Sources.mem_names hm

theorem edits_setEnvironment (p : Project) (e : Environment) : Edits [] p (p.setEnvironment e) where
  heads _ _ _ := id
  continues _ _ := rfl
  pins := id
  resolver := rfl
  limits := rfl
  runs := rfl
  outputs _ he := ⟨he, nofun⟩
  stored _ _ ho _ := ho

theorem edits_cleanAll (p : Project) : Edits p.sources.names p p.cleanAll where
  heads _ _ _ := id
  continues _ _ := rfl
  pins := id
  resolver := rfl
  limits := rfl
  runs := rfl
  outputs _ he := Event.mem_without.1 he
  stored _ _ := Event.get?_without

/-- A load gives a name a version only where it had none. -/
theorem edits_finishLoad (p : Project) (key : LoadKey) (result : Except LinkError Module) :
    Edits [] p (p.finishLoad key result) where
  heads n m _ hm := by
    cases result with
    | error e => exact hm
    | ok new =>
      refine Sources.headModule?_of_head? ?_ (fun _ _ h => Table.get?_setNew h _ _) hm
      have hn := Sources.head?_of_headModule? hm
      change Bindings.get? n (if _ then _ else _) = _
      split
      · rfl
      · rename_i hkey
        rw [Bindings.get?_insert, if_neg]
        · rfl
        · rintro rfl
          exact hkey hn
  continues _ _ := rfl
  pins := id
  resolver := rfl
  limits := rfl
  runs := rfl
  outputs _ he := ⟨he, nofun⟩
  stored _ _ ho _ := ho

theorem KeptBy.clean (hp : KeptBy R origins p) (hclean : R.coherent → p.Removable name) :
    KeptBy R origins (p.clean name) where
  pins := hp.pins
  code := hp.code
  ids e he := hp.ids e (Event.mem_without.1 he).1
  derived e he := by
    obtain ⟨he, hn⟩ := Event.mem_without.1 he
    refine (hp.derived e he).transfer
      (P := fun o => R.coherent → o.name ≠ name ∧ ∃ id, (id, o) ∈ p.store.outputs)
      (fun _ => ⟨by simpa using hn, e.1, he⟩) (fun _ _ _ hm => ⟨hm, rfl⟩) rfl rfl
      (fun _ _ _ => id) ?_ (fun _ _ _ => id) ?_ fun _ _ _ _ _ _ _ => id
    · exact fun o ho hk hc => Event.get?_without (hk hc) (by simpa using (ho hc).1)
    · intro o c ho hd hk hc
      obtain ⟨hne, id, hmem⟩ := ho hc
      refine ⟨?_, c.id, Table.mem_of_get? (hk hc)⟩
      -- An output above one of `name` would have had to be gone.
      rintro rfl
      have haffected : o.name ∈ p.affectedBy c.name :=
        Sources.mem_affectedBy hd (mem_append_right _ (mem_singleton.2 rfl))
      have hnone := hclean hc o.name haffected hne
      have hsome : o ∈ p.store.outputsOf o.name :=
        mem_filter.2 ⟨mem_map_of_mem hmem, decide_eq_true rfl⟩
      rw [hnone] at hsome
      cases hsome
  fails importer i e hf := hp.fails importer i e (hf.mono rfl rfl fun _ => .inl rfl)
  since := hp.since
  between := hp.between
  apart := hp.apart

theorem poll_sound (hinj : Set.InjOn OutputKey.id {k | R.hashed (.key k)}) (hp : p.Kept R)
    (hh : ∀ x ∈ pollHashes name p, R.hashed x) :
    ((poll name).run p).2.Kept R ∧ ∀ o, ((poll name).run p).1 = .ok (.ready o) →
      Answers ((poll name).run p).2 name p.environment o := by
  rw [pollHashes] at hh
  cases hm : p.sources.headModule? name with
  | none =>
    rw [poll_of_none hm]
    exact ⟨hp, fun _ h => nomatch h⟩
  | some m =>
    rw [hm] at hh
    rw [poll_of_head hm]
    obtain ⟨hkept, hanswers⟩ :=
      compute_sound hinj _ [] name m p hp hm (isChain_singleton name) hh
    refine ⟨hkept, fun o ho => hanswers o ?_⟩
    injection ho

theorem Kept.finishLoad (hp : p.Kept R) {key : LoadKey} {result : Except LinkError Module}
    (hh : ∀ x ∈ loadHashes result, R.hashed x)
    (ha : Accounts R [] p (p.finishLoad key result)) : (p.finishLoad key result).Kept R := by
  obtain ⟨origins, hp⟩ := hp
  refine ⟨origins, (edits_finishLoad p key result).kept (closed_nil _) (fun hash m hm => ?_)
    ha hp⟩
  cases result with
  | error e => exact hp.code hash m hm
  | ok new =>
    rcases Table.of_get?_setNew hm with rfl | hm
    · exact hh _ (mem_singleton.2 rfl)
    · exact hp.code hash m hm

end Project

/-- Nothing is known but what has been hashed and whether the history is coherent. -/
def Regime.plain (coherent : Prop) (hashed : Hashed → Prop) : Regime :=
  ⟨coherent, hashed, fun _ => False, fun _ _ _ _ => True, 0⟩

theorem Project.Accounts.plain {coherent : Prop} {hashed : Hashed → Prop} {names : List String}
    {p q : Project} : Accounts (.plain coherent hashed) names p q :=
  ⟨fun _ _ _ _ => trivial, fun _ _ _ _ _ _ _ _ => trivial⟩

open Project

theorem History.kept {coherent : Prop} {l : List Hashed} {p : Project} (h : History coherent l p)
    (hashed : Hashed → Prop) (hl : ∀ x ∈ l, hashed x)
    (hinj : Set.InjOn OutputKey.id {k | hashed (.key k)}) : p.Kept (.plain coherent hashed) := by
  induction h with
  | start environment limits resolver =>
    exact ⟨fun _ => none, rfl, nofun, nofun, nofun, fun _ _ _ _ => trivial, Nat.le_refl _, nofun,
      nofun⟩
  | setSource name code h ih =>
    obtain ⟨origins, hp⟩ := ih fun x hx => hl x (mem_append_left _ hx)
    refine ⟨origins, (edits_setSource _ name code).kept (closed_affectedBy _ name)
      (fun hash m hm => ?_) .plain hp⟩
    rcases Table.of_get?_setNew hm with rfl | hm
    · exact hl _ (mem_append_right _ (mem_singleton.2 rfl))
    · exact hp.code hash m hm
  | removeSource name h ih =>
    obtain ⟨origins, hp⟩ := ih hl
    exact ⟨origins, (edits_removeSource _ name).kept (closed_affectedBy _ name) hp.code .plain hp⟩
  | @moveHead l p q name hash h hmove ih =>
    obtain ⟨origins, hp⟩ := ih hl
    refine ⟨origins, (edits_moveHead hmove).kept (closed_affectedBy p name) ?_ .plain hp⟩
    rw [Project.moveHead] at hmove
    split at hmove <;> cases hmove
    exact hp.code
  | setContinues name names h ih =>
    obtain ⟨origins, hp⟩ := ih hl
    exact ⟨origins, (edits_setContinues _ name names).kept (closed_affectedBy _ name) hp.code .plain
      hp⟩
  | setEnvironment e h ih =>
    obtain ⟨origins, hp⟩ := ih hl
    exact ⟨origins, (edits_setEnvironment _ e).kept (closed_nil _) hp.code .plain hp⟩
  | clean h hclean ih =>
    obtain ⟨origins, hp⟩ := ih hl
    exact ⟨origins, hp.clean hclean⟩
  | cleanAll h ih =>
    obtain ⟨origins, hp⟩ := ih hl
    exact ⟨origins, (edits_cleanAll _).kept (closed_names _) hp.code .plain hp⟩
  | poll name h ih =>
    exact (poll_sound hinj (ih fun x hx => hl x (mem_append_left _ hx)) fun x hx =>
      hl x (mem_append_right _ hx)).1
  | startLoad key h ih => exact (Quiet.startLoad_nil key).kept (ih hl)
  | finishLoad key result h ih =>
    exact (ih fun x hx => hl x (mem_append_left _ hx)).finishLoad
      (fun x hx => hl x (mem_append_right _ hx)) .plain

end Estimation
