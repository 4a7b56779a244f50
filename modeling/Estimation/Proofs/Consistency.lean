import Estimation.Proofs.Tables

/-!
How the tables of a store fit together, and what a batch of events may do to them: what an event takes to
be stored was stored when the batch was decided on, and is stored ever after.
-/

namespace Estimation

open List

theorem Table.mem_setNew {κ α : Type} [DecidableEq κ] {key : κ} {value : α} {t : Table κ α} {e : κ × α}
    (h : e ∈ t.setNew key value) : e = (key, value) ∨ e ∈ t := by
  rw [setNew] at h
  split at h
  · exact .inr h
  · exact mem_set h

namespace Sources

/-- A version is stored, under its own hash. -/
def Stores (s : Sources) (m : Module) : Prop := s.modules.get? m.hash = some m

/-- Versions once stored stay. -/
def Keeps (s s' : Sources) : Prop :=
  ∀ hash m, s.modules.get? hash = some m → s'.modules.get? hash = some m

namespace Keeps

variable {s s' s'' : Sources}

theorem refl (s : Sources) : Keeps s s := fun _ _ => id

theorem trans (h : Keeps s s') (h' : Keeps s' s'') : Keeps s s'' :=
  fun hash m hm => h' hash m (h hash m hm)

theorem stores (h : Keeps s s') {m : Module} (hm : s.Stores m) : s'.Stores m := h _ _ hm

theorem isSome (h : Keeps s s') {hash : String} (hhash : (s.modules.get? hash).isSome) :
    (s'.modules.get? hash).isSome := by
  obtain ⟨m, hm⟩ := Option.isSome_iff_exists.1 hhash
  exact Option.isSome_iff_exists.2 ⟨m, h hash m hm⟩

end Keeps

theorem keeps_onSources (s : Sources) (event : Event) : s.Keeps (event.onSources s) := by
  intro hash m hm
  cases event with
  | sourceSet name new => exact Table.get?_setNew hm _ _
  | loadFinished key result =>
    cases result with
    | ok new => exact Table.get?_setNew hm _ _
    | error e => exact hm
  | _ => exact hm

end Sources

/-- What an event takes to be stored is stored. -/
def Event.Backed (s : Sources) : Event → Prop
  | .headMoved _ hash => (s.modules.get? hash).isSome
  | .resolutionSettled _ (.loaded _ hash) => (s.modules.get? hash).isSome
  | .outputCommitted o => s.Stores o.module
  | _ => True

theorem Event.Backed.mono {s s' : Sources} {event : Event} (h : event.Backed s) (hs : s.Keeps s') :
    event.Backed s' := by
  cases event with
  | headMoved name hash => exact hs.isSome h
  | resolutionSettled key r =>
    cases r with
    | loaded target hash => exact hs.isSome h
    | _ => trivial
  | outputCommitted o => exact hs.stores h
  | _ => trivial

namespace Store

/-- Versions stand under the digests of their code, names and imports that have been loaded have versions
that are stored, and outputs stand under their identities and are those of stored versions. -/
structure Consistent (s : Store) : Prop where
  modules : ∀ e ∈ s.sources.modules, e.1 = Digest.ofText e.2.code
  heads : ∀ e ∈ s.sources.heads, (s.sources.modules.get? e.2).isSome
  outputs : ∀ e ∈ s.outputs, e.1 = e.2.id ∧ s.sources.Stores e.2.module
  loaded : ∀ e ∈ s.resolutions, ∀ target hash, e.2 = .loaded target hash →
    (s.sources.modules.get? hash).isSome

theorem consistent_empty (environment : Environment) : (empty environment).Consistent :=
  ⟨nofun, nofun, nofun, nofun⟩

variable {s s' s'' : Store} {event : Event} {events : List Event}

namespace Consistent

/-- What is found under a hash is stored under it. -/
theorem hash_eq (h : s.Consistent) {hash : String} {m : Module}
    (hm : s.sources.modules.get? hash = some m) : m.hash = hash :=
  m.hash_eq.trans (h.modules _ (Table.mem_of_get? hm)).symm

theorem stores (h : s.Consistent) {hash : String} {m : Module}
    (hm : s.sources.modules.get? hash = some m) : s.sources.Stores m := by
  rw [Sources.Stores, h.hash_eq hm]
  exact hm

theorem onModules (h : s.Consistent) (event : Event) :
    ∀ e ∈ event.onModules s.sources.modules, e.1 = Digest.ofText e.2.code := by
  intro e he
  have hnew : ∀ m : Module, e ∈ s.sources.modules.setNew m.hash m → e.1 = Digest.ofText e.2.code := by
    intro m he
    rcases Table.mem_setNew he with rfl | he
    · exact m.hash_eq
    · exact h.modules e he
  cases event with
  | sourceSet name m => exact hnew m he
  | loadFinished key result =>
    cases result with
    | ok m => exact hnew m he
    | error e => exact h.modules _ he
  | _ => exact h.modules e he

theorem onHeads (h : s.Consistent) (hevent : event.Backed s.sources) :
    ∀ e ∈ event.onHeads s.sources.heads, ((event.onModules s.sources.modules).get? e.2).isSome := by
  have hold : ∀ e ∈ s.sources.heads, ((event.onModules s.sources.modules).get? e.2).isSome :=
    fun e he => (s.sources.keeps_onSources event).isSome (h.heads e he)
  cases event with
  | sourceSet name m => exact Bindings.forall_insert Table.get?_setNew_self hold
  | sourceRemoved name => exact fun e he => hold e (mem_of_mem_filter he)
  | headMoved name hash => exact Bindings.forall_insert hevent hold
  | loadFinished key result =>
    cases result with
    | ok m =>
      rw [Event.onHeads]
      split
      · exact hold
      · exact Bindings.forall_insert Table.get?_setNew_self hold
    | error e => exact hold
  | _ => exact hold

theorem onOutputs (h : s.Consistent) (hevent : event.Backed s.sources) :
    ∀ e ∈ event.onOutputs s.outputs, e.1 = e.2.id ∧ (event.onSources s.sources).Stores e.2.module := by
  have hkeeps := s.sources.keeps_onSources event
  have hold : ∀ e ∈ s.outputs, e.1 = e.2.id ∧ (event.onSources s.sources).Stores e.2.module :=
    fun e he => ⟨(h.outputs e he).1, hkeeps.stores (h.outputs e he).2⟩
  intro e he
  cases event with
  | outputCommitted o =>
    rcases Table.mem_set he with rfl | he
    · exact ⟨rfl, hevent⟩
    · exact hold e he
  | sourceSet | sourceRemoved | headMoved | continuesSet | pinsSet | outputsCleared =>
    exact hold e (Event.mem_without.1 he).1
  | _ => exact hold e he

theorem onResolutions (h : s.Consistent) (hevent : event.Backed s.sources) :
    ∀ e ∈ event.onResolutions s.resolutions, ∀ target hash, e.2 = .loaded target hash →
      ((event.onModules s.sources.modules).get? hash).isSome := by
  have hold : ∀ e ∈ s.resolutions, ∀ target hash, e.2 = .loaded target hash →
      ((event.onModules s.sources.modules).get? hash).isSome :=
    fun e he target hash hr => (s.sources.keeps_onSources event).isSome (h.loaded e he target hash hr)
  intro e he
  cases event with
  | sourceRemoved name => exact hold e (mem_of_mem_filter he)
  | resolutionSettled key r =>
    rcases Table.mem_set he with rfl | he
    · rintro target hash rfl
      exact hevent
    · exact hold e he
  | _ => exact hold e he

theorem step (h : s.Consistent) (hevent : event.Backed s.sources) : (s.step event).Consistent :=
  ⟨h.onModules event, h.onHeads hevent, h.onOutputs hevent, h.onResolutions hevent⟩

end Consistent

theorem keeps_foldl (s : Store) (events : List Event) : s.sources.Keeps (events.foldl step s).sources := by
  induction events generalizing s with
  | nil => exact .refl _
  | cons event events ih => exact (s.sources.keeps_onSources event).trans (ih (s.step event))

theorem version_foldl (s : Store) (events : List Event) : (events.foldl step s).version = s.version := by
  induction events generalizing s with
  | nil => rfl
  | cons event events ih => exact ih _

/-- Events that are decided on together are all decided on before the first of them. -/
theorem Consistent.apply (h : s.Consistent) (hevents : ∀ event ∈ events, event.Backed s.sources) :
    (s.apply events).Consistent := by
  have hfoldl : (events.foldl Store.step s).Consistent := by
    induction events generalizing s with
    | nil => exact h
    | cons event events ih =>
      obtain ⟨hevent, hrest⟩ := forall_mem_cons.1 hevents
      refine ih (h.step hevent) fun e he => ?_
      exact (hrest e he).mono (s.sources.keeps_onSources event)
  exact ⟨hfoldl.modules, hfoldl.heads, hfoldl.outputs, hfoldl.loaded⟩

/-- Batches of events lead from one state to another. -/
inductive Advances (s : Store) : Store → Prop
  | refl : Advances s s
  | apply {s' : Store} {events : List Event} : Advances s s' →
      (∀ event ∈ events, event.Backed s'.sources) → Advances s (s'.apply events)

namespace Advances

theorem batch (h : ∀ event ∈ events, event.Backed s.sources) : s.Advances (s.apply events) := .apply .refl h

theorem trans (h : s.Advances s') (h' : s'.Advances s'') : s.Advances s'' := by
  induction h' with
  | refl => exact h
  | apply _ hevents ih => exact ih.apply hevents

theorem consistent (h : s.Advances s') (hs : s.Consistent) : s'.Consistent := by
  induction h with
  | refl => exact hs
  | apply _ hevents ih => exact ih.apply hevents

theorem keeps (h : s.Advances s') : s.sources.Keeps s'.sources := by
  induction h with
  | refl => exact .refl _
  | @apply s' events _ _ ih => exact ih.trans (keeps_foldl s' events)

theorem eq_or_version_lt (h : s.Advances s') : s' = s ∨ s.version < s'.version := by
  induction h with
  | refl => exact .inl rfl
  | @apply s' events _ _ ih =>
    have happly : (s'.apply events).version = s'.version + 1 := congrArg (· + 1) (version_foldl s' events)
    rcases ih with rfl | hlt
    · exact .inr (by omega)
    · exact .inr (by omega)

/-- A version tells the state. -/
theorem eq_of_version (h : s.Advances s') (hversion : s'.version = s.version) : s' = s :=
  h.eq_or_version_lt.resolve_right (by omega)

end Advances

end Store

end Estimation
