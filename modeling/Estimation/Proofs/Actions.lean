import Estimation.Project.Loading
import Estimation.Proofs.Requests

/-!
What may be done to a project, one action after the other. Requests that take several rounds add
nothing to the actions that they are made of.
-/

namespace Estimation

open List

inductive Action where
  | setSource (name code : String)
  | removeSource (name : String)
  | moveHead (name hash : String)
  | setContinues (name : String) (names : List String)
  | setPins (name : String) (pins : Bindings String)
  | setEnvironment (e : Environment)
  | clean (name : String)
  | cleanAll
  | poll (name : String)
  | startLoad (key : LoadKey)
  | finishLoad (key : LoadKey) (result : Except LinkError Module)

namespace Project

/-- A load ends only if it is in flight, and a version that is not known is not moved to. -/
def act (p : Project) : Action → Project
  | .setSource name code => p.setSource name code
  | .removeSource name => p.removeSource name
  | .moveHead name hash => (p.moveHead name hash).toOption.getD p
  | .setContinues name names => p.setContinues name names
  | .setPins name pins => p.setPins name pins
  | .setEnvironment e => p.setEnvironment e
  | .clean name => p.clean name
  | .cleanAll => p.cleanAll
  | .poll name => ((poll name).run p).2
  | .startLoad key => ((startLoad key []).run p).2
  | .finishLoad key result => if key ∈ p.inFlight then p.finishLoad key result else p

def perform (p : Project) (actions : List Action) : Project := actions.foldl act p

theorem perform_cons (p : Project) (a : Action) (actions : List Action) :
    p.perform (a :: actions) = (p.act a).perform actions := rfl

theorem perform_append (p : Project) (before after : List Action) :
    p.perform (before ++ after) = (p.perform before).perform after := foldl_append

theorem moveHead_cases (p : Project) (name hash : String) :
    (p.sources.modules.get? hash).isSome ∧
        p.act (.moveHead name hash) = p.edit name (.headMoved name hash) ∨
      p.sources.modules.get? hash = none ∧ p.act (.moveHead name hash) = p := by
  rw [act, moveHead]
  cases p.sources.modules.get? hash with
  | some m => exact .inl ⟨rfl, rfl⟩
  | none => exact .inr ⟨rfl, rfl⟩

/-- A version once known stays known. -/
theorem get?_modules_act {p : Project} {hash : String} {m : Module}
    (h : p.sources.modules.get? hash = some m) (a : Action) :
    (p.act a).sources.modules.get? hash = some m := by
  cases a with
  | setSource name code => exact Table.get?_setNew h _ _
  | moveHead name hash =>
    rcases moveHead_cases p name hash with ⟨-, hq⟩ | ⟨-, hq⟩ <;> rwa [hq]
  | poll name => rwa [act, (poll_later name p).sources]
  | startLoad key => rwa [act, (Quiet.startLoad_nil key).sources]
  | finishLoad key result =>
    rw [act]
    split
    · cases result with
      | ok new => exact Table.get?_setNew h _ _
      | error e => exact h
    · exact h
  | _ => exact h

/-- Only requests add outputs. -/
theorem mem_outputs_of_act {p : Project} {a : Action} (ha : ∀ name, a ≠ .poll name)
    {e : OutputId × Output} (he : e ∈ (p.act a).store.outputs) : e ∈ p.store.outputs := by
  have hedit : ∀ {names names' : List String},
      e ∈ Event.without names (Event.without names' p.store.outputs) → e ∈ p.store.outputs :=
    fun he => (Event.mem_without.1 (Event.mem_without.1 he).1).1
  cases a with
  | moveHead name hash =>
    rcases moveHead_cases p name hash with ⟨-, hq⟩ | ⟨-, hq⟩ <;> rw [hq] at he
    · exact hedit he
    · exact he
  | setEnvironment environment => exact he
  | clean name => exact (Event.mem_without.1 he).1
  | cleanAll => exact (Event.mem_without.1 he).1
  | poll name => exact absurd rfl (ha name)
  | startLoad key => rwa [act, (Quiet.startLoad_nil key).outputs] at he
  | finishLoad key result =>
    rw [act] at he
    split at he <;> exact he
  | _ => exact hedit he

/-- What holds whenever a load has ended holds when all have. -/
theorem finishLoads_induction {P : Project → Prop} {σ : Type}
    {load : LoadKey → StateM σ (Except LinkError Module)}
    (h : ∀ key result p, key ∈ p.inFlight → P p → P (p.finishLoad key result)) {p : Project}
    (hp : P p) (s : σ) : P ((p.finishLoads load).run s).1 := by
  rw [finishLoads]
  generalize hkeys : p.inFlight = keys
  induction keys generalizing p s with
  | nil => exact hp
  | cons key keys ih =>
    have hmem : key ∈ p.inFlight := hkeys ▸ mem_cons_self
    have hrest : (p.finishLoad key ((load key).run s).1).inFlight = keys := by
      change p.inFlight.erase key = keys
      rw [hkeys, erase_cons_head]
    rw [foldlM_cons]
    exact ih (h key ((load key).run s).1 p hmem hp) ((load key).run s).2 hrest

/-- What no request makes untrue, nor a load that ends. -/
structure Steady (P : Project → Prop) : Prop where
  poll : ∀ name p, P p → P ((Project.poll name).run p).2
  startLoad : ∀ key p, P p → P ((Project.startLoad key []).run p).2
  finishLoad : ∀ key result p, key ∈ p.inFlight → P p → P (p.finishLoad key result)

/-- The loads that a list of names asks for, as far as they are needed. -/
def startLoads (p : Project) (names : List String) : Project :=
  names.foldl (fun p n => ((startLoad ⟨n, none⟩ []).run p).2) p

theorem startLoads_induction {P : Project → Prop}
    (h : ∀ key p, P p → P ((startLoad key []).run p).2) {p : Project} (hp : P p)
    (names : List String) : P (p.startLoads names) := by
  induction names generalizing p with
  | nil => exact hp
  | cons name names ih => exact ih (h _ p hp)

namespace Steady

variable {P : Project → Prop} (h : Steady P) {p : Project} (hp : P p) {σ : Type}
  {load : LoadKey → StateM σ (Except LinkError Module)} {name : String} (s : σ)

include h hp

theorem startLoads (names : List String) : P (p.startLoads names) :=
  startLoads_induction h.startLoad hp names

theorem finishLoads : P ((p.finishLoads load).run s).1 := finishLoads_induction h.finishLoad hp s

theorem run (rounds : Nat) : P ((Project.run load rounds name p).run s).1.2 := by
  induction rounds generalizing p s with
  | zero =>
    have hq := h.poll name p hp
    rw [Project.run]
    split <;> rename_i heq <;> rw [heq] at hq
    · exact hq
    · exact hq
    · split
      · contradiction
      · exact hq
  | succ rounds ih =>
    have hq := h.poll name p hp
    rw [Project.run]
    split <;> rename_i heq <;> rw [heq] at hq
    · exact hq
    · exact hq
    · split
      · rename_i hk
        cases hk
        exact ih (h.finishLoads hq s) _
      · exact hq

theorem runEach (rounds : Nat) (names : List String) :
    P ((Project.runEach load rounds names p).run s).1.2 := by
  induction names generalizing p s with
  | nil => exact hp
  | cons name names ih =>
    have hq : P ((Project.run load rounds name p).run s).1.2 := h.run hp s rounds
    rw [Project.runEach, StateT.run_bind]
    generalize (Project.run load rounds name p).run s = ended at hq ⊢
    obtain ⟨⟨_ | o, q⟩, s⟩ := ended
    · exact hq
    · exact ih hq s

theorem runAll (rounds : Nat) : P ((Project.runAll load rounds p).run s).1.2 := by
  rw [Project.runAll]
  split
  · exact hp
  · exact h.runEach hp s rounds _

theorem loadImports (rounds : Nat) : P ((Project.loadImports load rounds name p).run s).1.2 := by
  induction rounds generalizing p s with
  | zero =>
    rw [Project.loadImports]
    split
    · exact hp
    · split
      · exact hp
      · split <;> exact hp
  | succ rounds ih =>
    rw [Project.loadImports]
    split
    · exact hp
    · split
      · exact hp
      · split
        · exact hp
        · exact ih (h.finishLoads (h.startLoads hp _) s) _

end Steady

/-- Requests that take several rounds are actions too. -/
theorem perform_steady (p : Project) : Steady fun q => ∃ actions, q = p.perform actions where
  poll name := by
    rintro _ ⟨actions, rfl⟩
    exact ⟨actions ++ [.poll name], by rw [perform_append]; rfl⟩
  startLoad key := by
    rintro _ ⟨actions, rfl⟩
    exact ⟨actions ++ [.startLoad key], by rw [perform_append]; rfl⟩
  finishLoad key result := by
    rintro _ hkey ⟨actions, rfl⟩
    refine ⟨actions ++ [.finishLoad key result], ?_⟩
    rw [perform_append, perform_cons, act, if_pos hkey]
    rfl

end Project

end Estimation
