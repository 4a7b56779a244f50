import Estimation.Proofs.Standing

/-!
How many loads of a key are in flight. The record of a load keeps a second one from being started; but
who gives a module its source while it is loaded takes the record away, and the load goes on.
-/

namespace Estimation

open List

namespace Project

variable {p q : Project} {key : LoadKey} {n : Nat}

/-- One if a load of the key is recorded, and nothing else. -/
def recorded (p : Project) (key : LoadKey) : Nat :=
  if p.store.loads.get? key = some .loading then 1 else 0

/-- Of so many loads in flight nothing is recorded any more. -/
def Stray (key : LoadKey) (n : Nat) (p : Project) : Prop :=
  p.inFlight.count key ≤ p.recorded key + n

namespace Stray

theorem recorded_le_one (p : Project) (key : LoadKey) : p.recorded key ≤ 1 := by
  rw [recorded]
  split
  · exact Nat.le_refl 1
  · exact Nat.zero_le 1

theorem mono (h : Stray key n p) (hflight : q.inFlight = p.inFlight)
    (hloads : q.store.loads = p.store.loads) : Stray key n q := by
  rw [Stray, recorded, hflight, hloads]
  exact h

theorem quiet (h : Stray key n p) (hq : Quiet p q) : Stray key n q := by
  cases hq.loads with
  | none hloads hflight => exact h.mono hflight hloads
  | @load started hnone _ hloads hflight =>
    rw [Stray, recorded] at h
    rw [Stray, recorded, hloads, hflight, count_append, count_singleton, Table.get?_set]
    by_cases heq : started = key
    · subst heq
      rw [hnone, if_neg nofun] at h
      rw [beq_self_eq_true, if_pos rfl, if_pos rfl, if_pos rfl]
      omega
    · rw [beq_false_of_ne heq, if_neg Bool.false_ne_true, if_neg heq]
      exact h

theorem preserved (key : LoadKey) (n : Nat) : Preserved (Stray key n) where
  resolve importer i _ _ h := h.quiet (resolveImport_resolves importer i).quiet
  note _ _ h := h
  run _ h := h
  commit _ _ _ h := h

theorem finishLoad (h : Stray key n p) (ended : LoadKey) (result : Except LinkError Module) :
    Stray key n (p.finishLoad ended result) := by
  rw [Stray]
  change (p.inFlight.erase ended).count key ≤ _
  by_cases heq : ended = key
  · subst heq
    have hone := recorded_le_one p ended
    rw [Stray] at h
    rw [count_erase_self]
    omega
  · have hget : (p.finishLoad ended result).store.loads.get? key = p.store.loads.get? key := by
      cases result with
      | ok m => exact (Table.get?_erase _ _ _).trans (if_neg heq)
      | error e => exact (Table.get?_set _ _ _ _).trans (if_neg heq)
    rw [count_erase_of_ne (Ne.symm heq), recorded, hget]
    exact h

/-- The load whose record is taken away goes on. -/
theorem setSource (h : Stray key n p) (name code : String) :
    Stray key (n + if key.name = name then p.recorded key else 0) (p.setSource name code) := by
  have hget : (p.setSource name code).store.loads.get? key =
      if key.name = name then none else p.store.loads.get? key := by
    change Table.get? key (p.store.loads.filter fun e => decide (e.1.name ≠ name)) = _
    rw [Table.get?_filter_fst (κ := LoadKey) fun key => decide (key.name ≠ name)]
    by_cases hname : key.name = name
    · rw [if_pos hname, if_neg (by simpa using hname)]
    · rw [if_neg hname, if_pos (by simpa using hname)]
  rw [Stray, recorded, hget]
  change p.inFlight.count key ≤ _
  rw [Stray] at h
  split
  · rw [if_neg (by simp)]
    omega
  · exact h

theorem steady (key : LoadKey) (n : Nat) : Steady (Stray key n) where
  poll name _ h := (preserved key n).poll name h
  startLoad started _ h := h.quiet (.startLoad_nil started)
  finishLoad ended result _ _ h := h.finishLoad ended result

end Stray

/-- One if a module is given its source while it is recorded as being loaded. -/
def overtakes (key : LoadKey) (p : Project) : Action → Nat
  | .setSource name _ => if key.name = name then p.recorded key else 0
  | _ => 0

/-- How often that happens. -/
def overtaken (key : LoadKey) : Project → List Action → Nat
  | _, [] => 0
  | p, a :: actions => p.overtakes key a + overtaken key (p.act a) actions

namespace Stray

theorem act (h : Stray key n p) (a : Action) : Stray key (n + p.overtakes key a) (p.act a) := by
  cases a with
  | setSource name code => exact h.setSource name code
  | moveHead name hash =>
    rcases moveHead_cases p name hash with ⟨-, hq⟩ | ⟨-, hq⟩ <;> rw [hq] <;> exact h
  | poll name => exact (steady key n).poll name p h
  | startLoad started => exact (steady key n).startLoad started p h
  | finishLoad ended result =>
    rw [Project.act]
    split
    · exact h.finishLoad ended result
    · exact h
  | _ => exact h

theorem perform (h : Stray key n p) (actions : List Action) :
    Stray key (n + overtaken key p actions) (p.perform actions) := by
  induction actions generalizing n p with
  | nil => exact h
  | cons a actions ih =>
    rw [overtaken, ← Nat.add_assoc]
    exact ih (h.act a)

end Stray

/-- No load is started beside another one, unless its module was given its source meanwhile. -/
theorem count_inFlight_le (environment : Environment) (limits : Limits)
    (resolver : Option Resolver) (actions : List Action) (key : LoadKey) :
    ((start environment limits resolver).perform actions).inFlight.count key ≤
      1 + overtaken key (start environment limits resolver) actions := by
  have hstart : Stray key 0 (start environment limits resolver) := Nat.zero_le _
  have hstray := hstart.perform actions
  have hone := Stray.recorded_le_one ((start environment limits resolver).perform actions) key
  rw [Stray] at hstray
  omega

/-- A module is given while it is loaded, and then removed and asked for again. -/
def overtaking : List Action :=
  [.setSource "main" "import \"lib\" as lib", .poll "main", .setSource "lib" "true",
    .removeSource "lib", .poll "main"]

set_option maxRecDepth 100000 in
theorem count_inFlight_overtaking :
    ((start .default .default (some .byName)).perform overtaking).inFlight.count ⟨"lib", none⟩ =
      2 := by
  decide +kernel

end Project

end Estimation
