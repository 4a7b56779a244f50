import Estimation.Project.Store
import Mathlib.Data.List.Basic

/-!
What stands under the keys of tables that were changed, and which outputs stay.
-/

namespace Estimation

open List

namespace Bindings

variable {α : Type} {name key : String} {v : α} {xs : Bindings α}

theorem get?_eq_get? : get? name xs = Table.get? name xs := by
  induction xs with
  | nil => rfl
  | cons x xs ih => rw [get?, Table.get?, ih]

theorem get?_insert : get? name (xs.insert key v) = if key = name then some v else get? name xs := by
  induction xs with
  | nil => rfl
  | cons x xs ih =>
    simp only [insert]
    split
    · rfl
    · split
      · rename_i hx
        subst hx
        simp only [get?]
        split <;> rfl
      · rename_i hx
        simp only [get?, ih]
        split
        · rename_i hn
          rw [if_neg fun h => hx (h.trans hn.symm)]
        · rfl

/-- What holds of all entries and of a new one. -/
theorem forall_insert {P : String × α → Prop} (hv : P (key, v)) (h : ∀ x ∈ xs, P x) :
    ∀ x ∈ xs.insert key v, P x := by
  induction xs with
  | nil => simpa [insert] using hv
  | cons x xs ih =>
    have hxs := fun y hy => h y (mem_cons_of_mem _ hy)
    simp only [insert]
    split
    · exact forall_mem_cons.2 ⟨hv, h⟩
    · split
      · exact forall_mem_cons.2 ⟨hv, hxs⟩
      · exact forall_mem_cons.2 ⟨h x mem_cons_self, ih hxs⟩

theorem forall_merge {P : String × α → Prop} {more : Bindings α} (h : ∀ x ∈ xs, P x)
    (hmore : ∀ x ∈ more, P x) : ∀ x ∈ xs.merge more, P x := by
  induction more generalizing xs with
  | nil => exact h
  | cons x more ih =>
    obtain ⟨hx, hrest⟩ := forall_mem_cons.1 hmore
    exact ih (forall_insert hx h) hrest

end Bindings

namespace Table

variable {κ α : Type} [DecidableEq κ] {key : κ} {value : α} {t : Table κ α} {e : κ × α}

theorem mem_of_get? (h : t.get? key = some value) : (key, value) ∈ t := by
  induction t with
  | nil => cases h
  | cons entry t ih =>
    simp only [get?] at h
    split at h
    · rename_i hk
      cases h
      subst hk
      exact mem_cons_self
    · exact mem_cons_of_mem _ (ih h)

theorem isSome_of_mem (h : e ∈ t) : (t.get? e.1).isSome := by
  induction t with
  | nil => cases h
  | cons entry t ih =>
    simp only [get?]
    split
    · rfl
    · rename_i hk
      rcases mem_cons.1 h with rfl | h
      · exact absurd rfl hk
      · exact ih h

theorem mem_set (h : e ∈ t.set key value) : e = (key, value) ∨ e ∈ t := by
  induction t with
  | nil => exact .inl (mem_singleton.1 h)
  | cons entry t ih =>
    simp only [set] at h
    split at h
    · rcases mem_cons.1 h with h | h
      · exact .inl h
      · exact .inr (mem_cons_of_mem _ h)
    · rcases mem_cons.1 h with h | h
      · exact .inr (h ▸ mem_cons_self)
      · exact (ih h).imp_right (mem_cons_of_mem _)

theorem get?_filter {keep : κ × α → Bool} (h : t.get? key = some value)
    (hk : keep (key, value) = true) : get? key (t.filter keep) = some value := by
  induction t with
  | nil => cases h
  | cons entry t ih =>
    simp only [get?] at h
    split at h
    · rename_i he
      cases h
      subst he
      rw [filter_cons_of_pos hk]
      simp only [get?, if_pos]
    · rename_i he
      by_cases hentry : keep entry = true
      · rw [filter_cons_of_pos hentry]
        simp only [get?, if_neg he, ih h]
      · rw [filter_cons_of_neg hentry, ih h]

theorem get?_filter_fst (keep : κ → Bool) (key : κ) (t : Table κ α) :
    get? key (t.filter fun e => keep e.1) = if keep key then t.get? key else none := by
  induction t with
  | nil => simp [get?]
  | cons entry t ih =>
    rw [filter_cons]
    by_cases hk : entry.1 = key
    · subst hk
      by_cases h : keep entry.1 <;> simp_all [get?]
    · by_cases h : keep entry.1 <;> simp_all [get?]

theorem get?_append (key : κ) (t u : Table κ α) :
    get? key (t ++ u) = (t.get? key).or (u.get? key) := by
  induction t with
  | nil => simp [get?]
  | cons entry t ih =>
    simp only [cons_append, get?]
    split
    · rfl
    · exact ih

theorem set_of_get?_none (h : t.get? key = none) : t.set key value = t ++ [(key, value)] := by
  induction t with
  | nil => rfl
  | cons entry t ih =>
    simp only [get?] at h
    split at h
    · cases h
    · rename_i hk
      simp only [set, if_neg hk, ih h, cons_append]

theorem get?_setNew_self : ((t.setNew key value).get? key).isSome := by
  rw [setNew]
  split
  · assumption
  · rw [get?_set, if_pos rfl]
    rfl

theorem get?_setNew (h : t.get? key = some value) (other : κ) (new : α) :
    (t.setNew other new).get? key = some value := by
  rw [setNew]
  split
  · exact h
  · rename_i hn
    rw [get?_set, if_neg, h]
    rintro rfl
    exact hn (by rw [h]; rfl)

theorem of_get?_setNew {other : κ} {new : α} (h : (t.setNew other new).get? key = some value) :
    value = new ∨ t.get? key = some value := by
  rw [setNew] at h
  split at h
  · exact .inr h
  · rw [get?_set] at h
    split at h
    · cases h
      exact .inl rfl
    · exact .inr h

end Table

namespace Event

variable {names : List String} {t : Table OutputId Output} {id : OutputId} {o : Output}

theorem mem_without {e : OutputId × Output} :
    e ∈ without names t ↔ e ∈ t ∧ e.2.name ∉ names := by
  simp [without]

theorem get?_without (h : t.get? id = some o) (hn : o.name ∉ names) :
    (without names t).get? id = some o :=
  Table.get?_filter h (decide_eq_true hn)

end Event

end Estimation
