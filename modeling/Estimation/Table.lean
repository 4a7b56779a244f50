/-!
Tables: what stands under keys, in the order in which the keys came in.
-/

namespace Estimation

abbrev Table (κ α : Type) : Type := List (κ × α)

namespace Table

variable {κ α : Type} [DecidableEq κ]

def get? (key : κ) : Table κ α → Option α
  | [] => none
  | (k, a) :: rest => if k = key then some a else get? key rest

/-- Puts something under a key, instead of what is there. -/
def set (key : κ) (value : α) : Table κ α → Table κ α
  | [] => [(key, value)]
  | (k, a) :: rest => if k = key then (key, value) :: rest else (k, a) :: set key value rest

/-- Puts something under a key, unless there is something already. -/
def setNew (key : κ) (value : α) (t : Table κ α) : Table κ α :=
  if (t.get? key).isSome then t else t.set key value

def erase (key : κ) (t : Table κ α) : Table κ α := t.filter fun entry => entry.1 ≠ key

theorem get?_set (key key' : κ) (value : α) (t : Table κ α) :
    (t.set key value).get? key' = if key = key' then some value else t.get? key' := by
  induction t with
  | nil => simp [set, get?]
  | cons entry rest ih =>
    obtain ⟨k, a⟩ := entry
    by_cases hk : k = key
    · subst hk
      by_cases h : k = key' <;> simp [set, get?, h]
    · by_cases h : key = key'
      · subst h
        simpa [set, get?, hk] using ih
      · by_cases h' : k = key' <;> simp_all [set, get?]

theorem get?_erase (key key' : κ) (t : Table κ α) :
    (t.erase key).get? key' = if key = key' then none else t.get? key' := by
  induction t with
  | nil => simp [erase, get?]
  | cons entry rest ih =>
    obtain ⟨k, a⟩ := entry
    simp only [erase] at ih ⊢
    by_cases hk : k = key
    · subst hk
      by_cases h : k = key' <;> simp_all [get?]
    · by_cases h : key = key'
      · subst h
        simp_all [get?]
      · by_cases h' : k = key' <;> simp_all [get?]

end Table

end Estimation
