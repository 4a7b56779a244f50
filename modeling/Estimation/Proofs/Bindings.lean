import Estimation.Proofs.Alike
import Estimation.Proofs.Naming
import Estimation.Proofs.Tables

/-!
Bindings in order of their names are determined by what stands under each name.
-/

namespace Estimation.Bindings

open List

variable {α δ : Type} {name key : String} {v : α} {xs : Bindings α}

def Sorted (xs : Bindings α) : Prop := xs.Pairwise fun x y => x.1 < y.1

theorem get?_erase : get? name (xs.erase key) = if key = name then none else get? name xs := by
  induction xs with
  | nil => simp [erase, get?]
  | cons x xs ih =>
    rw [erase] at ih ⊢
    by_cases hx : x.1 = key
    · rw [filter_cons_of_neg (by simp [hx]), ih]
      split
      · rfl
      · rename_i hn
        simp only [get?, hx, if_neg hn]
    · rw [filter_cons_of_pos (by simp [hx])]
      simp only [get?, ih]
      split
      · rename_i hn
        rw [if_neg fun h => hx (hn.trans h.symm)]
      · rfl

theorem Sorted.nil : Sorted ([] : Bindings α) := Pairwise.nil

theorem Sorted.insert (h : Sorted xs) : Sorted (xs.insert key v) := by
  induction xs with
  | nil => exact pairwise_singleton ..
  | cons x xs ih =>
    obtain ⟨hx, hxs⟩ := pairwise_cons.1 h
    simp only [Bindings.insert]
    split
    · rename_i hk
      refine pairwise_cons.2 ⟨forall_mem_cons.2 ⟨hk, fun y hy => ?_⟩, h⟩
      exact String.lt_trans hk (hx y hy)
    · split
      · rename_i hk
        subst hk
        exact pairwise_cons.2 ⟨hx, hxs⟩
      · rename_i hlt hne
        refine pairwise_cons.2 ⟨forall_insert ?_ hx, ih hxs⟩
        by_contra hle
        exact hne (String.le_antisymm hle hlt)

theorem Sorted.erase (h : Sorted xs) : Sorted (xs.erase key) := Pairwise.filter _ h

theorem get?_eq_none_of_lt (h : ∀ x ∈ xs, name < x.1) : get? name xs = none := by
  induction xs with
  | nil => rfl
  | cons x xs ih =>
    simp only [get?]
    rw [if_neg (String.ne_of_lt (h x mem_cons_self)).symm,
      ih fun y hy => h y (mem_cons_of_mem _ hy)]

theorem alike_of_get? {R : α → δ → Prop} {ys : Bindings δ} (hx : Sorted xs) (hy : Sorted ys)
    (h : ∀ name, Option.Rel R (get? name xs) (get? name ys)) : Forall₂ (EntryAlike R) xs ys := by
  induction xs generalizing ys with
  | nil =>
    cases ys with
    | nil => exact .nil
    | cons y ys =>
      have hn := h y.1
      simp only [get?, ↓reduceIte] at hn
      cases hn
  | cons x xs ih =>
    obtain ⟨k, v⟩ := x
    obtain ⟨hk, hxs⟩ := pairwise_cons.1 hx
    cases ys with
    | nil =>
      have hn := h k
      simp only [get?, ↓reduceIte] at hn
      cases hn
    | cons y ys =>
      obtain ⟨l, w⟩ := y
      obtain ⟨hl, hys⟩ := pairwise_cons.1 hy
      have hnk : ¬ k < l := by
        intro hlt
        have hn := h k
        rw [get?_eq_none_of_lt (forall_mem_cons.2 ⟨hlt, fun y hy => String.lt_trans hlt (hl y hy)⟩)] at hn
        simp only [get?, ↓reduceIte] at hn
        cases hn
      have hnl : ¬ l < k := by
        intro hlt
        have hn := h l
        rw [get?_eq_none_of_lt (forall_mem_cons.2 ⟨hlt, fun y hy => String.lt_trans hlt (hk y hy)⟩)] at hn
        simp only [get?, ↓reduceIte] at hn
        cases hn
      have heq : k = l := String.le_antisymm hnl hnk
      subst heq
      have hvw := h k
      simp only [get?, ↓reduceIte] at hvw
      cases hvw with
      | some hvw =>
        refine .cons ⟨hvw⟩ (ih hxs hys fun name => ?_)
        by_cases hn : k = name
        · subst hn
          rw [get?_eq_none_of_lt hk, get?_eq_none_of_lt hl]
          exact .none
        · have hr := h name
          simp only [get?, if_neg hn] at hr
          exact hr

end Estimation.Bindings
