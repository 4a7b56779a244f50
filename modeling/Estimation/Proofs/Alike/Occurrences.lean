import Estimation.Proofs.Alike

/-!
The functions that are in a value. What is known of each of them tells which values are alike.
-/

namespace Estimation

open List

/-- A function is in a value: the value itself, or somewhere in its items or entries. -/
inductive Occurs {β : Type} (f : LambdaOf β) : ValueOf β → Prop
  | lambda : Occurs f (.lambda f)
  | list {v vs} : v ∈ vs → Occurs f v → Occurs f (.list vs)
  | dict {e es} : e ∈ es → Occurs f e.2 → Occurs f (.dict es)

section

variable {β γ : Type} {F : LambdaOf β → LambdaOf γ → Prop}

mutual

theorem alike_of_occurs (hF : ∀ f, F (.native f) (.native f)) :
    ∀ v : ValueOf γ, (∀ g, Occurs g v → ∃ f, F f g) → ∃ w, ValueOf.Alike F w v
  | .void, _ => ⟨.void, .void⟩
  | .number x, _ => ⟨.number x, .number x⟩
  | .string s, _ => ⟨.string s, .string s⟩
  | .bool b, _ => ⟨.bool b, .bool b⟩
  | .samples s, _ => ⟨.samples s, .samples s⟩
  | .lambda g, h =>
    have ⟨f, hf⟩ := h g .lambda
    ⟨.lambda f, .lambda hf⟩
  | .list vs, h =>
    have ⟨ws, hws⟩ := all_alike_of_occurs hF vs fun _ hv g hg => h g (.list hv hg)
    ⟨.list ws, .list hws⟩
  | .dict es, h =>
    have ⟨fs, hfs⟩ := entries_alike_of_occurs hF es fun _ he g hg => h g (.dict he hg)
    ⟨.dict fs, .dict hfs⟩

theorem all_alike_of_occurs (hF : ∀ f, F (.native f) (.native f)) : ∀ vs : List (ValueOf γ),
    (∀ v ∈ vs, ∀ g, Occurs g v → ∃ f, F f g) → ∃ ws, Forall₂ (ValueOf.Alike F) ws vs
  | [], _ => ⟨[], .nil⟩
  | v :: vs, h =>
    have ⟨w, hw⟩ := alike_of_occurs hF v (h v mem_cons_self)
    have ⟨ws, hws⟩ := all_alike_of_occurs hF vs fun u hu => h u (mem_cons_of_mem _ hu)
    ⟨w :: ws, .cons hw hws⟩

theorem entries_alike_of_occurs (hF : ∀ f, F (.native f) (.native f)) :
    ∀ es : List (String × ValueOf γ), (∀ e ∈ es, ∀ g, Occurs g e.2 → ∃ f, F f g) →
      ∃ fs, Forall₂ (EntryAlike (ValueOf.Alike F)) fs es
  | [], _ => ⟨[], .nil⟩
  | (key, v) :: es, h =>
    have ⟨w, hw⟩ := alike_of_occurs hF v (h (key, v) mem_cons_self)
    have ⟨fs, hfs⟩ := entries_alike_of_occurs hF es fun e he => h e (mem_cons_of_mem _ he)
    ⟨(key, w) :: fs, .cons ⟨hw⟩ hfs⟩

end

theorem related_of_mem {α δ : Type} {R : α → δ → Prop} {xs : List α} {ys : List δ}
    (h : Forall₂ R xs ys) {y : δ} (hy : y ∈ ys) : ∃ x ∈ xs, R x y := by
  induction h with
  | nil => cases hy
  | cons hxy _ ih =>
    rcases mem_cons.1 hy with rfl | hy
    · exact ⟨_, mem_cons_self, hxy⟩
    · obtain ⟨x, hx, hr⟩ := ih hy
      exact ⟨x, mem_cons_of_mem _ hx, hr⟩

theorem Occurs.alike {g : LambdaOf γ} {v : ValueOf γ} (h : Occurs g v) {w : ValueOf β}
    (hw : ValueOf.Alike F w v) : ∃ f, F f g := by
  induction h generalizing w with
  | lambda =>
    cases hw with
    | lambda hf => exact ⟨_, hf⟩
  | list hv _ ih =>
    cases hw with
    | list hvs =>
      obtain ⟨u, -, hu⟩ := related_of_mem hvs hv
      exact ih hu
  | dict he _ ih =>
    cases hw with
    | dict hes =>
      obtain ⟨u, -, hu⟩ := related_of_mem hes he
      obtain ⟨hu⟩ := hu
      exact ih hu

theorem Occurs.alike_entries {g : LambdaOf γ} {es : Bindings (ValueOf γ)}
    (h : ∃ e ∈ es, Occurs g e.2) {fs : Bindings (ValueOf β)}
    (hf : Forall₂ (EntryAlike (ValueOf.Alike F)) fs es) : ∃ f, F f g := by
  obtain ⟨e, he, hg⟩ := h
  obtain ⟨u, -, hu⟩ := related_of_mem hf he
  obtain ⟨hu⟩ := hu
  exact hg.alike hu

end

end Estimation
