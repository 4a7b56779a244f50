import Estimation.Project.Sources
import Mathlib.Data.List.Basic
import Mathlib.Tactic.ByContra

/-!
The transitive dependents of a name are closed under dependency: a search that goes as many steps
as there are names finds all of them, since each step that finds anything finds another name. So
whatever depends on a name that an edit affects is affected too.
-/

namespace Estimation

open List

namespace Graph

variable {g : Graph} {name a b : String}

/-- The graph of what some names depend on, as far as that is to be looked at. -/
def of (names : List String) (dependencies : String → List String) : Graph :=
  ⟨names.map fun n => (n, dependencies n)⟩

@[simp] theorem names_of (names : List String) (dependencies : String → List String) :
    (of names dependencies).names = names := by
  simp [of, Graph.names, Function.comp_def]

theorem dependencies_of {names : List String} {dependencies : String → List String}
    (h : dependencies a ≠ [] → a ∈ names) : (of names dependencies).dependencies a = dependencies a := by
  rw [Graph.dependencies, of]
  induction names with
  | nil => simpa [eq_comm] using h
  | cons n names ih =>
    by_cases hn : a = n
    · simp [hn]
    · rw [map_cons, lookup_cons, beq_eq_false_iff_ne.2 hn]
      exact ih fun hne => (mem_cons.1 (h hne)).resolve_left hn

theorem mem_insertName {xs : List String} : a ∈ insertName b xs ↔ a = b ∨ a ∈ xs := by
  induction xs with
  | nil => simp [insertName]
  | cons x xs ih =>
    simp only [insertName]
    split
    · simp
    · split
      · rename_i h
        subst h
        simp
      · simp only [mem_cons, ih]
        tauto

theorem mem_sorted {xs : List String} : a ∈ sorted xs ↔ a ∈ xs := by
  induction xs with
  | nil => rfl
  | cons x xs ih =>
    rw [sorted, foldr_cons, ← sorted, mem_insertName, ih, mem_cons]

theorem mem_dependingOn {targets : List String} : a ∈ g.dependingOn name targets ↔
    a ∈ g.names ∧ a ≠ name ∧ ∃ b ∈ g.dependencies a, b ∈ targets := by
  simp [dependingOn]

theorem dependingOn_sublist {xs ys : List String} (h : ∀ x ∈ xs, x ∈ ys) :
    g.dependingOn name xs <+ g.dependingOn name ys := by
  refine monotone_filter_right _ fun n hn => ?_
  simp only [Bool.decide_and, Bool.and_eq_true, decide_eq_true_eq, any_eq_true] at hn ⊢
  obtain ⟨hne, b, hb, hx⟩ := hn
  exact ⟨hne, b, hb, h b hx⟩

theorem dependentsWithin_sublist (g : Graph) (name : String) (steps : Nat) :
    g.dependentsWithin name steps <+ g.dependentsWithin name (steps + 1) := by
  induction steps with
  | zero => exact nil_sublist _
  | succ steps ih =>
    refine dependingOn_sublist fun x hx => ?_
    rcases mem_cons.1 hx with rfl | hx
    · exact mem_cons_self
    · exact mem_cons_of_mem _ (ih.subset hx)

theorem dependentsWithin_add {steps : Nat}
    (h : g.dependentsWithin name steps = g.dependentsWithin name (steps + 1)) (more : Nat) :
    g.dependentsWithin name (steps + more) = g.dependentsWithin name steps := by
  induction more with
  | zero => rfl
  | succ more ih =>
    rw [← Nat.add_assoc, dependentsWithin, ih]
    exact h.symm

/-- As long as every step finds another name, there are as many names as steps. -/
theorem le_length_or_stable (g : Graph) (name : String) (steps : Nat) : steps ≤ (g.dependentsWithin name steps).length ∨
    ∃ k < steps, g.dependentsWithin name k = g.dependentsWithin name (k + 1) := by
  induction steps with
  | zero => exact .inl (Nat.zero_le _)
  | succ steps ih =>
    rcases ih with h | ⟨k, hk, h⟩
    · by_cases heq : g.dependentsWithin name steps = g.dependentsWithin name (steps + 1)
      · exact .inr ⟨steps, Nat.lt_succ_self _, heq⟩
      · have hs := dependentsWithin_sublist g name steps
        have hlt : (g.dependentsWithin name steps).length <
            (g.dependentsWithin name (steps + 1)).length :=
          Nat.lt_of_le_of_ne hs.length_le fun hl => heq (hs.eq_of_length hl)
        exact .inl (by omega)
    · exact .inr ⟨k, Nat.lt_succ_of_lt hk, h⟩

theorem dependentsWithin_stable : g.dependentsWithin name g.names.length =
    g.dependentsWithin name (g.names.length + 1) := by
  have hstable : ∃ k ≤ g.names.length,
      g.dependentsWithin name k = g.dependentsWithin name (k + 1) := by
    rcases le_length_or_stable g name (g.names.length + 1) with h | ⟨k, hk, h⟩
    · have hle : (g.dependentsWithin name (g.names.length + 1)).length ≤ g.names.length :=
        length_filter_le _ _
      omega
    · exact ⟨k, Nat.lt_succ_iff.1 hk, h⟩
  obtain ⟨k, hk, h⟩ := hstable
  obtain ⟨more, hmore⟩ := Nat.exists_eq_add_of_le hk
  rw [hmore, Nat.add_assoc, dependentsWithin_add h, dependentsWithin_add h]

theorem transitiveDependents_closed (ha : a ∈ g.names) (hab : b ∈ g.dependencies a)
    (hb : b = name ∨ b ∈ g.transitiveDependents name) :
    a = name ∨ a ∈ g.transitiveDependents name := by
  by_cases hn : a = name
  · exact .inl hn
  · refine .inr ?_
    rw [transitiveDependents, mem_sorted] at hb ⊢
    rw [dependentsWithin_stable]
    exact mem_dependingOn.2 ⟨ha, hn, b, hab, mem_cons.2 hb⟩

end Graph

namespace Sources

variable {s : Sources} {resolver : Option Resolver} {name a b : String} {m : Module} {i : Import}

theorem head?_of_headModule? (h : s.headModule? name = some m) : (s.head? name).isSome := by
  rw [headModule?] at h
  cases hh : s.head? name with
  | none => rw [hh] at h; cases h
  | some _ => rfl

theorem mem_names_of_head? (h : (s.head? name).isSome) : name ∈ s.names := by
  obtain ⟨hash, h⟩ := Option.isSome_iff_exists.1 h
  rw [head?] at h
  rw [names]
  generalize s.heads = heads at h ⊢
  induction heads with
  | nil => cases h
  | cons entry heads ih =>
    simp only [Bindings.get?] at h
    split at h
    · rename_i hn
      exact hn ▸ mem_cons_self
    · exact mem_cons_of_mem _ (ih h)

theorem mem_names (h : s.headModule? name = some m) : name ∈ s.names :=
  mem_names_of_head? (head?_of_headModule? h)

/-- The version that `a` stands for has an import that means `b`. -/
def DependsOn (s : Sources) (resolver : Option Resolver) (a b : String) : Prop :=
  ∃ m, s.headModule? a = some m ∧ ∃ i ∈ s.knownImports a m, target resolver a i = .ok b

theorem mem_dependencies : b ∈ s.dependencies resolver a ↔ s.DependsOn resolver a b := by
  rw [dependencies]
  constructor
  · intro hb
    split at hb
    · cases hb
    · rename_i m hm
      obtain ⟨i, hi, ht⟩ := mem_filterMap.1 (mem_eraseDups.1 hb)
      refine ⟨m, hm, i, hi, ?_⟩
      cases htarget : target resolver a i with
      | error e =>
        rw [htarget] at ht
        cases ht
      | ok c =>
        rw [htarget] at ht
        cases ht
        rfl
  · rintro ⟨m, hm, i, hi, ht⟩
    rw [hm]
    refine mem_eraseDups.2 (mem_filterMap.2 ⟨i, hi, ?_⟩)
    rw [ht]
    rfl

/-- A name that stands for nothing depends on nothing. -/
theorem dependencies_graph : (s.graph resolver).dependencies a = s.dependencies resolver a := by
  refine Graph.dependencies_of fun hne => ?_
  obtain ⟨b, hb⟩ := exists_mem_of_ne_nil _ hne
  obtain ⟨m, hm, -⟩ := mem_dependencies.1 hb
  exact mem_names hm

/-- Whatever depends on an affected name is affected. -/
theorem mem_affectedBy (h : s.DependsOn resolver a b) (hb : b ∈ s.affectedBy resolver name) :
    a ∈ s.affectedBy resolver name := by
  have ha : a ∈ (s.graph resolver).names := by
    obtain ⟨m, hm, -⟩ := h
    rw [Graph.names, graph, map_map]
    exact mem_map.2 ⟨a, mem_names hm, rfl⟩
  rw [affectedBy, mem_append, mem_singleton] at hb ⊢
  have hdep : b ∈ (s.graph resolver).dependencies a :=
    dependencies_graph ▸ mem_dependencies.2 h
  exact (Graph.transitiveDependents_closed ha hdep hb.symm).symm

/-- The hash that a name's imports of a specifier are pinned to. -/
def pin? (s : Sources) (name specifier : String) : Option String :=
  (s.pins.get? name).bind (·.get? specifier)

/-- Pins count where the code is a program. -/
theorem pin_eq_of_mem_knownImports (hi : i ∈ s.knownImports name m) :
    i.pin = if m.program.isOk then s.pin? name i.specifier else none := by
  have hcontinued : ∀ i ∈ s.continuedImports name, i.pin = none := by
    intro i hi
    obtain ⟨_, -, rfl⟩ := mem_map.1 hi
    rfl
  cases hm : m.program with
  | error e =>
    rw [knownImports, importsOf, Module.namedImports, hm] at hi
    exact hcontinued i hi
  | ok program =>
    rw [knownImports, importsOf, Module.namedImports, hm] at hi
    change i.pin = s.pin? name i.specifier
    rw [pin?]
    cases hpins : s.pins.get? name with
    | some pins =>
      rw [hpins] at hi
      obtain ⟨_, -, rfl⟩ := mem_map.1 hi
      rfl
    | none =>
      rw [hpins] at hi
      rcases mem_append.1 hi with hi | hi
      · exact hcontinued i hi
      · obtain ⟨_, -, rfl⟩ := mem_map.1 hi
        rfl

theorem pin_of_mem_knownImports (hs : s.pins = []) (hi : i ∈ s.knownImports name m) :
    i.pin = none := by
  rw [pin_eq_of_mem_knownImports hi, pin?, hs]
  exact ite_self none

end Sources

end Estimation
