import Estimation.Proofs.Sorting

/-!
Searching backwards from a name finds what leads to it forwards: the names from which a search for an
order comes to it. The way back may go round through the name itself, or end at one that stands for
nothing.
-/

namespace Estimation.Graph

open List

variable {g : Graph} {name x y : String} {names entries order : List String}
  {dependencies : String → List String} {steps : Nat}

theorem pairwise_insertName {xs : List String} (h : xs.Pairwise (· < ·)) :
    (insertName x xs).Pairwise (· < ·) := by
  induction xs with
  | nil => exact pairwise_singleton ..
  | cons y xs ih =>
    obtain ⟨hy, hxs⟩ := pairwise_cons.1 h
    simp only [insertName]
    split
    · rename_i hlt
      exact pairwise_cons.2 ⟨forall_mem_cons.2 ⟨hlt, fun z hz => String.lt_trans hlt (hy z hz)⟩, h⟩
    · split
      · exact h
      · rename_i hle hne
        refine pairwise_cons.2 ⟨fun z hz => ?_, ih hxs⟩
        rcases mem_insertName.1 hz with rfl | hz
        · by_contra hge
          exact hne (String.le_antisymm hge hle)
        · exact hy z hz

theorem pairwise_sorted (xs : List String) : (sorted xs).Pairwise (· < ·) := by
  induction xs with
  | nil => exact .nil
  | cons x xs ih => exact pairwise_insertName ih

theorem reach_of_dependentsWithin (h : x ∈ g.dependentsWithin y steps) :
    x ∈ g.names ∧ x ≠ y ∧ Relation.ReflTransGen g.DependsOn x y := by
  induction steps generalizing x with
  | zero => cases h
  | succ steps ih =>
    obtain ⟨hx, hne, b, hb, htarget⟩ := mem_dependingOn.1 h
    refine ⟨hx, hne, .head hb ?_⟩
    rcases mem_cons.1 htarget with rfl | hb
    · exact .refl
    · exact (ih hb).2.2

theorem mem_names_of_dependsOn (h : g.DependsOn x y) : x ∈ g.names := by
  by_contra hx
  rw [DependsOn, dependencies_eq_nil hx] at h
  cases h

theorem found_of_reach (h : Relation.ReflTransGen g.DependsOn x y) :
    x = y ∨ x ∈ g.transitiveDependents y := by
  induction h using Relation.ReflTransGen.head_induction_on with
  | refl => exact .inl rfl
  | head hab _ ih => exact transitiveDependents_closed (mem_names_of_dependsOn hab) hab ih

theorem mem_transitiveDependents : x ∈ g.transitiveDependents y ↔
    x ∈ g.names ∧ x ≠ y ∧ Relation.ReflTransGen g.DependsOn x y := by
  constructor
  · intro hx
    rw [transitiveDependents, mem_sorted] at hx
    exact reach_of_dependentsWithin hx
  · rintro ⟨-, hne, hreach⟩
    exact (found_of_reach hreach).resolve_left hne

/-- Searching backwards from a name finds, in order, the other names from which it is reached, and these
are the ones whose order holds it. -/
theorem transitiveDependents_reach (names : List String) (dependencies : String → List String)
    (h : ∀ n, n ∉ names → dependencies n = []) (y : String) :
    let found := (of names dependencies).transitiveDependents y
    found.Pairwise (· < ·) ∧ y ∉ found ∧
    (∀ x, x ∈ found ↔ x ∈ names ∧ x ≠ y ∧
      Relation.ReflTransGen (fun a b => b ∈ dependencies a) x y) ∧
    ∀ x ∈ names, x ≠ y →
      (∀ n, Relation.ReflTransGen (fun a b => b ∈ dependencies a) x n →
        ¬ Relation.TransGen (fun a b => b ∈ dependencies a) n n) →
      ∃ order, (of names dependencies).runOrder [x] = .ok order ∧ (x ∈ found ↔ y ∈ order) := by
  intro found
  have hsame : (of names dependencies).dependencies = dependencies :=
    funext fun n => dependencies_of fun hne => by_contra fun hn => hne (h n hn)
  have hdepends : (of names dependencies).DependsOn = fun a b => b ∈ dependencies a := by
    funext a b
    rw [DependsOn, hsame]
  have hfound : ∀ x, x ∈ found ↔ x ∈ names ∧ x ≠ y ∧
      Relation.ReflTransGen (fun a b => b ∈ dependencies a) x y := fun x => by
    rw [mem_transitiveDependents, names_of, hdepends]
  refine ⟨pairwise_sorted _, fun hy => ((hfound y).1 hy).2.1 rfl, hfound, fun x hx hne hround => ?_⟩
  obtain ⟨order, horder⟩ : ∃ order, (of names dependencies).runOrder [x] = .ok order := by
    rw [runOrder_ok_iff, hdepends, hsame]
    exact fun n hn => hround n (needed_singleton.1 hn)
  refine ⟨order, horder, ?_⟩
  rw [hfound, mem_runOrder horder, hsame, needed_singleton]
  exact ⟨fun hx => hx.2.2, fun hreach => ⟨hx, hne, hreach⟩⟩

/-- Back from a name on a cycle, and from one that has no dependencies and is not among the names. -/
theorem transitiveDependents_reach_overlapping :
    let g := of overlapping.names overlapping.dependencies
    let reach := Relation.ReflTransGen fun a b => b ∈ overlapping.dependencies a
    (∀ n, n ∉ overlapping.names → overlapping.dependencies n = []) ∧
    (g.transitiveDependents "a" = ["b", "main"] ∧
      ∀ x, x ∈ ["b", "main"] ↔ x ∈ overlapping.names ∧ x ≠ "a" ∧ reach x "a") ∧
    g.transitiveDependents "lib" = ["a", "b", "c", "main"] ∧
    (∀ n, reach "c" n → ¬ Relation.TransGen (fun a b => b ∈ overlapping.dependencies a) n n) ∧
    ∃ order, g.runOrder ["c"] = .ok order ∧ ("c" ∈ ["a", "b", "c", "main"] ↔ "lib" ∈ order) := by
  intro g reach
  have h : ∀ n, n ∉ overlapping.names → overlapping.dependencies n = [] := fun n =>
    dependencies_eq_nil
  have hround : ∀ n, reach "c" n →
      ¬ Relation.TransGen (fun a b => b ∈ overlapping.dependencies a) n n := fun n hn =>
    runOrder_ok_iff.1 ⟨["lib", "c"], by decide⟩ n (needed_singleton.2 hn)
  have ha : g.transitiveDependents "a" = ["b", "main"] := by decide
  have hlib : g.transitiveDependents "lib" = ["a", "b", "c", "main"] := by decide
  refine ⟨h, ⟨ha, ?_⟩, hlib, hround, ?_⟩
  · rw [← ha]
    exact (transitiveDependents_reach _ _ h "a").2.2.1
  · rw [← hlib]
    exact (transitiveDependents_reach _ _ h "lib").2.2.2 "c" (by decide) (by decide) hround

end Estimation.Graph
