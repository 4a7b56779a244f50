import Estimation.Proofs.Ordering

/-!
An order for several names is a topological order of all that they need. Where there is none, the
search ends with a cycle among it, whose names are different up to the end, where the first comes
again.
-/

namespace Estimation

open List

section

variable {R S : String → String → Prop} {P : String → Prop} {a b : String} {rest : List String}

theorem reach_within (h : ∀ a b, P a → R a b → S a b ∧ P b) (ha : P a)
    (hab : Relation.ReflTransGen R a b) : Relation.ReflTransGen S a b ∧ P b := by
  induction hab with
  | refl => exact ⟨.refl, ha⟩
  | tail _ hbc ih =>
    obtain ⟨hS, hP⟩ := h _ _ ih.2 hbc
    exact ⟨ih.1.tail hS, hP⟩

theorem transGen_within (h : ∀ a b, P a → R a b → S a b ∧ P b) (ha : P a)
    (hab : Relation.TransGen R a b) : Relation.TransGen S a b := by
  obtain ⟨c, hac, hcb⟩ := Relation.TransGen.head'_iff.1 hab
  obtain ⟨hS, hc⟩ := h a c ha hac
  exact Relation.TransGen.head'_iff.2 ⟨c, hS, (reach_within h hc hcb).1⟩

theorem isChain_within (h : ∀ a b, P a → R a b → S a b ∧ P b) (ha : P a)
    (hchain : (a :: rest).IsChain R) : (a :: rest).IsChain S := by
  induction rest generalizing a with
  | nil => exact .singleton a
  | cons b rest ih =>
    obtain ⟨hab, hrest⟩ := isChain_cons_cons.1 hchain
    obtain ⟨hS, hb⟩ := h a b ha hab
    exact isChain_cons_cons.2 ⟨hS, ih hb hrest⟩

theorem not_transGen_of_acc {α : Type} {R : α → α → Prop} {a : α} (h : Acc (fun b a => R a b) a) :
    ¬ Relation.TransGen R a a :=
  fun ha => not_self_of_acc h.transGen (Relation.transGen_swap.2 ha)

end

namespace Graph

/-- One of the entries is the name, or depends on it in some steps. -/
def Needed (dependencies : String → List String) (entries : List String) (name : String) : Prop :=
  ∃ e ∈ entries, Relation.ReflTransGen (fun a b => b ∈ dependencies a) e name

variable {g : Graph} {a b name : String} {dependencies : String → List String}
  {chain order order' names entries : List String}

theorem Needed.entry (h : name ∈ entries) : Needed dependencies entries name := ⟨name, h, .refl⟩

theorem needed_singleton : Needed dependencies [a] b ↔
    Relation.ReflTransGen (fun a b => b ∈ dependencies a) a b := by
  simp [Needed]

theorem Needed.tail (h : Needed dependencies entries a) (hb : b ∈ dependencies a) :
    Needed dependencies entries b := by
  obtain ⟨e, he, hreach⟩ := h
  exact ⟨e, he, hreach.tail hb⟩

theorem Needed.of_dependency (h : Needed dependencies (dependencies a) name) (ha : a ∈ entries) :
    Needed dependencies entries name := by
  obtain ⟨d, hd, hreach⟩ := h
  exact ⟨a, ha, .head hd hreach⟩

theorem Needed.mono (h : Needed dependencies names name) (hsub : names ⊆ entries) :
    Needed dependencies entries name := by
  obtain ⟨e, he, hreach⟩ := h
  exact ⟨e, hsub he, hreach⟩

theorem Ordered.before {first rest : List String} (h : Ordered g order)
    (horder : order = first ++ name :: rest) : ∀ d ∈ g.dependencies name, d ∈ first := by
  induction h generalizing rest with
  | nil => simp at horder
  | @snoc order last _ _ hd ih =>
    rcases eq_nil_or_concat rest with rfl | ⟨rest, n, rfl⟩
    · obtain ⟨rfl, hlast⟩ := append_inj' horder rfl
      cases hlast
      exact hd
    · rw [concat_eq_append, ← cons_append, ← append_assoc] at horder
      exact ih (append_inj' horder rfl).1

theorem Ordered.closed (h : Ordered g order) (ha : a ∈ order) (hb : b ∈ g.dependencies a) :
    b ∈ order := by
  obtain ⟨first, rest, rfl⟩ := append_of_mem ha
  exact mem_append_left _ (h.before rfl b hb)

/-- What an order holds in the end it held before, or it is needed. -/
theorem Visits.needed (h : Visits g chain order names order') (hname : name ∈ order') :
    name ∈ order ∨ Needed g.dependencies names name := by
  induction h with
  | nil => exact .inl hname
  | there _ _ _ ih => exact (ih hname).imp_right fun h => h.mono (subset_cons_self _ _)
  | @fresh _ _ _ _ n _ _ _ _ _ ihdependencies ih =>
    rcases ih hname with hname | hname
    · rcases mem_append.1 hname with hname | hname
      · exact (ihdependencies hname).imp_right fun h => h.of_dependency mem_cons_self
      · exact .inr (mem_singleton.1 hname ▸ .entry mem_cons_self)
    · exact .inr (hname.mono (subset_cons_self _ _))

theorem grows_of_runOrder (h : g.runOrder entries = .ok order) : Grows g [] [] order entries :=
  (visits_of_runOrder h).grows .nil

theorem mem_runOrder (h : g.runOrder entries = .ok order) :
    name ∈ order ↔ Needed g.dependencies entries name := by
  constructor
  · exact fun hname => ((visits_of_runOrder h).needed hname).resolve_left not_mem_nil
  · rintro ⟨e, he, hreach⟩
    have hgrows := grows_of_runOrder h
    induction hreach with
    | refl => exact hgrows.mem e he
    | tail _ hd ih => exact hgrows.ordered.closed ih hd

theorem runOrder_ok_iff : (∃ order, g.runOrder entries = .ok order) ↔
    ∀ n, Needed g.dependencies entries n → ¬ Relation.TransGen g.DependsOn n n := by
  constructor
  · rintro ⟨order, h⟩ n hn
    exact not_transGen_of_acc ((grows_of_runOrder h).ordered.acc ((mem_runOrder h).2 hn))
  · intro hround
    cases h : g.runOrder entries with
    | ok order => exact ⟨order, rfl⟩
    | error cycle =>
      obtain ⟨e, he, ⟨first, between, rfl, hlinks, hreach⟩, -⟩ := runOrder_error h
      exact absurd (transGen_of_isChain hlinks) (hround first ⟨e, he, hreach⟩)

section

variable (h : ∀ n, Needed dependencies entries n → dependencies n ≠ [] → n ∈ names)

include h

theorem of_within (a b : String) (ha : Needed dependencies entries a)
    (hb : (of names dependencies).DependsOn a b) :
    b ∈ dependencies a ∧ Needed dependencies entries b := by
  rw [DependsOn, dependencies_of (h a ha)] at hb
  exact ⟨hb, ha.tail hb⟩

theorem within_of (a b : String) (ha : Needed dependencies entries a) (hb : b ∈ dependencies a) :
    (of names dependencies).DependsOn a b ∧ Needed dependencies entries b := by
  rw [DependsOn, dependencies_of (h a ha)]
  exact ⟨hb, ha.tail hb⟩

theorem needed_of : Needed (of names dependencies).dependencies entries name ↔
    Needed dependencies entries name := by
  constructor
  · rintro ⟨e, he, hreach⟩
    exact (reach_within (of_within h) (.entry he) hreach).2
  · rintro ⟨e, he, hreach⟩
    exact ⟨e, he, (reach_within (within_of h) (.entry he) hreach).1⟩

end

/-- The search for an order of what some names need looks at no more than that. There is an order if and
only if no name among it comes back to itself. It holds each name once, behind all that the name depends
on; otherwise there is a cycle of different names. -/
theorem runOrder_sorts (entries names : List String) (dependencies : String → List String)
    (h : ∀ n, Needed dependencies entries n → dependencies n ≠ [] → n ∈ names) :
    ((∃ order, (of names dependencies).runOrder entries = .ok order) ↔
      ∀ n, Needed dependencies entries n →
        ¬ Relation.TransGen (fun a b => b ∈ dependencies a) n n) ∧
    (∀ order, (of names dependencies).runOrder entries = .ok order →
      order.Nodup ∧ (∀ n, n ∈ order ↔ Needed dependencies entries n) ∧
        ∀ first n rest, order = first ++ n :: rest → ∀ d ∈ dependencies n, d ∈ first) ∧
    ∀ chain, (of names dependencies).runOrder entries = .error chain →
      ∃ first between, chain = first :: (between ++ [first]) ∧ (first :: between).Nodup ∧
        Needed dependencies entries first ∧ chain.IsChain fun a b => b ∈ dependencies a := by
  refine ⟨?_, fun order horder => ?_, fun chain hchain => ?_⟩
  · rw [runOrder_ok_iff]
    refine forall_congr' fun n => ?_
    rw [needed_of h]
    refine forall_congr' fun hn => not_congr ⟨?_, ?_⟩
    · exact transGen_within (of_within h) hn
    · exact transGen_within (within_of h) hn
  · have hmem : ∀ n, n ∈ order ↔ Needed dependencies entries n := fun n =>
      (mem_runOrder horder).trans (needed_of h)
    have hordered := (grows_of_runOrder horder).ordered
    refine ⟨hordered.nodup, hmem, fun first n rest hrest d hd => hordered.before hrest d ?_⟩
    rw [dependencies_of (h n ((hmem n).1 (hrest ▸ by simp)))]
    exact hd
  · obtain ⟨e, he, ⟨first, between, rfl, hlinks, hreach⟩, hnodup⟩ := runOrder_error hchain
    have hneeded : Needed dependencies entries first := (needed_of h).1 ⟨e, he, hreach⟩
    rw [← cons_append, dropLast_concat] at hnodup
    exact ⟨first, between, rfl, hnodup, hneeded, isChain_within (of_within h) hneeded hlinks⟩

/-- A cycle behind a name that has an order. -/
def overlapping : Graph :=
  ⟨[("main", ["lib", "a"]), ("a", ["b", "b"]), ("b", ["c", "a", "b"]), ("c", ["lib", "lib"])]⟩

theorem overlapping_names (entries : List String) (n : String)
    (_ : Needed overlapping.dependencies entries n) (hne : overlapping.dependencies n ≠ []) :
    n ∈ overlapping.names :=
  by_contra fun hn => hne (dependencies_eq_nil hn)

theorem runOrder_sorts_overlapping :
    let run := (of overlapping.names overlapping.dependencies).runOrder
    (∀ entries n, Needed overlapping.dependencies entries n → overlapping.dependencies n ≠ [] →
      n ∈ overlapping.names) ∧
    (run ["c", "lib"] = .ok ["lib", "c"] ∧ ["lib", "c"].Nodup ∧
      (∀ n, n ∈ ["lib", "c"] ↔ Needed overlapping.dependencies ["c", "lib"] n) ∧
        ∀ first n rest, ["lib", "c"] = first ++ n :: rest →
          ∀ d ∈ overlapping.dependencies n, d ∈ first) ∧
    run ["c", "main"] = .error ["a", "b", "a"] ∧
      ∃ first between, ["a", "b", "a"] = first :: (between ++ [first]) ∧ (first :: between).Nodup ∧
        Needed overlapping.dependencies ["c", "main"] first ∧
        ["a", "b", "a"].IsChain fun a b => b ∈ overlapping.dependencies a := by
  intro run
  have hok : run ["c", "lib"] = .ok ["lib", "c"] := by decide
  have herror : run ["c", "main"] = .error ["a", "b", "a"] := by decide
  exact ⟨overlapping_names, ⟨hok, (runOrder_sorts _ _ _ (overlapping_names _)).2.1 _ hok⟩, herror,
    (runOrder_sorts _ _ _ (overlapping_names _)).2.2 _ herror⟩

end Graph

end Estimation
