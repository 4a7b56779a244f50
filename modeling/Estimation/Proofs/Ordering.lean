import Estimation.Proofs.Graph
import Mathlib.Data.List.Chain
import Mathlib.Data.List.Nodup
import Mathlib.Data.List.Perm.Subperm
import Mathlib.Logic.Relation

/-!
The search for an order either puts every name behind all that it depends on, or ends with names each
of which depends on the next, from one back to it. It cannot do both, so it finds an order for a name
exactly if nothing that the name needs comes back to itself.
-/

namespace Estimation

open List

section

variable {R : String → String → Prop} {a b : String} {chain : List String}

/-- From a name on, `R` leads to a chain of names that ends where it starts. -/
def LeadsRound (R : String → String → Prop) (a : String) (chain : List String) : Prop :=
  ∃ first between, chain = first :: (between ++ [first]) ∧ chain.IsChain R ∧
    Relation.ReflTransGen R a first

theorem LeadsRound.head (h : R a b) (hb : LeadsRound R b chain) : LeadsRound R a chain := by
  obtain ⟨first, between, hchain, hlinks, hreach⟩ := hb
  exact ⟨first, between, hchain, hlinks, .head h hreach⟩

/-- A name that a chain leads back to. -/
theorem leadsRound_cycle (h : (chain ++ [b]).IsChain R) (hb : b ∈ chain) :
    LeadsRound R b (Graph.cycle chain b) := by
  obtain ⟨before, between, rfl, hbefore⟩ := eq_append_cons_of_mem hb
  have hcycle : Graph.cycle (before ++ b :: between) b = b :: (between ++ [b]) := by
    rw [Graph.cycle, dropWhile_append_of_pos fun x hx => ?_, dropWhile_cons_of_neg (by simp),
      cons_append]
    exact decide_eq_true fun heq => hbefore (heq ▸ hx)
  refine ⟨b, between, hcycle, ?_, .refl⟩
  rw [hcycle]
  rw [append_assoc] at h
  exact h.suffix (suffix_append _ _)

theorem isChain_concat (h : (chain ++ [a]).IsChain R) (hab : R a b) :
    (chain ++ [a] ++ [b]).IsChain R := by
  refine isChain_append.2 ⟨h, isChain_singleton _, fun x hx y hy => ?_⟩
  rw [getLast?_concat, Option.mem_some_iff] at hx
  rw [head?_cons, Option.mem_some_iff] at hy
  exact hx ▸ hy ▸ hab

theorem not_self_of_acc {α : Type} {R : α → α → Prop} {a : α} (h : Acc R a) : ¬ R a a := by
  induction h with
  | intro a _ ih => exact fun ha => ih a ha ha

theorem transGen_of_isChain {between : List String}
    (h : (a :: (between ++ [b])).IsChain R) : Relation.TransGen R a b := by
  cases between with
  | nil => exact .single (isChain_pair.1 h)
  | cons c between =>
    obtain ⟨hac, hrest⟩ := isChain_cons_cons.1 h
    have hlast : (c :: between ++ [b]).getLast (by simp) = b := getLast_concat
    exact .head' hac (relationReflTransGen_of_exists_isChain_cons _ hrest hlast)

theorem not_acc_of_leadsRound (h : LeadsRound R a chain) : ¬ Acc (fun b a => R a b) a := by
  obtain ⟨first, between, rfl, hlinks, hreach⟩ := h
  intro hacc
  have hround := transGen_of_isChain hlinks
  have hfirst : Acc (fun b a => R a b) first := by
    clear hlinks hround
    induction hreach with
    | refl => exact hacc
    | tail _ hbc ih => exact ih.inv hbc
  exact not_self_of_acc hfirst.transGen (Relation.transGen_swap.2 hround)

/-- Different names of a list, all but one, are fewer than the list has. -/
theorem length_lt_of_notMem {names : List String} (hnodup : chain.Nodup) (ha : a ∉ chain)
    (hchain : chain ⊆ names) (hmem : a ∈ names) : chain.length < names.length :=
  (subperm_of_subset (nodup_cons.2 ⟨ha, hnodup⟩) (cons_subset.2 ⟨hmem, hchain⟩)).length_le

theorem nodup_concat {α : Type} {xs : List α} {a : α} (hnodup : xs.Nodup) (ha : a ∉ xs) :
    (xs ++ [a]).Nodup :=
  nodup_append.2 ⟨hnodup, pairwise_singleton _ _,
    fun _ hb _ hc heq => ha (mem_singleton.1 hc ▸ heq ▸ hb)⟩

end

namespace Graph

def DependsOn (g : Graph) (a b : String) : Prop := b ∈ g.dependencies a

/-- Every name comes after all that it depends on, and once. -/
inductive Ordered (g : Graph) : List String → Prop
  | nil : Ordered g []
  | snoc {order name} : Ordered g order → name ∉ order → (∀ d ∈ g.dependencies name, d ∈ order) →
      Ordered g (order ++ [name])

/-- Names are put into an order one after the other, each behind all that it depends on. The names on
the chain wait for them. -/
inductive Visits (g : Graph) : List String → List String → List String → List String → Prop
  | nil {chain order} : Visits g chain order [] order
  | there {chain order order' name names} : name ∉ chain → name ∈ order →
      Visits g chain order names order' → Visits g chain order (name :: names) order'
  | fresh {chain order between order' name names} : name ∉ chain → name ∉ order →
      Visits g (chain ++ [name]) order (g.dependencies name) between →
      Visits g chain (between ++ [name]) names order' → Visits g chain order (name :: names) order'

/-- The order has grown, and what was asked for is in it, but no name on the chain is new. -/
structure Grows (g : Graph) (chain order order' names : List String) : Prop where
  ordered : Ordered g order'
  grown : order <+: order'
  mem : ∀ n ∈ names, n ∈ order'
  waits : ∀ n ∈ chain, n ∈ order' → n ∈ order

variable {g : Graph} {name : String} {depth : Nat} {chain order order' names ds : List String}

theorem Ordered.acc (h : Ordered g order) (hname : name ∈ order) :
    Acc (fun b a => g.DependsOn a b) name := by
  induction h generalizing name with
  | nil => cases hname
  | snoc _ _ hd ih =>
    rcases mem_append.1 hname with hname | hname
    · exact ih hname
    · cases mem_singleton.1 hname
      exact .intro _ fun d hdep => ih (hd d hdep)

theorem Ordered.nodup (h : Ordered g order) : order.Nodup := by
  induction h with
  | nil => exact nodup_nil
  | snoc _ hname _ ih => exact nodup_concat ih hname

theorem dependencies_eq_nil (h : name ∉ g.names) : g.dependencies name = [] := by
  rw [dependencies, lookup_eq_none_iff.2]
  · rfl
  · intro e he
    rw [bne_iff_ne]
    rintro rfl
    exact h (mem_map_of_mem he)

theorem Visits.cons {between : List String} (h : Visits g chain order [name] between)
    (hrest : Visits g chain between names order') : Visits g chain order (name :: names) order' := by
  cases h with
  | there hname hmem hnil =>
    cases hnil
    exact .there hname hmem hrest
  | fresh hname hmem hdependencies hnil =>
    cases hnil
    exact .fresh hname hmem hdependencies hrest

theorem visits_of_foldlM {visit : List String → String → Except (List String) (List String)}
    (hvisit : ∀ {order order' d}, d ∈ ds → visit order d = .ok order' →
      Visits g chain order [d] order')
    (h : ds.foldlM visit order = .ok order') : Visits g chain order ds order' := by
  induction ds generalizing order with
  | nil =>
    cases h
    exact .nil
  | cons d ds ih =>
    rw [foldlM_cons] at h
    cases hd : visit order d with
    | error cycle =>
      rw [hd] at h
      cases h
    | ok between =>
      rw [hd] at h
      exact (hvisit mem_cons_self hd).cons (ih (fun hd => hvisit (mem_cons_of_mem _ hd)) h)

/-- As many names wait as the search has gone deep, so at the end all with dependencies do. -/
theorem visits_of_visit (hnodup : chain.Nodup) (hchain : ∀ n ∈ chain, n ∈ g.names)
    (hdepth : g.names.length ≤ depth + chain.length)
    (h : g.visit depth chain order name = .ok order') : Visits g chain order [name] order' := by
  induction depth generalizing chain order order' name with
  | zero =>
    rw [visit] at h
    split at h
    · cases h
    · rename_i hname
      split at h
      · rename_i hmem
        cases h
        exact .there hname hmem .nil
      · rename_i hmem
        cases h
        have hnone : name ∉ g.names := by
          intro hg
          have hlt := length_lt_of_notMem hnodup hname hchain hg
          omega
        refine .fresh hname hmem ?_ .nil
        rw [dependencies_eq_nil hnone]
        exact .nil
  | succ depth ih =>
    rw [visit] at h
    split at h
    · cases h
    · rename_i hname
      split at h
      · rename_i hmem
        cases h
        exact .there hname hmem .nil
      · rename_i hmem
        cases hd : (g.dependencies name).foldlM (g.visit depth (chain ++ [name])) order with
        | error cycle =>
          rw [hd] at h
          cases h
        | ok between =>
          rw [hd] at h
          cases h
          refine .fresh hname hmem (visits_of_foldlM (fun hmem h => ?_) hd) .nil
          have hg : name ∈ g.names := by
            by_contra hg
            rw [dependencies_eq_nil hg] at hmem
            cases hmem
          refine ih (nodup_concat hnodup hname) ?_ ?_ h
          · intro n hn
            rcases mem_append.1 hn with hn | hn
            · exact hchain n hn
            · exact mem_singleton.1 hn ▸ hg
          · rw [length_append, length_singleton]
            omega

/-- A name comes in behind all that it depends on. -/
theorem Grows.ordered_snoc (h : Grows g (chain ++ [name]) order order' (g.dependencies name))
    (hmem : name ∉ order) : Ordered g (order' ++ [name]) :=
  h.ordered.snoc (fun hn => hmem (h.waits name (by simp) hn)) h.mem

theorem Visits.grows (h : Visits g chain order names order') (ho : Ordered g order) :
    Grows g chain order order' names := by
  induction h with
  | nil => exact ⟨ho, prefix_rfl, nofun, fun _ _ => id⟩
  | there _ hmem _ ih =>
    have hrest := ih ho
    exact ⟨hrest.ordered, hrest.grown, forall_mem_cons.2 ⟨hrest.grown.subset hmem, hrest.mem⟩,
      hrest.waits⟩
  | fresh hname hmem _ _ ihdependencies ih =>
    have hbelow := ihdependencies ho
    have hrest := ih (hbelow.ordered_snoc hmem)
    refine ⟨hrest.ordered, hbelow.grown.trans ((prefix_append _ _).trans hrest.grown),
      forall_mem_cons.2 ⟨hrest.grown.subset (by simp), hrest.mem⟩, fun n hn hn' => ?_⟩
    rcases mem_append.1 (hrest.waits n hn hn') with hn' | hn'
    · exact hbelow.waits n (mem_append_left _ hn) hn'
    · exact absurd (mem_singleton.1 hn' ▸ hn) hname

theorem foldlM_error {visit : List String → String → Except (List String) (List String)}
    {cycle : List String} (h : ds.foldlM visit order = .error cycle) :
    ∃ d ∈ ds, ∃ order, visit order d = .error cycle := by
  induction ds generalizing order with
  | nil => cases h
  | cons d ds ih =>
    rw [foldlM_cons] at h
    cases hd : visit order d with
    | error cycle' =>
      rw [hd] at h
      cases h
      exact ⟨d, mem_cons_self, order, hd⟩
    | ok between =>
      rw [hd] at h
      obtain ⟨d', hd', hvisit⟩ := ih h
      exact ⟨d', mem_cons_of_mem _ hd', hvisit⟩

/-- A search fails at a name on the chain, or below a name that joins it. -/
theorem visit_error {cycle : List String} (h : g.visit depth chain order name = .error cycle) :
    name ∈ chain ∧ cycle = Graph.cycle chain name ∨
      ∃ deeper < depth, name ∉ chain ∧ ∃ d ∈ g.dependencies name, ∃ order,
        g.visit deeper (chain ++ [name]) order d = .error cycle := by
  unfold visit at h
  split at h
  · rename_i hname
    cases h
    exact .inl ⟨hname, rfl⟩
  · rename_i hname
    split at h
    · cases h
    · split at h
      · cases h
      · rename_i deeper
        cases hd : (g.dependencies name).foldlM (g.visit deeper (chain ++ [name])) order with
        | ok between =>
          rw [hd] at h
          cases h
        | error cycle' =>
          rw [hd] at h
          cases h
          exact .inr ⟨deeper, Nat.lt_succ_self _, hname, foldlM_error hd⟩

theorem visit_leadsRound {cycle : List String} (hchain : (chain ++ [name]).IsChain g.DependsOn)
    (h : g.visit depth chain order name = .error cycle) : LeadsRound g.DependsOn name cycle := by
  induction depth using Nat.strong_induction_on generalizing chain order name with
  | _ depth ih =>
    rcases visit_error h with ⟨hname, rfl⟩ | ⟨deeper, hlt, -, d, hmem, order, hd⟩
    · exact leadsRound_cycle hchain hname
    · exact .head hmem (ih deeper hlt (isChain_concat hchain hmem) hd)

/-- The names on a chain are different, and so are those of a cycle up to its end. -/
theorem visit_nodup {cycle : List String} (hchain : chain.Nodup)
    (h : g.visit depth chain order name = .error cycle) : cycle.dropLast.Nodup := by
  induction depth using Nat.strong_induction_on generalizing chain order name with
  | _ depth ih =>
    rcases visit_error h with ⟨-, rfl⟩ | ⟨deeper, hlt, hname, d, -, order, hd⟩
    · rw [Graph.cycle, dropLast_concat]
      exact hchain.sublist (dropWhile_sublist _)
    · exact ih deeper hlt (nodup_concat hchain hname) hd

theorem visits_of_runOrder (h : g.runOrder names = .ok order) : Visits g [] [] names order :=
  visits_of_foldlM (fun _ h => visits_of_visit nodup_nil nofun (Nat.le_add_right _ _) h) h

theorem ordered_of_runOrder (h : g.runOrder [name] = .ok order) :
    Ordered g order ∧ name ∈ order := by
  have hgrows := (visits_of_runOrder h).grows .nil
  exact ⟨hgrows.ordered, hgrows.mem name mem_cons_self⟩

theorem runOrder_error {cycle : List String} (h : g.runOrder names = .error cycle) :
    ∃ name ∈ names, LeadsRound g.DependsOn name cycle ∧ cycle.dropLast.Nodup := by
  obtain ⟨name, hname, order, hvisit⟩ := foldlM_error h
  exact ⟨name, hname, visit_leadsRound (isChain_singleton name) hvisit, visit_nodup nodup_nil hvisit⟩

theorem leadsRound_of_runOrder {cycle : List String} (h : g.runOrder [name] = .error cycle) :
    LeadsRound g.DependsOn name cycle := by
  obtain ⟨n, hn, hround, -⟩ := runOrder_error h
  exact mem_singleton.1 hn ▸ hround

theorem runOrder_ok_iff_acc : (∃ order, g.runOrder [name] = .ok order) ↔
    Acc (fun b a => g.DependsOn a b) name := by
  constructor
  · rintro ⟨order, h⟩
    obtain ⟨ho, hname⟩ := ordered_of_runOrder h
    exact ho.acc hname
  · intro hacc
    cases h : g.runOrder [name] with
    | ok order => exact ⟨order, rfl⟩
    | error cycle => exact absurd hacc (not_acc_of_leadsRound (leadsRound_of_runOrder h))

end Graph

end Estimation
