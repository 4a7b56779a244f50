import Estimation.Proofs.Returning
import Estimation.Proofs.Standing

/-!
A request that waits waits for a load. It has met a load that goes on, or has started one, and no load
ends while it is answered. So no request is given up with nothing being loaded.
-/

namespace Estimation

open List

namespace Project

variable {p q : Project} {name importer : String} {i : Import}

/-- Something is being loaded. -/
def Loading (p : Project) : Prop := ∃ key, p.store.loads.get? key = some .loading

theorem Loading.isLoading (h : p.Loading) : p.store.isLoading := by
  obtain ⟨key, hkey⟩ := h
  exact any_eq_true.2 ⟨_, Table.mem_of_get? hkey, decide_eq_true rfl⟩

/-- No load ends while a request is answered. -/
theorem Loading.later (h : p.Loading) (hq : Later p q) : q.Loading := by
  obtain ⟨key, hkey⟩ := h
  rcases hq.loads key with heq | ⟨-, hloading⟩
  · exact ⟨key, heq.trans hkey⟩
  · exact ⟨key, hloading⟩

/-- What a key asks for is there if nothing has to be loaded for it. -/
theorem Standing.isPresent (h : Standing p) {key : LoadKey} (hfind : p.sources.find? key = none) :
    p.sources.isPresent key = false := by
  obtain ⟨target, _ | pin⟩ := key
  · rw [Sources.isPresent, Option.isSome_eq_false_iff, Option.isNone_iff_eq_none]
    by_contra hhead
    obtain ⟨m, hm⟩ := h.headModule? (Option.isSome_iff_ne_none.2 hhead)
    cases hm.symm.trans hfind
  · exact congrArg Option.isSome hfind

theorem Standing.loading_of_pending (h : Standing p)
    (hq : (resolveImport importer i).run p = (.pending, q)) : q.Loading := by
  simp only [resolveImport, StateT.run_bind, StateT.run_get, pure_bind] at hq
  split at hq
  · cases hq
  · rename_i target ht
    split at hq
    · cases hq
    · rename_i hload
      cases hq
      exact ⟨_, hload⟩
    · cases hq
    · rename_i hfind hload
      split at hq
      · cases hq
        refine ⟨⟨target, i.pin⟩, ?_⟩
        change Table.get? _ (if _ then _ else _ : Project).store.loads = _
        rw [hload, h.isPresent hfind]
        exact (Table.get?_set _ _ _ _).trans (if_pos rfl)
      · cases hq

mutual

theorem Gathers.loading {chain : List String} {importer : String} {is : List Import}
    {p q : Project} {g : Gathered} :
    Gathers chain importer is p g q → (p.sources.pins = [] → ∀ i ∈ is, i.pin = none) →
      Standing p → g = .pending → q.Loading
  | .nil, _, _, h => nomatch h
  | .failed hresolve hrest, hpins, hp, h =>
    have ⟨hq, hpins, _⟩ := Standing.preserved.resolved hresolve hpins hp
    hrest.loading hpins hq (pending_of_add h)
  | .pending hresolve hrest, hpins, hp, _ =>
    have ⟨_, hpins, _⟩ := Standing.preserved.resolved hresolve hpins hp
    (hp.loading_of_pending hresolve).later (hrest.preserves (Later.preserved _) hpins (.refl _)).1
  | .cyclic .., _, _, h => nomatch h
  | .ready hresolve _ hready hrest, hpins, hp, h =>
    have ⟨hq, hpins, _⟩ := Standing.preserved.resolved hresolve hpins hp
    have ⟨hr, hs⟩ := hready.preserves Standing.preserved hq
    hrest.loading (hs ▸ hpins) hr (pending_of_add h)
  | .waiting hresolve _ hwaiting hrest, hpins, hp, _ =>
    have ⟨hq, hpins, _⟩ := Standing.preserved.resolved hresolve hpins hp
    have ⟨_, hs⟩ := hwaiting.preserves Standing.preserved hq
    (hwaiting.loading hq rfl).later
      (hrest.preserves (Later.preserved _) (hs ▸ hpins) (.refl _)).1

theorem Returns.loading {chain : List String} {name : String} {m : Module} {p q : Project}
    {answer : Poll} : Returns chain name m p answer q → Standing p → answer = .pending → q.Loading
  | .pending hgathers, hp, _ =>
    hgathers.loading (fun hpins _ => Sources.pin_of_mem_knownImports hpins) hp rfl
  | .settled .., _, h => nomatch h
  | .cyclic .., _, h => nomatch h

end

section

variable {σ : Type} {load : LoadKey → StateM σ (Except LinkError Module)} {n : String} {s s' : σ}

end

/-- A module imports what has to be loaded. -/
def borrowing : List Action := [.setSource "main" "import \"lib\" as lib"]

set_option maxRecDepth 100000 in
def isPending : Except GraphError Poll → Bool
  | .ok .pending => true
  | _ => false

end Project

end Estimation
