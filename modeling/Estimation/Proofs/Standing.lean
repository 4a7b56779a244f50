import Estimation.Proofs.History
import Estimation.Proofs.Requests

/-!
What holds in every state: versions are known by their hashes, a name stands for a version that is
known, and a load that is waited for is in flight.
-/

namespace Estimation

open List

namespace Project

variable {p q : Project} {name hash : String}

theorem head?_insert {n : String} {heads : Bindings String} :
    (heads.insert n hash).get? name = if n = name then some hash else heads.get? name :=
  Bindings.get?_insert

theorem head?_finishLoad (p : Project) (key : LoadKey) (m : Module) :
    (p.finishLoad key (.ok m)).sources.head? name =
      (p.sources.head? name).or (if key.name = name then some m.hash else none) := by
  change (if (p.sources.heads.get? key.name).isSome then p.sources.heads
    else p.sources.heads.insert key.name m.hash).get? name = (p.sources.heads.get? name).or _
  by_cases hn : key.name = name
  · subst hn
    rw [if_pos rfl]
    cases hhead : p.sources.heads.get? key.name with
    | some hash => exact hhead
    | none => exact head?_insert.trans (if_pos rfl)
  · rw [if_neg hn, Option.or_none]
    split
    · rfl
    · exact head?_insert.trans (if_neg hn)

structure Standing (p : Project) : Prop where
  known : ∀ name hash, p.sources.heads.get? name = some hash →
    (p.sources.modules.get? hash).isSome
  hashes : ∀ hash m, p.sources.modules.get? hash = some m → m.hash = hash
  loading : ∀ key, p.store.loads.get? key = some .loading → key ∈ p.inFlight

namespace Standing

theorem headModule? (h : Standing p) (hname : (p.sources.head? name).isSome) :
    ∃ m, p.sources.headModule? name = some m := by
  obtain ⟨hash, hhash⟩ := Option.isSome_iff_exists.1 hname
  obtain ⟨m, hm⟩ := Option.isSome_iff_exists.1 (h.known name hash hhash)
  exact ⟨m, Option.bind_eq_some_iff.2 ⟨hash, hhash, hm⟩⟩

theorem quiet (h : Standing p) (hq : Quiet p q) : Standing q where
  known := hq.sources ▸ h.known
  hashes := hq.sources ▸ h.hashes
  loading key hkey := by
    cases hq.loads with
    | none hloads hflight =>
      rw [hloads] at hkey
      exact hflight ▸ h.loading key hkey
    | @load new _ _ hloads hflight =>
      rw [hloads, Table.get?_set] at hkey
      rw [hflight, mem_append, mem_singleton]
      split at hkey
      · rename_i heq
        exact .inr heq.symm
      · exact .inl (h.loading key hkey)

theorem preserved : Preserved Standing where
  resolve importer i _ _ h := h.quiet (resolveImport_resolves importer i).quiet
  note _ _ h := ⟨h.known, h.hashes, h.loading⟩
  run _ h := ⟨h.known, h.hashes, h.loading⟩
  commit _ _ _ h := ⟨h.known, h.hashes, h.loading⟩

/-- A name stands for another version that is known. -/
theorem known_insert {heads : Bindings String} {modules modules' : Table String Module}
    (h : ∀ name hash, heads.get? name = some hash → (modules.get? hash).isSome)
    (hmodules : ∀ hash, (modules.get? hash).isSome → (modules'.get? hash).isSome)
    (hhash : (modules'.get? hash).isSome) (n hash' : String)
    (hn : (heads.insert name hash).get? n = some hash') : (modules'.get? hash').isSome := by
  rw [Bindings.get?_insert] at hn
  split at hn
  · cases hn
    exact hhash
  · exact hmodules _ (h n hash' hn)

theorem isSome_setNew {t : Table String Module} (new : Module) (hash : String)
    (h : (t.get? hash).isSome) : ((t.setNew new.hash new).get? hash).isSome := by
  obtain ⟨m, hm⟩ := Option.isSome_iff_exists.1 h
  exact Option.isSome_iff_exists.2 ⟨m, Table.get?_setNew hm _ _⟩

/-- A version is added under its own hash. -/
theorem hashes_setNew {t : Table String Module} (h : ∀ hash m, t.get? hash = some m → m.hash = hash)
    (new : Module) (hash : String) (m : Module)
    (hm : (t.setNew new.hash new).get? hash = some m) : m.hash = hash := by
  rw [Table.setNew] at hm
  split at hm
  · exact h hash m hm
  · rw [Table.get?_set] at hm
    split at hm
    · rename_i heq
      cases hm
      exact heq
    · exact h hash m hm

theorem setSource (h : Standing p) (name code : String) : Standing (p.setSource name code) where
  known := known_insert h.known (isSome_setNew _) Table.get?_setNew_self
  hashes := hashes_setNew h.hashes _
  loading key hkey := by
    change Table.get? key (p.store.loads.filter fun e => decide (e.1.name ≠ name)) = _ at hkey
    rw [Table.get?_filter_fst (κ := LoadKey) fun key => decide (key.name ≠ name)] at hkey
    split at hkey
    · exact h.loading key hkey
    · cases hkey

theorem removeSource (h : Standing p) (name : String) : Standing (p.removeSource name) where
  known n hash hn := by
    rw [Bindings.get?_eq_get?] at hn
    change Table.get? n (Table.erase name p.sources.heads) = some hash at hn
    rw [Table.get?_erase] at hn
    split at hn
    · cases hn
    · exact h.known n hash (Bindings.get?_eq_get? ▸ hn)
  hashes := h.hashes
  loading := h.loading

theorem moveHead (h : Standing p) (hq : p.moveHead name hash = .ok q) : Standing q := by
  rw [Project.moveHead] at hq
  split at hq
  · rename_i m hm
    cases hq
    refine ⟨known_insert h.known (fun _ => id) ?_, h.hashes, h.loading⟩
    exact Option.isSome_iff_exists.2 ⟨m, hm⟩
  · cases hq

theorem finishLoad (h : Standing p) (key : LoadKey) (result : Except LinkError Module) :
    Standing (p.finishLoad key result) := by
  have hflight : ∀ k, k ≠ key → k ∈ p.inFlight → k ∈ (p.finishLoad key result).inFlight :=
    fun k hne hk => (mem_erase_of_ne hne).2 hk
  cases result with
  | error e =>
    refine ⟨h.known, h.hashes, fun k hk => ?_⟩
    change (p.store.loads.set key (.failed e)).get? k = _ at hk
    rw [Table.get?_set] at hk
    split at hk
    · cases hk
    · rename_i hne
      exact hflight k (Ne.symm hne) (h.loading k hk)
  | ok m =>
    refine ⟨?_, hashes_setNew h.hashes m, fun k hk => ?_⟩
    · change ∀ n hash, (if (p.sources.heads.get? key.name).isSome then p.sources.heads
        else p.sources.heads.insert key.name m.hash).get? n = some hash → _
      split
      · exact fun n hash hn => isSome_setNew m _ (h.known n hash hn)
      · exact known_insert h.known (isSome_setNew m) Table.get?_setNew_self
    · change (p.store.loads.erase key).get? k = _ at hk
      rw [Table.get?_erase] at hk
      split at hk
      · cases hk
      · rename_i hne
        exact hflight k (Ne.symm hne) (h.loading k hk)

/-- A name stands for the version that it is given, as long as that is told by its hash. -/
theorem headModule?_given (h : Standing p) {s : Sources} {m : Module}
    (hheads : s.heads = p.sources.heads.insert name m.hash)
    (hmodules : s.modules = p.sources.modules.setNew m.hash m)
    (hm : ∀ m', p.sources.modules.get? m.hash = some m' → m' = m) (n : String) :
    s.headModule? n = if name = n then some m else p.sources.headModule? n := by
  have hhead : s.head? n = if name = n then some m.hash else p.sources.head? n := by
    rw [Sources.head?, hheads]
    exact Bindings.get?_insert
  rw [Sources.headModule?, hhead, hmodules]
  split
  · change Table.get? m.hash (p.sources.modules.setNew _ m) = _
    rw [Table.setNew]
    split
    · rename_i hsome
      obtain ⟨m', hm'⟩ := Option.isSome_iff_exists.1 hsome
      exact hm'.trans (congrArg some (hm m' hm'))
    · rw [Table.get?_set, if_pos rfl]
  · cases hn : p.sources.head? n with
    | none =>
      rw [Sources.headModule?, hn]
      rfl
    | some hash =>
      obtain ⟨m', hm'⟩ := Option.isSome_iff_exists.1 (h.known n hash hn)
      rw [Sources.headModule?, hn]
      exact (Table.get?_setNew hm' _ _).trans hm'.symm

/-- A name stands for what it was given last, as long as other code has another hash. -/
theorem headModule?_setSource (h : Standing p) (name code n : String)
    (hcode : ∀ m, p.sources.modules.get? (Digest.ofText code) = some m → m.code = code) :
    (p.setSource name code).sources.headModule? n =
      if name = n then some (.ofCode code) else p.sources.headModule? n :=
  h.headModule?_given rfl rfl (fun m hm => Module.ext (hcode m hm)) n

end Standing

theorem standing_start (environment : Environment) (limits : Limits) (resolver : Option Resolver) :
    Standing (start environment limits resolver) :=
  ⟨nofun, nofun, nofun⟩

namespace Standing

theorem steady : Steady Standing where
  poll name _ h := preserved.poll name h
  startLoad key _ h := h.quiet (.startLoad_nil key)
  finishLoad key result _ _ h := h.finishLoad key result

theorem act (h : Standing p) (a : Action) : Standing (p.act a) := by
  cases a with
  | setSource name code => exact h.setSource name code
  | removeSource name => exact h.removeSource name
  | moveHead name hash =>
    rw [Project.act]
    cases hq : p.moveHead name hash with
    | ok q => exact h.moveHead hq
    | error e => exact h
  | poll name => exact steady.poll name p h
  | startLoad key => exact steady.startLoad key p h
  | finishLoad key result =>
    rw [Project.act]
    split
    · exact h.finishLoad key result
    · exact h
  | _ => exact ⟨h.known, h.hashes, h.loading⟩

theorem perform (h : Standing p) (actions : List Action) : Standing (p.perform actions) := by
  induction actions generalizing p with
  | nil => exact h
  | cons a actions ih => exact ih (h.act a)

end Standing

end Project

open Project

theorem History.standing {coherent : Prop} {l : List Hashed} {p : Project}
    (h : History coherent l p) : Standing p := by
  induction h with
  | start environment limits resolver => exact standing_start environment limits resolver
  | setSource name code _ ih => exact ih.setSource name code
  | removeSource name _ ih => exact ih.removeSource name
  | moveHead _ hmove ih => exact ih.moveHead hmove
  | setContinues name names _ ih => exact ih.act (.setContinues name names)
  | setEnvironment e _ ih => exact ih.act (.setEnvironment e)
  | @clean l p name _ _ ih => exact ih.act (.clean name)
  | cleanAll _ ih => exact ih.act .cleanAll
  | poll name _ ih => exact ih.act (.poll name)
  | startLoad key _ ih => exact ih.act (.startLoad key)
  | finishLoad key result _ ih => exact ih.finishLoad key result

end Estimation
