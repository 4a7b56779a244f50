import Estimation.Proofs.Standing

/-!
Which version a name stands for. What its last edit gave it counts, whatever has been in flight; after
it was removed it stands for what the first load brings that ends.
-/

namespace Estimation

open List

namespace Action

variable {p : Project} {name : String}

/-- What an edit lets a name stand for, if it is one. -/
def edit? (p : Project) (name : String) : Action → Option (Option String)
  | .setSource n code => if n = name then some (some (Digest.ofText code)) else none
  | .moveHead n hash =>
    if n = name ∧ (p.sources.modules.get? hash).isSome then some (some hash) else none
  | .removeSource n => if n = name then some none else none
  | _ => none

/-- The version that a load brings for a name. -/
def brought? (p : Project) (name : String) : Action → Option String
  | .finishLoad key (.ok m) => if key ∈ p.inFlight ∧ key.name = name then some m.hash else none
  | _ => none

end Action

namespace Project

variable {p : Project} {name : String} {a : Action}

/-- A name is not edited by actions in their order. -/
def Unedited (name : String) : Project → List Action → Prop
  | _, [] => True
  | p, a :: actions => a.edit? p name = none ∧ Unedited name (p.act a) actions

/-- The version that the first load brings for a name. -/
def firstBrought (name : String) : Project → List Action → Option String
  | _, [] => none
  | p, a :: actions => (a.brought? p name).or (firstBrought name (p.act a) actions)

theorem head?_removeSource (p : Project) (n : String) : (p.removeSource n).sources.head? name =
    if n = name then none else p.sources.head? name := by
  rw [Sources.head?, Sources.head?, Bindings.get?_eq_get?, Bindings.get?_eq_get?]
  exact Table.get?_erase _ _ _

theorem head?_act_of_edit {given : Option String} (h : a.edit? p name = some given) :
    (p.act a).sources.head? name = given := by
  cases a with
  | setSource n code =>
    rw [Action.edit?] at h
    split at h <;> cases h
    rename_i hn
    exact head?_insert.trans (if_pos hn)
  | moveHead n hash =>
    rw [Action.edit?] at h
    split at h <;> cases h
    rename_i hn
    rcases moveHead_cases p n hash with ⟨-, hq⟩ | ⟨hnone, -⟩
    · rw [hq]
      exact head?_insert.trans (if_pos hn.1)
    · rw [hnone] at hn
      cases hn.2
  | removeSource n =>
    rw [Action.edit?] at h
    split at h <;> cases h
    rename_i hn
    exact (head?_removeSource p n).trans (if_pos hn)
  | _ => cases h

/-- What is not an edit gives a name a version only if it has none. -/
theorem head?_act_of_none (h : a.edit? p name = none) :
    (p.act a).sources.head? name = (p.sources.head? name).or (a.brought? p name) := by
  have hsame : (p.act a).sources = p.sources → a.brought? p name = none →
      (p.act a).sources.head? name = (p.sources.head? name).or (a.brought? p name) := by
    intro hs hb
    rw [hs, hb, Option.or_none]
  cases a with
  | setSource n code =>
    rw [Action.edit?] at h
    split at h <;> cases h
    rename_i hn
    exact (head?_insert.trans (if_neg hn)).trans Option.or_none.symm
  | moveHead n hash =>
    rw [Action.edit?] at h
    split at h <;> cases h
    rename_i hn
    rcases moveHead_cases p n hash with ⟨hsome, hq⟩ | ⟨-, hq⟩
    · rw [hq]
      exact (head?_insert.trans (if_neg fun heq => hn ⟨heq, hsome⟩)).trans Option.or_none.symm
    · exact hsame (congrArg sources hq) rfl
  | removeSource n =>
    rw [Action.edit?] at h
    split at h <;> cases h
    rename_i hn
    exact ((head?_removeSource p n).trans (if_neg hn)).trans Option.or_none.symm
  | poll n => exact hsame (poll_later n p).sources rfl
  | startLoad key => exact hsame (Quiet.startLoad_nil key).sources rfl
  | finishLoad key result =>
    by_cases hkey : key ∈ p.inFlight
    · cases result with
      | error e => exact hsame (by rw [act, if_pos hkey]; rfl) rfl
      | ok m =>
        rw [act, if_pos hkey, Action.brought?, head?_finishLoad]
        simp only [hkey, true_and]
    · have hq : p.act (.finishLoad key result) = p := if_neg hkey
      refine hsame (congrArg sources hq) ?_
      cases result with
      | error e => rfl
      | ok m => exact if_neg fun h => hkey h.1
  | _ => exact Option.or_none.symm

theorem head?_perform (actions : List Action) (h : Unedited name p actions) :
    (p.perform actions).sources.head? name =
      (p.sources.head? name).or (firstBrought name p actions) := by
  induction actions generalizing p with
  | nil => exact Option.or_none.symm
  | cons a actions ih =>
    rw [perform_cons, ih h.2, head?_act_of_none h.1, firstBrought, Option.or_assoc]

/-- The last edit of a name counts; where it takes the version away, the first load that ends after
it. -/
theorem head?_perform_of_edit {given : Option String} {actions : List Action}
    (hedit : a.edit? p name = some given) (hrest : Unedited name (p.act a) actions) :
    (p.perform (a :: actions)).sources.head? name =
      given.or (firstBrought name (p.act a) actions) := by
  rw [perform_cons, head?_perform actions hrest, head?_act_of_edit hedit]

/-- A module is being loaded. -/
def lent : Project :=
  (start .default .default (some .byName)).perform
    [.setSource "main" "import \"lib\" as lib", .poll "main"]

/-- What is given meanwhile stays. -/
theorem head?_perform_of_edit_lent :
    Action.edit? lent "lib" (.setSource "lib" "false") = some (some (Digest.ofText "false")) ∧
    Unedited "lib" (lent.act (.setSource "lib" "false"))
      [.finishLoad ⟨"lib", none⟩ (.ok (.ofCode "true"))] ∧
    (lent.perform [.setSource "lib" "false",
      .finishLoad ⟨"lib", none⟩ (.ok (.ofCode "true"))]).sources.head? "lib" =
        some (Digest.ofText "false") := by
  have hedit : Action.edit? lent "lib" (.setSource "lib" "false") =
      some (some (Digest.ofText "false")) := by
    rw [Action.edit?, if_pos rfl]
  have hrest : Unedited "lib" (lent.act (.setSource "lib" "false"))
      [.finishLoad ⟨"lib", none⟩ (.ok (.ofCode "true"))] := ⟨rfl, trivial⟩
  exact ⟨hedit, hrest, head?_perform_of_edit hedit hrest⟩

set_option maxRecDepth 100000 in
/-- But what is removed meanwhile comes back. -/
theorem head?_lent : lent.inFlight = [⟨"lib", none⟩] ∧
    (lent.perform [.setSource "lib" "false", .removeSource "lib"]).sources.head? "lib" = none ∧
    (lent.perform [.setSource "lib" "false", .removeSource "lib",
      .finishLoad ⟨"lib", none⟩ (.ok (.ofCode "true"))]).sources.head? "lib" =
        some (Digest.ofText "true") := by
  decide +kernel

end Project

end Estimation
