import Estimation.Proofs.Capturing

/-!
What a name stands for while functions are opened and closed: its latest definition in the innermost
function that has one. The variable that is found for a name leads there, through what the functions on
the way have captured, and goes on leading there as long as its function is open.
-/

namespace Estimation

open List

namespace FunctionScope

variable {name : String} {scope scope' : FunctionScope} {locals : List String} {source : Variable}
  {i n : Nat}

theorem not_getElem?_of_latest (h : slot?.latest name i locals = some n) {later : Nat}
    (hlater : n - i < later) : locals[later]? ≠ some name := by
  induction locals generalizing i later with
  | nil => cases h
  | cons first rest ih =>
    obtain ⟨later, rfl⟩ : ∃ k, later = k + 1 := Nat.exists_eq_add_one.2 (by omega)
    rw [getElem?_cons_succ]
    simp only [slot?.latest] at h
    cases hr : slot?.latest name (i + 1) rest with
    | some m =>
      rw [hr, Option.some_or, Option.some.injEq] at h
      subst h
      have hm := (getElem?_of_latest hr).1
      exact ih hr (by omega)
    | none => exact fun hname => latest_eq_none.1 hr (mem_of_getElem? hname)

/-- The latest definition of a name has the slot. -/
def LatestAt (scope : FunctionScope) (name : String) (n : Nat) : Prop :=
  scope.locals[n]? = some name ∧ ∀ later, n < later → scope.locals[later]? ≠ some name

theorem latestAt_of_slot? (h : scope.slot? name = some n) : scope.LatestAt name n :=
  ⟨(getElem?_of_latest h).2, fun _ hlater => not_getElem?_of_latest h hlater⟩

theorem getElem?_of_capture (h : scope.capture source = (i, scope')) :
    scope'.captures[i]? = some source := by
  unfold capture at h
  split at h
  · rename_i hi
    cases h
    obtain ⟨hi, hsource, -⟩ := idxOf?_eq_some_iff.1 hi
    rw [getElem?_eq_getElem hi, hsource]
  · cases h
    exact getElem?_concat_length

end FunctionScope

namespace Scopes

variable {name : String} {scope scope' : FunctionScope} {outer outer' : List FunctionScope}
  {source : Variable} {scopes : Scopes} {depth : Nat}

/-- The open functions, the innermost first. -/
def functions (scopes : Scopes) : List FunctionScope := scopes.current :: scopes.outer

/-- How many functions further out a variable of the innermost one leads, through what is captured on
the way, and to which slot. -/
def follow : List FunctionScope → Variable → Option (Nat × Nat)
  | [], _ => none
  | _ :: _, .slot n => some (0, n)
  | scope :: outer, .capture i => do
    let source ← scope.captures[i]?
    let (hops, n) ← follow outer source
    return (hops + 1, n)

/-- The innermost function with a definition of a name is so many functions further out, and the latest
definition in it has the slot. -/
structure DefinedAt (functions : List FunctionScope) (name : String) (hops n : Nat) : Prop where
  undefined : ∀ scope ∈ functions.take hops, name ∉ scope.locals
  latest : ∃ scope, functions[hops]? = some scope ∧ scope.LatestAt name n

namespace DefinedAt

theorem mem {functions : List FunctionScope} {hops n : Nat} (h : DefinedAt functions name hops n) :
    ∃ scope ∈ functions, name ∈ scope.locals := by
  obtain ⟨scope, hscope, hname, -⟩ := h.latest
  exact ⟨scope, mem_of_getElem? hscope, mem_of_getElem? hname⟩

theorem here {n : Nat} (h : scope.slot? name = some n) : DefinedAt (scope :: outer) name 0 n :=
  ⟨by simp, scope, rfl, FunctionScope.latestAt_of_slot? h⟩

theorem further {hops n : Nat} (h : DefinedAt outer name hops n) (hscope : name ∉ scope.locals) :
    DefinedAt (scope :: outer) name (hops + 1) n := by
  refine ⟨?_, h.latest⟩
  rw [take_succ_cons]
  exact forall_mem_cons.2 ⟨hscope, h.undefined⟩

end DefinedAt

theorem follow_capture {i hops n : Nat} (hi : scope.captures[i]? = some source)
    (h : follow outer source = some (hops, n)) :
    follow (scope :: outer) (.capture i) = some (hops + 1, n) := by
  simp only [follow, hi, h, Option.bind_eq_bind, Option.bind_some, Option.pure_def]

theorem follow_of_resolveIn (h : resolveIn name scope outer = some (source, scope', outer')) :
    ∃ hops n, follow (scope' :: outer') source = some (hops, n) ∧
      DefinedAt (scope :: outer) name hops n := by
  induction outer generalizing scope scope' outer' source with
  | nil =>
    simp only [resolveIn, Option.map_eq_some_iff] at h
    obtain ⟨n, hn, heq⟩ := h
    cases heq
    exact ⟨0, n, rfl, .here hn⟩
  | cons next rest ih =>
    simp only [resolveIn] at h
    split at h
    · rename_i n hn
      cases h
      exact ⟨0, n, rfl, .here hn⟩
    · rename_i hn
      split at h
      · cases h
      · rename_i source' next' rest' hr
        rcases hc : scope.capture source' with ⟨i, scope''⟩
        rw [hc] at h
        cases h
        obtain ⟨hops, n, hfollow, hdefined⟩ := ih hr
        exact ⟨hops + 1, n, follow_capture (FunctionScope.getElem?_of_capture hc) hfollow,
          hdefined.further (FunctionScope.latest_eq_none.1 hn)⟩

theorem mem_outside {ls : List (List String)} : name ∈ outside ls ↔ ∃ l ∈ ls, name ∈ l := by
  induction ls with
  | nil => simp [outside]
  | cons l ls ih => simp [outside, ih]

theorem isSome_resolve_iff :
    (scopes.resolve name).isSome ↔ ∃ scope ∈ scopes.functions, name ∈ scope.locals := by
  rw [resolve, Option.isSome_map]
  cases hr : resolveIn name scopes.current scopes.outer with
  | some found =>
    obtain ⟨hops, n, -, hdefined⟩ := follow_of_resolveIn hr
    exact iff_of_true rfl hdefined.mem
  | none =>
    obtain ⟨hcurrent, houter⟩ := not_mem_of_resolveIn hr
    refine iff_of_false Bool.false_ne_true ?_
    rintro ⟨scope, hscope, hname⟩
    rcases mem_cons.1 hscope with rfl | hscope
    · exact hcurrent hname
    · exact houter (mem_outside.2 ⟨_, mem_map_of_mem hscope, hname⟩)

/-! ### Looking a name up as a step -/

/-- A name is looked up further and further out; on the way back each function writes down what it
captures. -/
def searchIn (name : String) (scope : FunctionScope) :
    List FunctionScope → Option Variable × FunctionScope × List FunctionScope
  | [] => ((scope.slot? name).map .slot, scope, [])
  | next :: rest =>
    match scope.slot? name with
    | some n => (some (.slot n), scope, next :: rest)
    | none =>
      match searchIn name next rest with
      | (none, next, rest) => (none, scope, next :: rest)
      | (some source, next, rest) =>
        let (index, scope) := scope.capture source
        (some (.capture index), scope, next :: rest)

def search (name : String) (scopes : Scopes) : Option Variable × Scopes :=
  let (found, current, outer) := searchIn name scopes.current scopes.outer
  (found, ⟨current, outer⟩)

theorem searchIn_eq : searchIn name scope outer =
    match resolveIn name scope outer with
    | some (source, scope, outer) => (some source, scope, outer)
    | none => (none, scope, outer) := by
  induction outer generalizing scope with
  | nil =>
    simp only [searchIn, resolveIn]
    cases scope.slot? name <;> rfl
  | cons next rest ih =>
    simp only [searchIn, resolveIn, ih]
    cases scope.slot? name with
    | some n => rfl
    | none => cases resolveIn name next rest <;> rfl

theorem search_of_some {scopes' : Scopes} (h : scopes.resolve name = some (source, scopes')) :
    scopes.search name = (some source, scopes') := by
  obtain ⟨⟨_, current, outer⟩, hr, heq⟩ := Option.map_eq_some_iff.1 h
  cases heq
  rw [search, searchIn_eq, hr]

theorem search_of_none (h : scopes.resolve name = none) : scopes.search name = (none, scopes) := by
  rw [search, searchIn_eq, Option.map_eq_none_iff.1 h]

end Scopes

/-- What is done to scopes while code is made. -/
inductive Scoping where
  | define (name : String)
  | truncate (count : Nat)
  | openFunction (parameters : List String)
  | closeFunction
  | resolve (name : String)
  deriving DecidableEq, Repr

namespace Scopes

variable {name : String} {scopes scopes' : Scopes} {depth : Nat} {source : Variable}
  {xs ys : List FunctionScope}

/-- The program is not closed. -/
def act (scopes : Scopes) : Scoping → Scopes
  | .define name => (scopes.define name).2
  | .truncate count => scopes.truncate count
  | .openFunction parameters => scopes.openFunction parameters
  | .closeFunction =>
    match scopes.closeFunction? with
    | some (_, scopes) => scopes
    | none => scopes
  | .resolve name => (scopes.search name).2

def perform (scopes : Scopes) (steps : List Scoping) : Scopes := steps.foldl act scopes

/-- The open function with `depth` others around it, and these. -/
def outward (scopes : Scopes) (depth : Nat) : List FunctionScope :=
  scopes.functions.drop (scopes.outer.length - depth)

/-- What the open function with `depth` others around it has captured under an index. -/
def captured? (scopes : Scopes) (depth i : Nat) : Option Variable := do
  (← (scopes.outward depth).head?).captures[i]?

/-- Meanwhile the open function with `depth` others around it is not closed. -/
def StaysOpen (depth : Nat) : Scopes → List Scoping → Prop
  | scopes, [] => depth ≤ scopes.outer.length
  | scopes, step :: steps => depth ≤ scopes.outer.length ∧ StaysOpen depth (scopes.act step) steps

/-- Captures have been added to a function, and none that it had. -/
structure Widens (s s' : FunctionScope) : Prop where
  captures : s.captures <+: s'.captures
  nodup : s.captures.Nodup → s'.captures.Nodup

namespace Widens

variable {s s' : FunctionScope}

theorem of_eq (h : s'.captures = s.captures) : Widens s s' := ⟨h ▸ prefix_rfl, fun hs => h ▸ hs⟩

theorem trans {s'' : FunctionScope} (h : Widens s s') (h' : Widens s' s'') : Widens s s'' :=
  ⟨h.captures.trans h'.captures, fun hs => h'.nodup (h.nodup hs)⟩

theorem getElem? (h : Widens s s') {i : Nat} (hi : s.captures[i]? = some source) :
    s'.captures[i]? = some source := by
  obtain ⟨hlt, rfl⟩ := List.getElem?_eq_some_iff.1 hi
  exact prefix_iff_getElem?.1 h.captures i hlt

end Widens

abbrev Extended : List FunctionScope → List FunctionScope → Prop := Forall₂ Widens

namespace Extended

theorem refl (xs : List FunctionScope) : Extended xs xs := forall₂_same.2 fun _ _ => .of_eq rfl

theorem trans {zs : List FunctionScope} (h : Extended xs ys) (h' : Extended ys zs) : Extended xs zs := by
  induction h generalizing zs with
  | nil => exact h'
  | cons h _ ih =>
    cases h' with
    | cons h' hs' => exact .cons (h.trans h') (ih hs')

theorem of_grown {used : Nat → Prop} (h : Grown used xs ys) : Extended xs ys := by
  induction h with
  | nil => exact .nil
  | cons hpre hnodup _ _ ih => exact .cons ⟨hpre, hnodup⟩ ih

theorem head? (h : Extended xs ys) {s : FunctionScope} (hs : xs.head? = some s) :
    ∃ s', ys.head? = some s' ∧ Widens s s' := by
  cases h with
  | nil => cases hs
  | cons h _ =>
    cases hs
    exact ⟨_, rfl, h⟩

theorem nodup (h : Extended xs ys) (hxs : ∀ s ∈ xs, s.captures.Nodup) : ∀ s ∈ ys, s.captures.Nodup := by
  induction h with
  | nil => exact hxs
  | cons h _ ih =>
    obtain ⟨hx, hxs⟩ := forall_mem_cons.1 hxs
    exact forall_mem_cons.2 ⟨h.nodup hx, ih hxs⟩

theorem follow (h : Extended xs ys) {r : Nat × Nat} (hr : follow xs source = some r) :
    Scopes.follow ys source = some r := by
  induction h generalizing source r with
  | nil => exact hr
  | cons h _ ih =>
    cases source with
    | slot n => exact hr
    | capture i =>
      simp only [Scopes.follow, Option.bind_eq_bind, Option.bind_eq_some_iff] at hr
      obtain ⟨source, hi, ⟨hops, n⟩, hfollow, heq⟩ := hr
      cases heq
      exact follow_capture (h.getElem? hi) (ih hfollow)

end Extended

theorem extended_relocate (scopes : Scopes) (locals : List String) :
    Extended scopes.functions { scopes with current.locals := locals }.functions :=
  .cons (.of_eq rfl) (Extended.refl _)

theorem extended_of_resolve (h : scopes.resolve name = some (source, scopes')) :
    Extended scopes.functions scopes'.functions := by
  obtain ⟨⟨_, current, outer⟩, hr, heq⟩ := Option.map_eq_some_iff.1 h
  cases heq
  exact .of_grown (resolveIn_grown hr)

theorem length_outer_of_extended (h : Extended scopes.functions scopes'.functions) :
    scopes'.outer.length = scopes.outer.length :=
  (Nat.succ.inj h.length_eq).symm

theorem outward_extended (h : Extended scopes.functions scopes'.functions) (depth : Nat) :
    Extended (scopes.outward depth) (scopes'.outward depth) := by
  rw [outward, outward, length_outer_of_extended h]
  exact forall₂_drop _ h

/-- Where a function stays open, a step only adds to what it and the functions around it have captured. -/
theorem outward_act (step : Scoping) (h : depth ≤ scopes.outer.length)
    (h' : depth ≤ (scopes.act step).outer.length) :
    Extended (scopes.outward depth) ((scopes.act step).outward depth) := by
  cases step with
  | define name => exact outward_extended (extended_relocate scopes _) depth
  | truncate count => exact outward_extended (extended_relocate scopes _) depth
  | openFunction parameters =>
    have hdrop : (scopes.openFunction parameters).outward depth = scopes.outward depth := by
      change drop (scopes.outer.length + 1 - depth) (_ :: scopes.functions) = _
      rw [Nat.succ_sub h, drop_succ_cons, outward]
    rw [act, hdrop]
    exact Extended.refl _
  | closeFunction =>
    obtain ⟨current, outer⟩ := scopes
    cases outer with
    | nil => exact Extended.refl _
    | cons next rest =>
      -- the function that is closed is further in than the one that stays open
      replace h' : depth ≤ rest.length := h'
      have hdrop : outward ⟨current, next :: rest⟩ depth = outward ⟨next, rest⟩ depth := by
        change drop (rest.length + 1 - depth) (current :: functions ⟨next, rest⟩) = _
        rw [Nat.succ_sub h', drop_succ_cons, outward]
      rw [hdrop]
      exact Extended.refl _
  | resolve name =>
    rw [act]
    cases hr : scopes.resolve name with
    | none =>
      rw [search_of_none hr]
      exact Extended.refl _
    | some found =>
      rw [search_of_some hr]
      exact outward_extended (extended_of_resolve hr) depth

theorem StaysOpen.depth_le {steps : List Scoping} (h : StaysOpen depth scopes steps) :
    depth ≤ scopes.outer.length := by
  cases steps with
  | nil => exact h
  | cons step steps => exact h.1

theorem outward_perform {steps : List Scoping} (h : StaysOpen depth scopes steps) :
    Extended (scopes.outward depth) ((scopes.perform steps).outward depth) := by
  induction steps generalizing scopes with
  | nil => exact Extended.refl _
  | cons step steps ih =>
    obtain ⟨hdepth, hsteps⟩ := h
    exact (outward_act step hdepth hsteps.depth_le).trans (ih hsteps)

theorem captured?_perform {steps : List Scoping} (h : StaysOpen depth scopes steps) {i : Nat}
    (hi : scopes.captured? depth i = some source) :
    (scopes.perform steps).captured? depth i = some source := by
  obtain ⟨s, hs, hi⟩ := Option.bind_eq_some_iff.1 hi
  obtain ⟨s', hs', hwidens⟩ := (outward_perform h).head? hs
  exact Option.bind_eq_some_iff.2 ⟨s', hs', hwidens.getElem? hi⟩

theorem nodup_act (step : Scoping) (h : ∀ s ∈ scopes.functions, s.captures.Nodup) :
    ∀ s ∈ (scopes.act step).functions, s.captures.Nodup := by
  obtain ⟨hcurrent, houter⟩ := forall_mem_cons.1 h
  cases step with
  | define name => exact forall_mem_cons.2 ⟨hcurrent, houter⟩
  | truncate count => exact forall_mem_cons.2 ⟨hcurrent, houter⟩
  | openFunction parameters => exact forall_mem_cons.2 ⟨nodup_nil, h⟩
  | closeFunction =>
    obtain ⟨current, outer⟩ := scopes
    cases outer with
    | nil => exact h
    | cons next rest => exact houter
  | resolve name =>
    rw [act]
    cases hr : scopes.resolve name with
    | none =>
      rw [search_of_none hr]
      exact h
    | some found =>
      rw [search_of_some hr]
      exact (extended_of_resolve hr).nodup h

theorem nodup_perform (steps : List Scoping) (h : ∀ s ∈ scopes.functions, s.captures.Nodup) :
    ∀ s ∈ (scopes.perform steps).functions, s.captures.Nodup := by
  induction steps generalizing scopes with
  | nil => exact h
  | cons step steps ih => exact ih (nodup_act step h)

theorem follow_of_resolve (h : scopes.resolve name = some (source, scopes')) :
    ∃ hops n, DefinedAt scopes.functions name hops n ∧
      follow scopes'.functions source = some (hops, n) := by
  obtain ⟨⟨_, current, outer⟩, hr, heq⟩ := Option.map_eq_some_iff.1 h
  cases heq
  obtain ⟨hops, n, hfollow, hdefined⟩ := follow_of_resolveIn hr
  exact ⟨hops, n, hdefined, hfollow⟩

theorem outward_of_resolve (h : scopes.resolve name = some (source, scopes')) :
    scopes'.outward scopes.outer.length = scopes'.functions := by
  rw [outward, length_outer_of_extended (extended_of_resolve h), Nat.sub_self, drop_zero]

/-- What leads to a slot has been captured. -/
theorem captured?_of_follow {i : Nat} {r : Nat × Nat}
    (h : follow (scopes.outward depth) (.capture i) = some r) :
    ∃ source, scopes.captured? depth i = some source := by
  rw [captured?]
  cases hs : scopes.outward depth with
  | nil =>
    rw [hs] at h
    cases h
  | cons s rest =>
    rw [hs] at h
    obtain ⟨source, hi, -⟩ := Option.bind_eq_some_iff.1 h
    exact ⟨source, hi⟩

/-- A name is found if an open function has it, as its latest definition in the innermost of these. Where
the variable that is found leads, and what an index stands for, stays as it is until the function is
closed; no function captures twice what it has, and nothing is captured for a name that is not found. -/
theorem resolve_lexical (steps : List Scoping) (name : String) :
    let scopes := start.perform steps
    let depth := scopes.outer.length
    ((scopes.resolve name).isSome ↔ ∃ scope ∈ scopes.functions, name ∈ scope.locals) ∧
    (∀ source scopes', scopes.resolve name = some (source, scopes') →
      scopes.act (.resolve name) = scopes' ∧
      (∃ hops n, DefinedAt scopes.functions name hops n ∧
        follow scopes'.functions source = some (hops, n) ∧ ∀ more, StaysOpen depth scopes' more →
          follow ((scopes'.perform more).outward depth) source = some (hops, n)) ∧
      ∀ i, source = .capture i → ∃ captured, ∀ more, StaysOpen depth scopes' more →
        (scopes'.perform more).captured? depth i = some captured) ∧
    (∀ depth i captured, scopes.captured? depth i = some captured → ∀ more,
      StaysOpen depth scopes more → (scopes.perform more).captured? depth i = some captured) ∧
    (∀ scope ∈ scopes.functions, scope.captures.Nodup) ∧
    (scopes.resolve name = none → scopes.act (.resolve name) = scopes) := by
  intro scopes depth
  refine ⟨isSome_resolve_iff, fun source scopes' h => ?_, ?_, nodup_perform steps ?_, fun h => ?_⟩
  · obtain ⟨hops, n, hdefined, hfollow⟩ := follow_of_resolve h
    have houtward : follow (scopes'.outward depth) source = some (hops, n) :=
      outward_of_resolve h ▸ hfollow
    refine ⟨by rw [act, search_of_some h], ⟨hops, n, hdefined, hfollow, fun more hmore => ?_⟩, ?_⟩
    · exact (outward_perform hmore).follow houtward
    · rintro i rfl
      obtain ⟨captured, hi⟩ := captured?_of_follow houtward
      exact ⟨captured, fun more hmore => captured?_perform hmore hi⟩
  · exact fun _ _ _ hi _ hmore => captured?_perform hmore hi
  · exact forall_mem_singleton.2 nodup_nil
  · rw [act, search_of_none h]

/-- What a middle function captures for an inner one is found again from there. -/
example :
    let scopes := start.perform
      [.define "outer", .openFunction ["p"], .openFunction ["q"], .resolve "outer", .resolve "p"]
    (scopes.resolve "outer").map Prod.fst = some (.capture 0) ∧
      follow scopes.functions (.capture 0) = some (2, 0) ∧ scopes.captured? 1 0 = some (.slot 0) := by
  decide

end Scopes

end Estimation
