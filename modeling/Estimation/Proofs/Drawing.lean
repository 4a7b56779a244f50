import Estimation.Proofs.Alike.Distributions
import Estimation.Proofs.Steps
import Estimation.Proofs.Tokens

/-!
Sets of samples and draws. There is one check that makes a set, and it wants samples, all of them numbers. So
what is drawn from a set is one of its samples, and a function that draws a set gives one of as many samples
as it is to draw, or fails.
-/

namespace Estimation

open List

/-! ### The check -/

namespace Samples

variable {xs : List Float} {s : Samples}

theorem numbers (s : Samples) : ∀ x ∈ s.toList, x.isNaN = false := by
  intro x hx
  have hnumber := all_eq_true.1 s.areNumbers x hx
  rwa [Bool.not_eq_true'] at hnumber

theorem ofList_toList (s : Samples) : ofList s.toList = .ok s := by
  unfold ofList
  rw [dif_neg s.toList_ne_nil, dif_pos s.areNumbers]

/-- A set is made of all the samples it is given, or not at all. -/
theorem ofList_eq_ok : ofList xs = .ok s ↔ s.toList = xs := by
  constructor
  · intro h
    unfold ofList at h
    split at h
    · cases h
    · split at h <;> cases h
      rfl
  · rintro rfl
    exact s.ofList_toList

theorem ofList_meets (xs : List Float) : Meets (fun _ => True) (fun s => s.toList = xs) (ofList xs) := by
  cases hs : ofList xs with
  | ok s => exact ofList_eq_ok.1 hs
  | error failure => trivial

theorem exists_ofList : (∃ s, ofList xs = .ok s) ↔ xs ≠ [] ∧ ∀ x ∈ xs, x.isNaN = false := by
  constructor
  · rintro ⟨s, hs⟩
    obtain rfl := ofList_eq_ok.1 hs
    exact ⟨s.toList_ne_nil, s.numbers⟩
  · rintro ⟨hne, hnumbers⟩
    have hall : xs.all (fun x => !x.isNaN) = true :=
      all_eq_true.2 fun x hx => by rw [hnumbers x hx]; rfl
    exact ⟨⟨xs, hne, hall⟩, ofList_eq_ok.2 rfl⟩

/-- An operator on sets fails for what is no number only: there are samples to combine. -/
theorem exists_zipWith (f : Float → Float → Float) (s t : Samples) :
    (∃ u, s.zipWith f t = .ok u) ↔ ∀ p ∈ s.toList.zip t.toList, (f p.1 p.2).isNaN = false := by
  have hne : List.zipWith f s.toList t.toList ≠ [] := by
    rw [Ne, zipWith_eq_nil_iff, not_or]
    exact ⟨s.toList_ne_nil, t.toList_ne_nil⟩
  have hzip : List.zipWith f s.toList t.toList = (s.toList.zip t.toList).map fun p => f p.1 p.2 :=
    map_uncurry_zip_eq_zipWith.symm
  unfold zipWith
  rw [exists_ofList, and_iff_right hne, hzip, forall_mem_map]

theorem exists_map (f : Float → Float) (s : Samples) :
    (∃ u, s.map f = .ok u) ↔ ∀ x ∈ s.toList, (f x).isNaN = false := by
  have hne : s.toList.map f ≠ [] := fun h => s.toList_ne_nil (map_eq_nil_iff.1 h)
  unfold map
  rw [exists_ofList, and_iff_right hne, forall_mem_map]

end Samples

/-! ### Draws -/

namespace Random

theorem belowWithin_lt {n : Nat} (hn : 0 < n) (attempts : Nat) (r : Random) :
    (belowWithin n attempts r).1 < n := by
  induction attempts generalizing r with
  | zero => exact hn
  | succ attempts ih =>
    unfold belowWithin
    rcases r.word with ⟨w, rest⟩
    dsimp only
    split
    · have hw : w.toNat < 2 ^ 64 := w.toNat_lt
      rw [Nat.shiftRight_eq_div_pow]
      exact Nat.div_lt_of_lt_mul (Nat.mul_lt_mul_of_pos_right hw hn)
    · exact ih rest

theorem below_lt {n : Nat} (hn : 0 < n) (r : Random) : (r.below n).1 < n := belowWithin_lt hn _ r

end Random

namespace Library

/-- Whatever the random numbers are, a step fails in one of some ways or has a result with a property. -/
def Draws {α : Type} (E : Failure → Prop) (Q : α → Prop) (d : Draw α) : Prop :=
  ∀ random, Meets E Q (d random).1

namespace Draws

variable {α δ : Type} {E : Failure → Prop} {P : α → Prop} {Q : δ → Prop} {d : Draw α}

theorem pure {a : α} (h : P a) : Draws E P (pure a) := fun _ => h

theorem orStop {x : Result α} (h : Meets E P x) : Draws E P (Library.orStop x) := fun _ => h

theorem bind (h : Draws E P d) {k : α → Draw δ} (hk : ∀ a, P a → Draws E Q (k a)) :
    Draws E Q (d >>= k) := by
  intro random
  have hd := h random
  rcases hstep : d random with ⟨x, rest⟩
  rw [hstep] at hd
  cases x with
  | ok a =>
    rw [DrawAlike.bind_ok hstep]
    exact hk a hd rest
  | error failure =>
    rw [DrawAlike.bind_error hstep]
    exact hd

theorem orStop_bind {a : α} {k : α → Draw δ} (h : Draws E Q (k a)) :
    Draws E Q (Library.orStop (.ok a) >>= k) := fun random => h random

theorem any (d : Draw α) : Draws (fun _ => True) (fun _ => True) d := by
  intro random
  cases (d random).1 <;> trivial

/-- Nothing need be known of what is drawn before. -/
theorem after {k : α → Draw δ} (hk : ∀ a, Draws (fun _ => True) Q (k a)) :
    Draws (fun _ => True) Q (d >>= k) :=
  (any d).bind fun a _ => hk a

theorem mono (h : Draws E P d) {P' : α → Prop} (hP : ∀ a, P a → P' a) : Draws E P' d :=
  fun random => (h random).mono hP

theorem run (h : Draws E P d) (frames : List Frame) (span : Span) (m : Machine) :
    Meets (fun e => E e.failure) P (Eval.draw frames span d m).1 := by
  have hd := h m.random
  rw [Eval.draw]
  rcases hstep : d m.random with ⟨x, rest⟩
  rw [hstep] at hd
  cases x with
  | ok a => exact hd
  | error failure => exact hd

end Draws

theorem drawBelow_draws {n : Nat} (hn : 0 < n) : Draws (fun _ => False) (· < n) (drawBelow n) :=
  fun random => Random.below_lt hn random

theorem drawFrom_draws {E : Failure → Prop} {P : Float → Prop} {sample : Draw Float}
    (h : Draws E P sample) {done : List Float} (hdone : ∀ x ∈ done, P x) (left : Nat) :
    Draws E (fun xs => xs.length = done.length + left ∧ ∀ x ∈ xs, P x) (drawFrom sample done left) := by
  induction left generalizing done with
  | zero => exact .pure ⟨length_reverse, fun x hx => hdone x (mem_reverse.1 hx)⟩
  | succ left ih =>
    refine h.bind fun x hx => (ih (forall_mem_cons.2 ⟨hx, hdone⟩)).mono fun xs hxs => ⟨?_, hxs.2⟩
    rw [hxs.1, length_cons]
    omega

/-! ### Functions that draw sets -/

variable {β : Type} {args : List (ValueOf β)}

/-- A set of so many samples. -/
def SetOf (n : Nat) (v : ValueOf β) : Prop := ∃ s, v = .samples s ∧ s.size = n

theorem generate_draws (environment : Environment) (sample : Draw Float) :
    Draws (fun _ => True) (SetOf (β := β) environment.sampleCount) (generate environment sample) := by
  refine (drawFrom_draws (.any sample) (forall_mem_nil _) _).bind fun xs hxs => ?_
  refine (Draws.orStop (Samples.ofList_meets xs)).bind fun s hs => .pure ⟨s, rfl, ?_⟩
  rw [Samples.size, hs, hxs.1, length_nil, Nat.zero_add]

theorem normal_draws (environment : Environment) :
    Draws (fun _ => True) (SetOf environment.sampleCount) (normal environment args) :=
  .after fun _ => .after fun _ => .after fun _ => generate_draws environment _

theorem lognormal_draws (environment : Environment) :
    Draws (fun _ => True) (SetOf environment.sampleCount) (lognormal environment args) :=
  .after fun _ => .after fun _ => .after fun _ => generate_draws environment _

theorem uniform_draws (environment : Environment) :
    Draws (fun _ => True) (SetOf environment.sampleCount) (uniform environment args) := by
  refine .after fun low => .after fun high => ?_
  split
  · exact .orStop trivial
  · exact generate_draws environment _

theorem pointMass_draws (environment : Environment) :
    Draws (fun _ => True) (SetOf environment.sampleCount) (pointMass environment args) :=
  .after fun _ => generate_draws environment _

theorem spread_draws (environment : Environment) :
    Draws (fun _ => True) (SetOf environment.sampleCount) (spread environment args) := by
  refine .after fun low => .after fun high => ?_
  split
  · exact .orStop trivial
  · split
    · exact generate_draws environment _
    · exact generate_draws environment _

/-! ### Sets of given numbers -/

theorem mapM_asNumber_eq_ok {items : List (ValueOf β)} {xs : List Float} :
    items.mapM asNumber = .ok xs ↔ items = xs.map .number := by
  induction items generalizing xs with
  | nil =>
    rw [mapM_nil]
    constructor
    · rintro ⟨⟩
      rfl
    · intro h
      rw [map_eq_nil_iff.1 h.symm]
      rfl
  | cons v items ih =>
    rw [mapM_cons]
    constructor
    · intro h
      cases v with
      | number x =>
        cases hrest : items.mapM asNumber with
        | error failure => rw [hrest] at h; cases h
        | ok ys =>
          rw [hrest] at h
          cases h
          rw [ih.1 hrest, map_cons]
      | _ => cases h
    · intro h
      obtain ⟨x, ys, rfl, rfl, rfl⟩ := map_eq_cons_iff.1 h.symm
      rw [ih.2 rfl]
      rfl

theorem list_meets (i : Nat) :
    Meets (fun _ => True) (fun items => args[i]? = some (.list items)) (list args i) := by
  unfold list argument
  cases args[i]? with
  | none => trivial
  | some v =>
    cases v with
    | list items => rfl
    | _ => trivial

theorem samplesOfList_meets :
    Meets (fun _ => True)
      (fun v => ∃ s : Samples, v = .samples s ∧ args[0]? = some (.list (s.toList.map .number)))
      (samplesOfList args) := by
  unfold samplesOfList
  refine (list_meets 0).bind fun items hitems => ?_
  cases hxs : items.mapM asNumber with
  | error failure => trivial
  | ok xs =>
    obtain rfl := mapM_asNumber_eq_ok.1 hxs
    refine Meets.bind (Samples.ofList_meets xs) fun s hs => ⟨s, rfl, ?_⟩
    rw [hs, hitems]

/-- A list makes just the set that has its items for samples, if there is such a set. -/
theorem samplesOfList_eq_ok {v : ValueOf β} :
    samplesOfList args = .ok v ↔
      ∃ s : Samples, v = .samples s ∧ args[0]? = some (.list (s.toList.map .number)) := by
  constructor
  · intro h
    have hmeets : Meets _ _ (samplesOfList args) := samplesOfList_meets
    rwa [h] at hmeets
  · rintro ⟨s, rfl, hargs⟩
    have hlist : list args 0 = .ok (s.toList.map .number) := by
      unfold list argument
      rw [hargs]
      rfl
    unfold samplesOfList
    rw [hlist]
    change (List.mapM asNumber (s.toList.map .number) >>= fun xs => _) = _
    rw [mapM_asNumber_eq_ok.2 rfl]
    change (Samples.ofList s.toList >>= fun s => _) = _
    rw [s.ofList_toList]
    rfl

/-- A set is taken as it is, and a number as the set of this one sample. -/
theorem samples_meets (i : Nat) :
    Meets (fun _ => True)
      (fun s => args[i]? = some (.samples s) ∨ ∃ x, args[i]? = some (.number x) ∧ s.toList = [x])
      (samples args i) := by
  unfold samples argument
  cases args[i]? with
  | none => trivial
  | some v =>
    cases v with
    | samples s => exact .inl rfl
    | number x => exact (Samples.ofList_meets [x]).mono fun s hs => .inr ⟨x, rfl, hs⟩
    | _ => trivial

/-! ### Draws from sets -/

variable {s : Samples}

theorem sample_draws (hs : samples args 0 = .ok s) :
    Draws (fun _ => False) (fun v => ∃ x ∈ s.toList, v = .number x) (sample args) := by
  unfold sample
  rw [hs]
  refine .orStop_bind ((drawBelow_draws s.size_pos).bind fun k hk => .pure ⟨_, ?_, rfl⟩)
  have hk : k < s.toList.length := hk
  rw [getD_eq_getElem?_getD, getElem?_eq_getElem hk, Option.getD_some]
  exact getElem_mem hk

theorem sampleMany_draws (hs : samples args 0 = .ok s) {count : Int} (hcount : integer args 1 = .ok count)
    (hnonneg : 0 ≤ count) :
    Draws (fun _ => False)
      (fun v => ∃ xs : List Float,
        v = .list (xs.map .number) ∧ xs.length = count.toNat ∧ ∀ x ∈ xs, x ∈ s.toList)
      (sampleMany args) := by
  have hone : Draws (fun _ => False) (· ∈ s.toList)
      (do return s.toList.toArray.getD (← drawBelow s.size) 0) := by
    refine (drawBelow_draws s.size_pos).bind fun k hk => .pure ?_
    have hk : k < s.toList.length := hk
    rw [Array.getD_eq_getD_getElem?, getElem?_toArray, getElem?_eq_getElem hk, Option.getD_some]
    exact getElem_mem hk
  unfold sampleMany
  rw [hs, hcount]
  refine .orStop_bind (.orStop_bind ?_)
  rw [if_neg (Int.not_lt.2 hnonneg)]
  refine (drawFrom_draws hone (forall_mem_nil _) _).bind fun xs hxs => .pure ⟨xs, rfl, ?_, hxs.2⟩
  rw [hxs.1, length_nil, Nat.zero_add]

end Library

end Estimation
