import Estimation.Proofs.Agreement.Expressions
import Estimation.Proofs.Capturing
import Estimation.Proofs.Pipes
import Mathlib.Data.List.Nodup

/-!
Code that is the same but for the order in which functions capture. What is captured has a name, and code of
the one function finds under one index what code of the other finds under another one, if both have the
same name. Pipes that are written as calls compile to such code.
-/

namespace Estimation

open List

/-- What stands under different names on the one side stands under the same names on the other side, in
whatever order. -/
inductive Permuted {α δ : Type} (R : α → δ → Prop) :
    List String → List String → List α → List δ → Prop
  | intro {taken : List (String × α)} {given taken' : List (String × δ)} : (taken.map Prod.fst).Nodup →
      Forall₂ (EntryAlike R) taken given → given.Perm taken' →
      Permuted R (taken.map Prod.fst) (taken'.map Prod.fst) (taken.map Prod.snd) (taken'.map Prod.snd)

namespace Permuted

variable {α δ α' δ' : Type} {R : α → δ → Prop} {S : α' → δ' → Prop} {k k' : List String} {xs : List α}
  {ys : List δ}

theorem nil : Permuted R [] [] [] [] := @intro _ _ R [] [] [] nodup_nil .nil .nil

theorem map (h : Permuted R k k' xs ys) {f : α → α'} {g : δ → δ'}
    (hfg : ∀ a b, R a b → S (f a) (g b)) : Permuted S k k' (xs.map f) (ys.map g) := by
  obtain @⟨taken, given, taken', hnodup, htaken, hperm⟩ := h
  have hmap := @intro _ _ S (taken.map fun x => (x.1, f x.2)) (given.map fun y => (y.1, g y.2))
    (taken'.map fun y => (y.1, g y.2)) (by rwa [map_map]) ?_ (hperm.map _)
  · simpa only [map_map, Function.comp_def] using hmap
  · rw [forall₂_map_left_iff, forall₂_map_right_iff]
    exact htaken.imp fun _ _ ⟨h⟩ => ⟨hfg _ _ h⟩

/-- Under one name stands one thing on each side. -/
theorem linked (h : Permuted R k k' xs ys) {i j : Nat} {name : String} (hi : k[i]? = some name)
    (hj : k'[j]? = some name) : ∃ a b, xs[i]? = some a ∧ ys[j]? = some b ∧ R a b := by
  obtain @⟨taken, given, taken', hnodup, htaken, hperm⟩ := h
  rw [getElem?_map, Option.map_eq_some_iff] at hi hj
  obtain ⟨⟨_, a⟩, hx, rfl⟩ := hi
  obtain ⟨⟨_, b⟩, hy, rfl⟩ := hj
  obtain ⟨⟨_, a'⟩, hmem, hab⟩ := related_of_mem htaken (hperm.mem_iff.2 (mem_of_getElem? hy))
  obtain ⟨hab⟩ := hab
  cases inj_on_of_nodup_map hnodup (mem_of_getElem? hx) hmem rfl
  refine ⟨a, b, ?_, ?_, hab⟩
  · rw [getElem?_map, hx]
    rfl
  · rw [getElem?_map, hy]
    rfl

theorem left (h : Permuted R k k' xs ys) {a : α} (ha : a ∈ xs) : ∃ b ∈ ys, R a b := by
  obtain ⟨-, htaken, hperm⟩ := h
  obtain ⟨x, hx, rfl⟩ := mem_map.1 ha
  obtain ⟨y, hy, hxy⟩ := related_of_mem htaken.flip hx
  obtain ⟨hxy⟩ := hxy
  exact ⟨_, mem_map_of_mem (hperm.mem_iff.1 hy), hxy⟩

theorem right (h : Permuted R k k' xs ys) {b : δ} (hb : b ∈ ys) : ∃ a ∈ xs, R a b := by
  obtain ⟨-, htaken, hperm⟩ := h
  obtain ⟨y, hy, rfl⟩ := mem_map.1 hb
  obtain ⟨x, hx, hxy⟩ := related_of_mem htaken (hperm.mem_iff.2 hy)
  obtain ⟨hxy⟩ := hxy
  exact ⟨_, mem_map_of_mem hx, hxy⟩

theorem exists_iff (h : Permuted R k k' xs ys) {p : α → Prop} {q : δ → Prop}
    (hpq : ∀ a b, R a b → (p a ↔ q b)) : (∃ a ∈ xs, p a) ↔ ∃ b ∈ ys, q b := by
  constructor
  · rintro ⟨a, ha, hp⟩
    obtain ⟨b, hb, hab⟩ := h.left ha
    exact ⟨b, hb, (hpq a b hab).1 hp⟩
  · rintro ⟨b, hb, hq⟩
    obtain ⟨a, ha, hab⟩ := h.right hb
    exact ⟨a, ha, (hpq a b hab).2 hq⟩

end Permuted

/-- Variables of two functions: one of so many slots, or what both captured under the same name. -/
inductive Variable.Matched (n : Nat) (k k' : List String) : Variable → Variable → Prop
  | slot {i} : i < n → Matched n k k' (.slot i) (.slot i)
  | capture {i j name} : k[i]? = some name → k'[j]? = some name →
      Matched n k k' (.capture i) (.capture j)

namespace Code

mutual

/-- Code of two functions that have `n` slots where it stands, and captured values with the names `k` and
`k'`. What two lambdas capture is the same under the same names, in whatever order. -/
inductive Matched : Nat → List String → List String → Code → Code → Prop
  | value {n k k'} (v span) : Matched n k k' (.value v span) (.value v span)
  | read {n k k' source source'} (span) : source.Matched n k k' source' →
      Matched n k k' (.read source span) (.read source' span)
  | block {n k k' cs ds c d} (span) : StatementsMatched n k k' cs ds →
      Matched (n + cs.length) k k' c d → Matched n k k' (.block cs c span) (.block ds d span)
  | list {n k k' cs ds} (span) : AllMatched n k k' cs ds →
      Matched n k k' (.list cs span) (.list ds span)
  | dict {n k k' es fs} (span) : EntriesMatched n k k' es fs →
      Matched n k k' (.dict es span) (.dict fs span)
  | choice {n k k' c c' d d' e e'} (span) : Matched n k k' c c' → Matched n k k' d d' →
      Matched n k k' e e' → Matched n k k' (.choice c d e span) (.choice c' d' e' span)
  | lambda {n k k' l l' sources sources' ps qs c d} (name span) :
      Permuted (Variable.Matched n k k') l l' sources sources' → ParametersMatched n k k' ps qs →
      Matched ps.length l l' c d →
      Matched n k k' (.lambda name ps sources c span) (.lambda name qs sources' d span)
  | call {n k k' c d cs ds} (span) : Matched n k k' c d → AllMatched n k k' cs ds →
      Matched n k k' (.call c cs span) (.call d ds span)

inductive AllMatched : Nat → List String → List String → List Code → List Code → Prop
  | nil {n k k'} : AllMatched n k k' [] []
  | cons {n k k' c d cs ds} : Matched n k k' c d → AllMatched n k k' cs ds →
      AllMatched n k k' (c :: cs) (d :: ds)

inductive EntriesMatched :
    Nat → List String → List String → List (Code × Code) → List (Code × Code) → Prop
  | nil {n k k'} : EntriesMatched n k k' [] []
  | cons {n k k' c c' d d' es fs} : Matched n k k' c c' → Matched n k k' d d' →
      EntriesMatched n k k' es fs → EntriesMatched n k k' ((c, d) :: es) ((c', d') :: fs)

inductive ParametersMatched :
    Nat → List String → List String → List (CodeParameter Code) → List (CodeParameter Code) → Prop
  | nil {n k k'} : ParametersMatched n k k' [] []
  | plain {n k k' ps qs} (name) : ParametersMatched n k k' ps qs →
      ParametersMatched n k k' (⟨name, none⟩ :: ps) (⟨name, none⟩ :: qs)
  | ranged {n k k' c d ps qs} (name) : Matched n k k' c d → ParametersMatched n k k' ps qs →
      ParametersMatched n k k' (⟨name, some c⟩ :: ps) (⟨name, some d⟩ :: qs)

/-- Each statement adds a slot. -/
inductive StatementsMatched : Nat → List String → List String → List Code → List Code → Prop
  | nil {n k k'} : StatementsMatched n k k' [] []
  | cons {n k k' c d cs ds} (name span) : Matched n k k' c d → StatementsMatched (n + 1) k k' cs ds →
      StatementsMatched n k k' (.assign name c span :: cs) (.assign name d span :: ds)

end

/-- Code that finds variables by itself. -/
def finds : Code → Bool
  | .read _ _ => true
  | .lambda _ _ _ _ _ => true
  | _ => false

/-- Where it stands, code needs the captured value with a name. -/
def Needs (k : List String) (name : String) (c : Code) : Prop :=
  ∃ i, k[i]? = some name ∧ c.Captures i

section

variable {n : Nat} {k k' : List String} {name : String} {c d : Code} {cs ds : List Code}

theorem needs_own (hc : c.finds = false) : c.Needs k name ↔ ∃ d ∈ c.own, d.Needs k name := by
  constructor
  · rintro ⟨i, hi, hcaptures⟩
    cases hcaptures with
    | read => cases hc
    | taken => cases hc
    | own hd hcaptures => exact ⟨_, hd, i, hi, hcaptures⟩
  · rintro ⟨d, hd, i, hi, hcaptures⟩
    exact ⟨i, hi, .own hd hcaptures⟩

theorem needs_congr (hc : c.finds = false) (hd : d.finds = false)
    (h : (∃ e ∈ c.own, e.Needs k name) ↔ ∃ e ∈ d.own, e.Needs k' name) :
    c.Needs k name ↔ d.Needs k' name :=
  (needs_own hc).trans (h.trans (needs_own hd).symm)

theorem exists_mem_append {p : Code → Prop} :
    (∃ c ∈ cs ++ ds, p c) ↔ (∃ c ∈ cs, p c) ∨ ∃ d ∈ ds, p d := by
  simp only [mem_append, or_and_right, exists_or]

theorem needs_read {source : Variable} {span : Span} :
    (Code.read source span).Needs k name ↔ ∃ i, .capture i = source ∧ k[i]? = some name := by
  constructor
  · rintro ⟨i, hi, hc⟩
    cases hc with
    | read => exact ⟨i, rfl, hi⟩
    | own hd => cases hd
  · rintro ⟨i, rfl, hi⟩
    exact ⟨i, hi, .read⟩

theorem needs_lambda {own : Option String} {ps : List (CodeParameter Code)} {sources : List Variable}
    {span : Span} : (Code.lambda own ps sources c span).Needs k name ↔
      (∃ source ∈ sources, ∃ i, .capture i = source ∧ k[i]? = some name) ∨
        ∃ d ∈ ps.filterMap CodeParameter.range, d.Needs k name := by
  constructor
  · rintro ⟨i, hi, hc⟩
    cases hc with
    | taken hmem => exact .inl ⟨_, hmem, i, rfl, hi⟩
    | own hd hc => exact .inr ⟨_, hd, i, hi, hc⟩
  · rintro (⟨_, hmem, i, rfl, hi⟩ | ⟨d, hd, i, hi, hc⟩)
    · exact ⟨i, hi, .taken hmem⟩
    · exact ⟨i, hi, .own hd hc⟩

end

end Code

theorem Variable.Matched.capture_iff {n : Nat} {k k' : List String} {name : String}
    {source source' : Variable} (h : source.Matched n k k' source') :
    (∃ i, .capture i = source ∧ k[i]? = some name) ↔ ∃ j, .capture j = source' ∧ k'[j]? = some name := by
  cases h with
  | slot => exact ⟨nofun, nofun⟩
  | capture hi hj =>
    constructor
    · rintro ⟨_, ⟨⟩, hi'⟩
      exact ⟨_, rfl, hj.trans (hi.symm.trans hi')⟩
    · rintro ⟨_, ⟨⟩, hj'⟩
      exact ⟨_, rfl, hi.trans (hj.symm.trans hj')⟩

namespace Code

variable {n : Nat} {k k' : List String} {name : String}

mutual

theorem Matched.needs_iff : ∀ {n : Nat} {k k' : List String} {c d : Code}, Matched n k k' c d →
    (c.Needs k name ↔ d.Needs k' name)
  | _, _, _, .value _ _, _, .value _ _ => by
    refine needs_congr rfl rfl ?_
    simp [own, pieces]
  | _, _, _, .read _ _, _, .read _ h => by rw [needs_read, needs_read, h.capture_iff]
  | _, _, _, .block _ _ _, _, .block _ hs h => by
    refine needs_congr rfl rfl ?_
    simp only [own, pieces, exists_mem_append, exists_mem_cons_iff, hs.needs_iff, h.needs_iff,
      not_mem_nil, false_and, exists_false]
  | _, _, _, .list _ _, _, .list _ hs => by
    refine needs_congr rfl rfl ?_
    exact hs.needs_iff
  | _, _, _, .dict _ _, _, .dict _ hs => by
    refine needs_congr rfl rfl ?_
    exact hs.needs_iff
  | _, _, _, .choice _ _ _ _, _, .choice _ h h' h'' => by
    refine needs_congr rfl rfl ?_
    simp only [own, pieces, exists_mem_cons_iff, h.needs_iff, h'.needs_iff, h''.needs_iff, not_mem_nil,
      false_and, exists_false]
  | _, _, _, .lambda _ _ _ _ _, _, .lambda _ _ hsources hps _ => by
    rw [needs_lambda, needs_lambda, hsources.exists_iff fun _ _ h => h.capture_iff, hps.needs_iff]
  | _, _, _, .call _ _ _, _, .call _ h hs => by
    refine needs_congr rfl rfl ?_
    simp only [own, pieces, exists_mem_cons_iff, h.needs_iff, hs.needs_iff]

theorem AllMatched.needs_iff : ∀ {n : Nat} {k k' : List String} {cs ds : List Code},
    AllMatched n k k' cs ds → ((∃ c ∈ cs, c.Needs k name) ↔ ∃ d ∈ ds, d.Needs k' name)
  | _, _, _, [], _, .nil => by simp
  | _, _, _, _ :: _, _, .cons h hs => by
    simp only [exists_mem_cons_iff, h.needs_iff, hs.needs_iff]

theorem EntriesMatched.needs_iff : ∀ {n : Nat} {k k' : List String} {es fs : List (Code × Code)},
    EntriesMatched n k k' es fs → ((∃ c ∈ es.flatMap fun e => [e.1, e.2], c.Needs k name) ↔
      ∃ d ∈ fs.flatMap fun f => [f.1, f.2], d.Needs k' name)
  | _, _, _, [], _, .nil => by simp
  | _, _, _, _ :: _, _, .cons h h' hs => by
    simp only [flatMap_cons, cons_append, nil_append, exists_mem_cons_iff, h.needs_iff, h'.needs_iff,
      hs.needs_iff]

theorem ParametersMatched.needs_iff : ∀ {n : Nat} {k k' : List String}
    {ps qs : List (CodeParameter Code)}, ParametersMatched n k k' ps qs →
    ((∃ c ∈ ps.filterMap CodeParameter.range, c.Needs k name) ↔
      ∃ d ∈ qs.filterMap CodeParameter.range, d.Needs k' name)
  | _, _, _, [], _, .nil => by simp
  | _, _, _, _ :: _, _, .plain _ hs => by simp only [filterMap_cons, hs.needs_iff]
  | _, _, _, _ :: _, _, .ranged _ h hs => by
    simp only [filterMap_cons, exists_mem_cons_iff, h.needs_iff, hs.needs_iff]

theorem StatementsMatched.needs_iff : ∀ {n : Nat} {k k' : List String} {cs ds : List Code},
    StatementsMatched n k k' cs ds → ((∃ c ∈ cs, c.Needs k name) ↔ ∃ d ∈ ds, d.Needs k' name)
  | _, _, _, [], _, .nil => by simp
  | _, _, _, .assign _ _ _ :: _, _, .cons _ _ h hs => by
    simp only [exists_mem_cons_iff, hs.needs_iff]
    refine or_congr_left (needs_congr rfl rfl ?_)
    simp only [own, pieces, exists_mem_cons_iff, h.needs_iff, not_mem_nil, false_and, exists_false]

end

end Code

end Estimation
