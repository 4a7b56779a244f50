import Estimation.Proofs.Layout
import Estimation.Value.Path

/-!
What a program writes of a value. A path is written out as far as it goes through the lists, dictionaries
and blocks of the code. Where it is, the part that it leads to starts at an offset from which the way back
is the same path, if parts are apart and every bracket stands before what it holds.
-/

namespace Estimation

open List

namespace Syntax

open ValuePath

namespace Expr

/-- The expression that edges lead to, if all of them are written out. -/
def part? : List Edge → Expr → Option Expr
  | [], e => some e.unblocked
  | edge :: edges, e => (e.unblocked.child? edge).bind (part? edges)

/-- A path goes through lists and dictionaries, and blocks are looked through. -/
def isPlain : Expr → Bool
  | .list _ _ => false
  | .dict _ _ => false
  | .block _ _ _ => false
  | _ => true

/-- What a list or a dictionary holds starts behind its bracket, wherever a path may go. -/
inductive Opens : Expr → Prop
  | list {items : List Expr} {span : Span} :
      (∀ e ∈ items, span.start.offset < e.span.start.offset) → (∀ e ∈ items, Opens e) →
      Opens (.list items span)
  | dict {entries : List (Entry Expr)} {span : Span} :
      (∀ entry ∈ entries, span.start.offset < entry.keySpan.start.offset) →
      (∀ entry ∈ entries, Opens entry.value) → Opens (.dict entries span)
  | block {statements : List (Statement Expr)} {result : Expr} {span : Span} :
      Opens result → Opens (.block statements result span)
  | plain {e : Expr} : e.isPlain → Opens e

variable {tokens : List Token} {e d : Expr} {edges : List Edge} {offset n : Nat} {span : Span}

theorem deepest_of_part (h : e.part? edges = some d) : e.deepest edges = d := by
  induction edges generalizing e with
  | nil => exact Option.some.inj h
  | cons edge edges ih =>
    obtain ⟨c, hc, h⟩ := Option.bind_eq_some_iff.1 h
    simpa [deepest, hc] using ih h

theorem edgesAt_of_plain (h : e.isPlain) (offset : Nat) : e.edgesAt offset = [] := by
  cases e with
  | list => cases h
  | dict => cases h
  | block => cases h
  | _ => rw [edgesAt] <;> nofun

theorem isPlain_withSpan (span : Span) (e : Expr) : (e.withSpan span).isPlain = e.isPlain := by
  cases e <;> rfl

namespace Opens

theorem of_list {items : List Expr} (h : Opens (.list items span)) :
    ∀ e ∈ items, span.start.offset < e.span.start.offset ∧ e.Opens := by
  cases h with
  | list hstart hitems => exact fun e he => ⟨hstart e he, hitems e he⟩
  | plain h => cases h

theorem of_dict {entries : List (Entry Expr)} (h : Opens (.dict entries span)) :
    ∀ entry ∈ entries, span.start.offset < entry.keySpan.start.offset ∧ entry.value.Opens := by
  cases h with
  | dict hstart hentries => exact fun entry he => ⟨hstart entry he, hentries entry he⟩
  | plain h => cases h

theorem of_block {statements : List (Statement Expr)} {result : Expr}
    (h : Opens (.block statements result span)) : result.Opens := by
  cases h with
  | block h => exact h
  | plain h => cases h

theorem withSpan (h : e.Opens) (hspan : span.start.offset ≤ e.span.start.offset) :
    (e.withSpan span).Opens := by
  cases h with
  | list hstart hitems => exact .list (fun e he => Nat.lt_of_le_of_lt hspan (hstart e he)) hitems
  | dict hstart hentries => exact .dict (fun e he => Nat.lt_of_le_of_lt hspan (hstart e he)) hentries
  | block h => exact .block h
  | plain h => exact .plain (by rwa [isPlain_withSpan])

theorem named (h : e.Opens) (name : String) : (e.named name).Opens := by
  cases e with
  | lambda own => cases own <;> exact .plain rfl
  | _ => exact h

end Opens

/-! ### Offsets at which parts start -/

theorem itemEdgesAt_of_none {items : List Expr} (h : ∀ e ∈ items, ¬ e.span.Covers offset) :
    itemEdgesAt offset n items = [] := by
  induction items generalizing n with
  | nil => rw [itemEdgesAt]
  | cons e es ih =>
    obtain ⟨he, hes⟩ := forall_mem_cons.1 h
    rw [itemEdgesAt, if_neg he, ih hes]

theorem entriesEdgesAt_of_none {entries : List (Entry Expr)}
    (h : ∀ entry ∈ entries, ¬ (entry.keySpan.through entry.value.span).Covers offset) :
    entriesEdgesAt offset entries = [] := by
  induction entries with
  | nil => rw [entriesEdgesAt]
  | cons entry entries ih =>
    obtain ⟨hentry, hentries⟩ := forall_mem_cons.1 h
    have hnone : entryEdgesAt offset entry = [] := by rw [entryEdgesAt, if_neg hentry]
    simp [entriesEdgesAt, hnone, ih hentries]

/-- Of parts that are apart, the way goes to the one that covers the offset. -/
theorem itemEdgesAt_of_covers {items : List Expr} {i : Nat}
    (happart : items.Pairwise fun c d => c.span.stop.offset ≤ d.span.start.offset)
    (hi : items[i]? = some d) (hd : d.span.Covers offset) :
    itemEdgesAt offset n items = .index (n + i) :: d.edgesAt offset := by
  induction items generalizing n i with
  | nil => cases hi
  | cons e es ih =>
    obtain ⟨he, hes⟩ := pairwise_cons.1 happart
    cases i with
    | zero =>
      obtain rfl : e = d := Option.some.inj hi
      rw [itemEdgesAt, if_pos hd, Nat.add_zero]
    | succ i =>
      rw [getElem?_cons_succ] at hi
      have hle := he d (mem_of_getElem? hi)
      have hnot : ¬ e.span.Covers offset := fun hcovers =>
        Nat.lt_irrefl _ (Nat.lt_of_lt_of_le hcovers.2 (Nat.le_trans hle hd.1))
      rw [itemEdgesAt, if_neg hnot, ih hes hi, Nat.add_right_comm, Nat.add_assoc]

theorem entriesEdgesAt_of_covers {entries : List (Entry Expr)} {entry : Entry Expr}
    (happart : entries.Pairwise fun c d => c.value.span.stop.offset ≤ d.keySpan.start.offset)
    (hentry : entry ∈ entries) (hcovers : (entry.keySpan.through entry.value.span).Covers offset) :
    entriesEdgesAt offset entries = .key entry.key :: entry.value.edgesAt offset := by
  induction entries with
  | nil => cases hentry
  | cons first rest ih =>
    obtain ⟨hfirst, hrest⟩ := pairwise_cons.1 happart
    rcases mem_cons.1 hentry with rfl | hmem
    · have hedges : entryEdgesAt offset entry = .key entry.key :: entry.value.edgesAt offset := by
        rw [entryEdgesAt, if_pos hcovers]
      simp [entriesEdgesAt, hedges]
    · have hle := hfirst entry hmem
      have hnot : ¬ (first.keySpan.through first.value.span).Covers offset := fun h =>
        Nat.lt_irrefl _ (Nat.lt_of_lt_of_le h.2 (Nat.le_trans hle hcovers.1))
      have hnone : entryEdgesAt offset first = [] := by rw [entryEdgesAt, if_neg hnot]
      simp [entriesEdgesAt, hnone, ih hrest hmem]

/-! ### Blocks -/

theorem edgesAt_unblocked (offset : Nat) (e : Expr) : e.unblocked.edgesAt offset = e.edgesAt offset := by
  fun_induction unblocked e with
  | case1 statements result span ih => rw [ih, edgesAt]
  | case2 => rfl

theorem Opens.unblocked (h : e.Opens) : e.unblocked.Opens := by
  fun_induction Expr.unblocked e with
  | case1 statements result span ih => exact ih h.of_block
  | case2 => exact h

/-- An expression lies on tokens, within bounds. -/
structure Within (tokens : List Token) (e : Expr) (start stop : Nat) : Prop where
  laid : Piece.Laid tokens (.expr e)
  start : start ≤ e.span.start.offset
  stop : e.span.stop.offset ≤ stop

theorem within_unblocked (h : Piece.Laid tokens (.expr e)) :
    e.unblocked.Within tokens e.span.start.offset e.span.stop.offset := by
  fun_induction unblocked e with
  | case1 statements result span ih =>
    have hresult : Piece.expr result ∈ (Piece.expr (.block statements result span)).pieces :=
      mem_append_right _ mem_cons_self
    have hspan := mem_map_of_mem (f := Piece.span) hresult
    have hinner := ih (h.pieces _ hresult)
    exact ⟨hinner.laid, Nat.le_trans (h.follow.starts _ hspan) hinner.start,
      Nat.le_trans hinner.stop (h.follow.stops _ hspan)⟩
  | case2 => exact ⟨h, Nat.le_refl _, Nat.le_refl _⟩

/-! ### There and back -/

theorem laid_items {items : List Expr} (h : Piece.Laid tokens (.expr (.list items span))) :
    (∀ c ∈ items, c.Within tokens span.start.offset span.stop.offset) ∧
      items.Pairwise fun c d => c.span.stop.offset ≤ d.span.start.offset := by
  constructor
  · intro c hc
    have hpiece : Piece.expr c ∈ (Piece.expr (.list items span)).pieces := mem_map_of_mem hc
    have hspan := mem_map_of_mem (f := Piece.span) hpiece
    exact ⟨h.pieces _ hpiece, h.follow.starts _ hspan, h.follow.stops _ hspan⟩
  · have happart := h.follow.pairwise
    rw [Piece.pieces, Piece.ofExpr, map_map, pairwise_map] at happart
    exact happart

theorem laid_entries {entries : List (Entry Expr)} (h : Piece.Laid tokens (.expr (.dict entries span))) :
    (∀ entry ∈ entries, entry.keySpan.start.offset ≤ entry.value.span.start.offset ∧
      entry.value.Within tokens span.start.offset span.stop.offset) ∧
      entries.Pairwise fun c d => c.value.span.stop.offset ≤ d.keySpan.start.offset := by
  have happart := h.follow.pairwise
  rw [Piece.pieces, Piece.ofExpr, pairwise_map, pairwise_flatMap] at happart
  constructor
  · intro entry hentry
    have hkey : Piece.mark entry.keySpan ∈ (Piece.expr (.dict entries span)).pieces :=
      mem_flatMap_of_mem hentry mem_cons_self
    have hvalue : Piece.expr entry.value ∈ (Piece.expr (.dict entries span)).pieces :=
      mem_flatMap_of_mem hentry (mem_cons_of_mem _ mem_cons_self)
    have hspan := mem_map_of_mem (f := Piece.span) hvalue
    refine ⟨?_, h.pieces _ hvalue, h.follow.starts _ hspan, h.follow.stops _ hspan⟩
    have hbehind := (pairwise_cons.1 (happart.1 entry hentry)).1 _ mem_cons_self
    exact Nat.le_trans (Nat.le_of_lt (h.pieces _ hkey).spells.nonempty) hbehind
  · refine happart.2.imp fun {c d} hbefore => ?_
    exact hbefore _ (mem_cons_of_mem _ mem_cons_self) _ mem_cons_self

/-- Where an expression starts, none of its parts does. -/
theorem edgesAt_of_le (hlaid : Piece.Laid tokens (.expr e)) (hopens : e.Opens)
    (hoffset : offset ≤ e.span.start.offset) : e.edgesAt offset = [] := by
  induction hopens with
  | list hstart hitems ih =>
    rw [edgesAt]
    refine itemEdgesAt_of_none fun c hc hcovers => ?_
    exact Nat.not_le_of_lt (hstart c hc) (Nat.le_trans hcovers.1 hoffset)
  | dict hstart hentries ih =>
    rw [edgesAt]
    refine entriesEdgesAt_of_none fun entry hentry hcovers => ?_
    exact Nat.not_le_of_lt (hstart entry hentry) (Nat.le_trans hcovers.1 hoffset)
  | @block statements result span hresult ih =>
    have hpiece : Piece.expr result ∈ (Piece.expr (.block statements result span)).pieces :=
      mem_append_right _ mem_cons_self
    have hle := hlaid.follow.starts _ (mem_map_of_mem (f := Piece.span) hpiece)
    rw [edgesAt]
    exact ih (hlaid.pieces _ hpiece) (Nat.le_trans hoffset hle)
  | plain hplain => exact edgesAt_of_plain hplain offset

theorem child_cases {edge : Edge} {c : Expr} (h : e.child? edge = some c) :
    (∃ items span i, e = .list items span ∧ edge = .index i ∧ items[i]? = some c) ∨
    ∃ entries span entry, e = .dict entries span ∧ edge = .key entry.key ∧ entry ∈ entries ∧
      entry.value = c := by
  unfold child? at h
  split at h
  · next name entries span =>
    obtain ⟨entry, hfind, rfl⟩ := Option.map_eq_some_iff.1 h
    obtain rfl : entry.key = name := by simpa using find?_some hfind
    exact .inr ⟨entries, span, entry, rfl, rfl, mem_reverse.1 (mem_of_find?_eq_some hfind), rfl⟩
  · exact .inl ⟨_, _, _, rfl, rfl, h⟩
  · cases h

theorem Opens.child {edge : Edge} {c : Expr} (h : e.Opens) (hc : e.child? edge = some c) : c.Opens := by
  rcases child_cases hc with ⟨items, span, i, rfl, rfl, hi⟩ | ⟨entries, span, entry, rfl, rfl, hentry, rfl⟩
  · exact (h.of_list c (mem_of_getElem? hi)).2
  · exact (h.of_dict entry hentry).2

/-- Of parts with the same key the last one counts, and at its offsets only it is found. -/
theorem edgesAt_of_child {edge : Edge} {c : Expr} (hlaid : Piece.Laid tokens (.expr e))
    (hc : e.child? edge = some c) : c.Within tokens e.span.start.offset e.span.stop.offset ∧
      ∀ offset, c.span.Covers offset → e.edgesAt offset = edge :: c.edgesAt offset := by
  rcases child_cases hc with ⟨items, span, i, rfl, rfl, hi⟩ | ⟨entries, span, entry, rfl, rfl, hentry, rfl⟩
  · obtain ⟨hitems, happart⟩ := laid_items hlaid
    refine ⟨hitems c (mem_of_getElem? hi), fun offset hcovers => ?_⟩
    rw [edgesAt, itemEdgesAt_of_covers happart hi hcovers, Nat.zero_add]
  · obtain ⟨hentries, happart⟩ := laid_entries hlaid
    obtain ⟨hkey, hvalue⟩ := hentries entry hentry
    refine ⟨hvalue, fun offset hcovers => ?_⟩
    have hwhole : (entry.keySpan.through entry.value.span).Covers offset :=
      ⟨Nat.le_trans hkey hcovers.1, hcovers.2⟩
    rw [edgesAt, entriesEdgesAt_of_covers happart hentry hwhole]

theorem Within.covers {start stop : Nat} (h : e.Within tokens start stop)
    (hcovers : e.span.Covers offset) : start ≤ offset ∧ offset < stop :=
  ⟨Nat.le_trans h.start hcovers.1, Nat.lt_of_lt_of_le hcovers.2 h.stop⟩

/-- From the start of the part that a path leads to, the way back is the path. -/
theorem edgesAt_of_part (hlaid : Piece.Laid tokens (.expr e)) (hopens : e.Opens)
    (hpart : e.part? edges = some d) :
    e.span.Covers d.span.start.offset ∧ e.edgesAt d.span.start.offset = edges := by
  induction edges generalizing e with
  | nil =>
    obtain rfl : e.unblocked = d := Option.some.inj hpart
    have hinner := within_unblocked hlaid
    refine ⟨hinner.covers ⟨Nat.le_refl _, hinner.laid.spells.nonempty⟩, ?_⟩
    rw [← edgesAt_unblocked, edgesAt_of_le hinner.laid hopens.unblocked (Nat.le_refl _)]
  | cons edge edges ih =>
    obtain ⟨c, hc, hrest⟩ := Option.bind_eq_some_iff.1 hpart
    have hinner := within_unblocked hlaid
    obtain ⟨hchild, hedges⟩ := edgesAt_of_child hinner.laid hc
    obtain ⟨hcovers, hback⟩ := ih hchild.laid (hopens.unblocked.child hc) hrest
    refine ⟨hinner.covers (hchild.covers hcovers), ?_⟩
    rw [← edgesAt_unblocked, hedges _ hcovers, hback]

/-! ### What is found, and what counts -/

/-- On the way to an offset stands an entry with another one of the same key behind it, which counts
instead. -/
inductive Replaced (offset : Nat) : Expr → Prop
  | block {statements : List (Statement Expr)} {result : Expr} {span : Span} :
      Replaced offset result → Replaced offset (.block statements result span)
  | item {items : List Expr} {e : Expr} {span : Span} :
      e ∈ items → e.span.Covers offset → Replaced offset e → Replaced offset (.list items span)
  | entry {entries : List (Entry Expr)} {entry : Entry Expr} {span : Span} :
      entry ∈ entries → (entry.keySpan.through entry.value.span).Covers offset →
      Replaced offset entry.value → Replaced offset (.dict entries span)
  | later {before behind : List (Entry Expr)} {entry : Entry Expr} {span : Span} :
      (entry.keySpan.through entry.value.span).Covers offset →
      (∃ later ∈ behind, later.key = entry.key) →
      Replaced offset (.dict (before ++ entry :: behind) span)

theorem item_of_edges {items : List Expr} {edge : Edge}
    (h : itemEdgesAt offset n items = edge :: edges) : ∃ i c, edge = .index (n + i) ∧
      items[i]? = some c ∧ c.span.Covers offset ∧ c.edgesAt offset = edges := by
  induction items generalizing n with
  | nil => cases h
  | cons c cs ih =>
    rw [itemEdgesAt] at h
    split at h
    · next hcovers =>
      cases h
      exact ⟨0, c, rfl, rfl, hcovers, rfl⟩
    · obtain ⟨i, d, rfl, hd⟩ := ih h
      exact ⟨i + 1, d, by rw [Nat.add_right_comm, Nat.add_assoc], hd⟩

theorem entry_of_edges {entries : List (Entry Expr)} {edge : Edge}
    (h : entriesEdgesAt offset entries = edge :: edges) : ∃ before entry behind,
      entries = before ++ entry :: behind ∧ edge = .key entry.key ∧
      (entry.keySpan.through entry.value.span).Covers offset ∧ entry.value.edgesAt offset = edges := by
  induction entries with
  | nil => cases h
  | cons first rest ih =>
    rw [entriesEdgesAt] at h
    split at h
    · obtain ⟨before, entry, behind, rfl, hentry⟩ := ih h
      exact ⟨first :: before, entry, behind, rfl, hentry⟩
    · rw [entryEdgesAt] at h
      split at h
      · next hcovers =>
        cases h
        exact ⟨[], first, rest, rfl, rfl, hcovers, rfl⟩
      · cases h

/-- What has none with its name behind it is the last one with that name. -/
theorem find_last {α : Type} {name : α → String} {before behind : List α} {a : α}
    (h : ¬ ∃ later ∈ behind, name later = name a) :
    (before ++ a :: behind).reverse.find? (fun b => name b = name a) = some a := by
  have hbehind : behind.reverse.find? (fun b => name b = name a) = none :=
    find?_eq_none.2 fun b hb hname => h ⟨b, mem_reverse.1 hb, of_decide_eq_true hname⟩
  simp [find?_append, hbehind]

theorem Replaced.of_unblocked (h : e.unblocked.Replaced offset) : e.Replaced offset := by
  fun_induction unblocked e with
  | case1 statements result span ih => exact .block (ih h)
  | case2 => exact h

theorem unblocked_cases (e : Expr) : (∃ items span, e.unblocked = .list items span) ∨
    (∃ entries span, e.unblocked = .dict entries span) ∨ e.unblocked.isPlain := by
  fun_induction unblocked e with
  | case1 statements result span ih => exact ih
  | case2 e hblock =>
    cases e with
    | list items span => exact .inl ⟨items, span, rfl⟩
    | dict entries span => exact .inr (.inl ⟨entries, span, rfl⟩)
    | block statements result span => exact absurd rfl (hblock statements result span)
    | _ => exact .inr (.inr rfl)

/-- What is found at an offset is written out, unless something behind it counts. -/
theorem part_or_replaced (offset : Nat) (e : Expr) :
    (e.part? (e.edgesAt offset)).isSome ∨ e.Replaced offset := by
  generalize hedges : e.edgesAt offset = edges
  induction edges generalizing e with
  | nil => exact .inl rfl
  | cons edge edges ih =>
    have hback : e.unblocked.Replaced offset → e.Replaced offset := .of_unblocked
    rw [← edgesAt_unblocked] at hedges
    rw [part?]
    rcases unblocked_cases e with ⟨items, span, he⟩ | ⟨entries, span, he⟩ | hplain
    · rw [he, edgesAt] at hedges
      obtain ⟨i, c, rfl, hc, hcovers, hrest⟩ := item_of_edges hedges
      have hchild : e.unblocked.child? (.index (0 + i)) = some c := by rwa [he, Nat.zero_add]
      rw [hchild]
      refine (ih c hrest).imp_right fun h => hback ?_
      rw [he]
      exact .item (mem_of_getElem? hc) hcovers h
    · rw [he, edgesAt] at hedges
      obtain ⟨before, entry, behind, rfl, rfl, hcovers, hrest⟩ := entry_of_edges hedges
      rw [he] at hback ⊢
      by_cases hlater : ∃ later ∈ behind, later.key = entry.key
      · exact .inr (hback (.later hcovers hlater))
      · rw [child?, find_last hlater]
        refine (ih entry.value hrest).imp_right fun h => hback (.entry ?_ hcovers h)
        exact mem_append_right _ mem_cons_self
    · rw [edgesAt_of_plain hplain] at hedges
      cases hedges

end Expr

namespace Program

/-- Of the statements with a name, the last one counts. -/
def lastOf? (p : Program) (name : String) : Option (Statement Expr) :=
  p.statements.reverse.find? fun s => s.name = name

/-- A path all of whose edges are written out: from the result, from a definition, or to an import. -/
def Writes (p : Program) : ValuePath → Prop
  | ⟨.result, edges⟩ => ∃ e ∈ p.result, (e.part? edges).isSome
  | ⟨.bindings, .key name :: edges⟩ => ∃ s ∈ p.lastOf? name, (s.value.part? edges).isSome
  | ⟨.imports, [.key name]⟩ => ∃ i ∈ p.imports, i.name = name
  | _ => False

instance (p : Program) : (path : ValuePath) → Decidable (p.Writes path)
  | ⟨.result, _⟩ => inferInstanceAs (Decidable (∃ e ∈ p.result, _))
  | ⟨.bindings, .key name :: _⟩ => inferInstanceAs (Decidable (∃ s ∈ p.lastOf? name, _))
  | ⟨.imports, [.key _]⟩ => inferInstanceAs (Decidable (∃ i ∈ p.imports, _))
  | ⟨.bindings, []⟩ => .isFalse nofun
  | ⟨.bindings, .index _ :: _⟩ => .isFalse nofun
  | ⟨.imports, []⟩ => .isFalse nofun
  | ⟨.imports, .index _ :: _⟩ => .isFalse nofun
  | ⟨.imports, .key _ :: _ :: _⟩ => .isFalse nofun
  | ⟨.exports, _⟩ => .isFalse nofun

theorem lastOf_eq_some {p : Program} {name : String} {s : Statement Expr}
    (h : p.lastOf? name = some s) : s ∈ p.statements ∧ s.name = name :=
  ⟨mem_reverse.1 (mem_of_find?_eq_some h), by simpa using find?_some h⟩

/-- What is at an offset is a definition with another one of the same name behind it, or something in
a value has one of the same key behind it. -/
def Replaced (p : Program) (offset : Nat) : Prop :=
  (∃ before s behind, p.statements = before ++ s :: behind ∧ s.span.Covers offset ∧
    ((∃ later ∈ behind, later.name = s.name) ∨ s.value.Replaced offset)) ∨
  ∃ e ∈ p.result, e.Replaced offset

/-- A path that is found is written out, unless something behind what is found counts. -/
theorem writes_or_replaced {p : Program} {offset : Nat} {path : ValuePath}
    (h : p.pathAt? offset = some path) : p.Writes path ∨ p.Replaced offset := by
  unfold pathAt? at h
  split at h
  · next i hi =>
    cases h
    exact .inl ⟨i, mem_of_find?_eq_some hi, rfl⟩
  · split at h
    · next s hs =>
      cases h
      obtain ⟨hcovers, before, behind, hstatements, -⟩ := find?_eq_some_iff_append.1 hs
      by_cases hlater : ∃ later ∈ behind, later.name = s.name
      · exact .inr (.inl ⟨before, s, behind, hstatements, of_decide_eq_true hcovers, .inl hlater⟩)
      · have hlast : p.lastOf? s.name = some s := by rw [lastOf?, hstatements, Expr.find_last hlater]
        refine (Expr.part_or_replaced offset s.value).imp (fun h => ⟨s, hlast, h⟩) fun h => ?_
        exact .inl ⟨before, s, behind, hstatements, of_decide_eq_true hcovers, .inr h⟩
    · split at h
      · next e he =>
        split at h <;> cases h
        exact (Expr.part_or_replaced offset e).imp (fun h => ⟨e, he, h⟩) fun h => .inr ⟨e, he, h⟩
      · cases h

end Program

end Syntax

end Estimation
