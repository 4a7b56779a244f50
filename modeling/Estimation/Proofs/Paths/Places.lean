import Estimation.Proofs.Paths.Readers

/-!
Places of values. A path that a program writes out leads to a place, and what is found at that place is
the path: of names, keys and imports that are there more than once, the one that counts is the only one
at its place.
-/

namespace Estimation

open List

namespace Syntax

theorem find_of_covers {α : Type} {f : α → Span} {as : List α} {a : α} {offset : Nat}
    (happart : as.Pairwise fun a b => (f a).stop.offset ≤ (f b).start.offset) (ha : a ∈ as)
    (hcovers : (f a).Covers offset) : as.find? (fun b => (f b).Covers offset) = some a := by
  induction as with
  | nil => cases ha
  | cons first rest ih =>
    obtain ⟨hfirst, hrest⟩ := pairwise_cons.1 happart
    rcases mem_cons.1 ha with rfl | hmem
    · exact find?_cons_of_pos (by simpa using hcovers)
    · have hnot : ¬ (f first).Covers offset := fun h =>
        Nat.lt_irrefl _ (Nat.lt_of_lt_of_le h.2 (Nat.le_trans (hfirst a hmem) hcovers.1))
      rw [find?_cons_of_neg (by simpa using hnot), ih hrest hmem]

theorem find_of_before {α : Type} {f : α → Span} {as : List α} {offset : Nat}
    (h : ∀ a ∈ as, (f a).stop.offset ≤ offset) : as.find? (fun b => (f b).Covers offset) = none := by
  refine find?_eq_none.2 fun a ha hcovers => ?_
  exact Nat.not_le_of_lt (of_decide_eq_true hcovers).2 (h a ha)

namespace Program

variable {tokens : List Token} {p : Program} {offset : Nat}

/-- Imports, statements and result are apart, in this order. -/
theorem Laid.apart (h : p.Laid tokens) :
    (p.imports.Pairwise fun i j => i.span.stop.offset ≤ j.span.start.offset) ∧
    (p.statements.Pairwise fun s t => s.span.stop.offset ≤ t.span.start.offset) ∧
    (∀ i ∈ p.imports, ∀ s ∈ p.statements, i.span.stop.offset ≤ s.span.start.offset) ∧
    (∀ e ∈ p.result, (∀ i ∈ p.imports, i.span.stop.offset ≤ e.span.start.offset) ∧
      ∀ s ∈ p.statements, s.span.stop.offset ≤ e.span.start.offset) := by
  obtain ⟨stop, hfollow⟩ := h.follow
  have happart := hfollow.pairwise
  simp only [Program.pieces, map_append, map_map, pairwise_append, pairwise_map, mem_append, mem_map,
    Function.comp, Piece.span, Option.mem_toList] at happart
  obtain ⟨⟨himports, hstatements, hbetween⟩, -, hresult⟩ := happart
  refine ⟨himports, hstatements, fun i hi s hs => ?_, fun e he => ⟨fun i hi => ?_, fun s hs => ?_⟩⟩
  · exact hbetween _ ⟨i, hi, rfl⟩ _ ⟨s, hs, rfl⟩
  · exact hresult _ (.inl ⟨i, hi, rfl⟩) _ ⟨e, he, rfl⟩
  · exact hresult _ (.inr ⟨s, hs, rfl⟩) _ ⟨e, he, rfl⟩

theorem pathAt_of_import (h : p.Laid tokens) {i : Import} (hi : i ∈ p.imports)
    (hcovers : i.span.Covers offset) : p.pathAt? offset = some ⟨.imports, [.key i.name]⟩ := by
  rw [pathAt?, find_of_covers h.apart.1 hi hcovers]

theorem pathAt_of_statement (h : p.Laid tokens) {s : Statement Expr} (hs : s ∈ p.statements)
    (hcovers : s.span.Covers offset) :
    p.pathAt? offset = some ⟨.bindings, .key s.name :: s.value.edgesAt offset⟩ := by
  obtain ⟨-, hstatements, hbetween, -⟩ := h.apart
  have himports := fun i hi => Nat.le_trans (hbetween i hi s hs) hcovers.1
  rw [pathAt?, find_of_before himports]
  dsimp only
  rw [find_of_covers hstatements hs hcovers]

theorem pathAt_of_result (h : p.Laid tokens) {e : Expr} (he : p.result = some e)
    (hcovers : e.span.Covers offset) : p.pathAt? offset = some ⟨.result, e.edgesAt offset⟩ := by
  obtain ⟨himports, hstatements⟩ := h.apart.2.2.2 e he
  have himports := fun i hi => Nat.le_trans (himports i hi) hcovers.1
  have hstatements := fun s hs => Nat.le_trans (hstatements s hs) hcovers.1
  rw [pathAt?, find_of_before himports]
  dsimp only
  rw [find_of_before hstatements, he]
  simp [hcovers]

/-- A path leads to a place, and what is found from the start of that place on is the path. -/
def Returns (p : Program) (path : ValuePath) : Prop :=
  ∃ span, p.locate? path = some span ∧ p.pathAt? span.start.offset = some path

variable {e d : Expr} {edges : List ValuePath.Edge}

theorem returns_result (h : p.Laid tokens) (hopens : p.Opens) (he : p.result = some e)
    (hd : e.part? edges = some d) : p.Returns ⟨.result, edges⟩ := by
  have hlaid := h.pieces (.expr e) (by simp [pieces, he])
  obtain ⟨hcovers, hback⟩ := Expr.edgesAt_of_part hlaid (hopens.result e he) hd
  refine ⟨d.span, ?_, ?_⟩
  · simp [locate?, he, Expr.deepest_of_part hd]
  · rw [pathAt_of_result h he hcovers, hback]

theorem locate_definition {name : String} {s : Statement Expr} (hlast : p.lastOf? name = some s) :
    p.locate? ⟨.bindings, .key name :: edges⟩ =
      some (if edges.isEmpty then s.span else (s.value.deepest edges).span) := by
  rw [lastOf?] at hlast
  simp [locate?, locateIn, hlast]

theorem Laid.statement (h : p.Laid tokens) {s : Statement Expr} (hs : s ∈ p.statements) :
    Piece.Laid tokens (.statement s) :=
  h.pieces (.statement s) (by simp [Program.pieces, hs])

theorem Laid.value_within (h : p.Laid tokens) {s : Statement Expr} (hs : s ∈ p.statements) :
    s.value.Within tokens s.span.start.offset s.span.stop.offset := by
  have hlaid := h.statement hs
  exact ⟨hlaid.pieces (.expr s.value) mem_cons_self, hlaid.follow.1, hlaid.follow.2.2⟩

/-- A definition as a whole is at its statement, which may start before its value does. -/
theorem returns_definition {s : Statement Expr} (h : p.Laid tokens) (hopens : p.Opens)
    (hlast : p.lastOf? s.name = some s) (hd : s.value.part? edges = some d) :
    p.Returns ⟨.bindings, .key s.name :: edges⟩ := by
  have hs := (lastOf_eq_some hlast).1
  have hopen := hopens.statements s hs
  have hvalue := h.value_within hs
  refine ⟨_, locate_definition hlast, ?_⟩
  cases edges with
  | nil =>
    have hwhole : s.span.Covers s.span.start.offset :=
      ⟨Nat.le_refl _, (h.statement hs).spells.nonempty⟩
    rw [if_pos List.isEmpty_nil, pathAt_of_statement h hs hwhole,
      Expr.edgesAt_of_le hvalue.laid hopen hvalue.start]
  | cons edge edges =>
    obtain ⟨hcovers, hback⟩ := Expr.edgesAt_of_part hvalue.laid hopen hd
    rw [if_neg (by simp), Expr.deepest_of_part hd,
      pathAt_of_statement h hs (hvalue.covers hcovers), hback]

theorem returns_import (h : p.Laid tokens) {i : Import} (hi : i ∈ p.imports) :
    p.Returns ⟨.imports, [.key i.name]⟩ := by
  obtain ⟨j, hj⟩ : ∃ j, p.imports.find? (fun j => j.name = i.name) = some j :=
    Option.isSome_iff_exists.1 (find?_isSome.2 ⟨i, hi, by simp⟩)
  have hname : j.name = i.name := by simpa using find?_some hj
  have hmem := mem_of_find?_eq_some hj
  have hpiece : Piece.mark j.span ∈ p.pieces :=
    mem_append_left _ (mem_append_left _ (mem_map_of_mem (f := fun i => Piece.mark i.span) hmem))
  have hlaid := h.pieces _ hpiece
  refine ⟨j.span, ?_, ?_⟩
  · simp [locate?, hj]
  · rw [pathAt_of_import h hmem ⟨Nat.le_refl _, hlaid.spells.nonempty⟩, hname]

theorem Writes.returns {path : ValuePath} (hpath : p.Writes path) (h : p.Laid tokens)
    (hopens : p.Opens) : p.Returns path := by
  unfold Writes at hpath
  split at hpath
  · obtain ⟨e, he, hpart⟩ := hpath
    obtain ⟨d, hd⟩ := Option.isSome_iff_exists.1 hpart
    exact returns_result h hopens he hd
  · obtain ⟨s, hlast, hpart⟩ := hpath
    obtain ⟨d, hd⟩ := Option.isSome_iff_exists.1 hpart
    obtain ⟨-, rfl⟩ := lastOf_eq_some hlast
    exact returns_definition h hopens hlast hd
  · obtain ⟨i, hi, rfl⟩ := hpath
    exact returns_import h hi
  · exact hpath.elim

end Program

/-- In a program that a text spells, what is found at the place of a path that it writes out is the path. -/
theorem pathAt_of_locate {source : String} {p : Program} {path : ValuePath}
    (hp : parse source = .ok p) (hpath : p.Writes path) :
    ∃ span, p.locate? path = some span ∧ p.pathAt? span.start.offset = some path := by
  have hlaid := parse_laid source
  rw [hp] at hlaid
  obtain ⟨tokens, stop, htokens, hlexes, hlaid⟩ := hlaid
  have hopens := Program.ofTokens_opens hlexes
  unfold parse at hp
  rw [htokens] at hp
  dsimp only at hp
  split at hp
  · cases hp
  · next program hprogram =>
    cases hp
    rw [hprogram] at hopens
    exact hpath.returns hlaid hopens

namespace Places

/-- A text with names, keys and imports that are there more than once, and with brackets around blocks. -/
def source : String :=
  "import \"m\" as m\nimport \"n\" as m\nx = [true]\nx = {k: x, k: {({y = 1; [x, ({k: (y)})]})}}\n{[x]}"

/-- The path `bindings.x.k[1].k`. -/
def path : ValuePath := ⟨.bindings, [.key "x", .key "k", .index 1, .key "k"]⟩

set_option maxRecDepth 100000 in
theorem writes_path : (parse source).toOption.map (fun p =>
    (decide (p.Writes path), (p.locate? path).map fun span => span.start.offset)) =
      some (true, some 76) := by
  decide +kernel

theorem pathAt_of_path : ∃ p, parse source = .ok p ∧ p.Writes path ∧
    ∃ span, p.locate? path = some span ∧ p.pathAt? span.start.offset = some path := by
  obtain ⟨p, hp, hwrites⟩ := Option.map_eq_some_iff.1 writes_path
  have hp := ok_of_toOption hp
  have hpath := of_decide_eq_true (Prod.mk.inj hwrites).1
  exact ⟨p, hp, hpath, pathAt_of_locate hp hpath⟩

end Places

end Syntax

end Estimation
