import Estimation.Proofs.Layout.Readers

/-!
The spans of a program form a tree: each goes from the start of a token to the end of one, lies within
the span around it, and is apart from its neighbours.
-/

namespace Estimation

open List

namespace Span

/-- A span ends before another one starts. -/
def Before (s t : Span) : Prop := s.stop.offset ≤ t.start.offset

/-- A span lies within another one. -/
def Inside (s t : Span) : Prop := t.start.offset ≤ s.start.offset ∧ s.stop.offset ≤ t.stop.offset

end Span

namespace Syntax

/-- What has a span somewhere in a program. -/
inductive Program.Has (program : Program) : Piece → Prop
  | root {p : Piece} : p ∈ program.pieces → Has program p
  | piece {p q : Piece} : Has program p → q ∈ p.pieces → Has program q

theorem Program.Laid.of_has {tokens : List Token} {program : Program} (h : program.Laid tokens)
    {p : Piece} (hp : program.Has p) : p.Laid tokens := by
  induction hp with
  | root hp => exact h.pieces _ hp
  | piece _ hq ih => exact ih.pieces _ hq

/-- In a program that the tokens of a text spell, each piece goes from the start of a token to the end of
one, the mark of the end apart, the pieces that it is made of lie within it, and pieces side by side are
apart and in order. -/
theorem Program.spans_of_ofTokens {source : String} {tokens : List Token} {program : Program}
    (htokens : tokenize source = .ok tokens) (hprogram : Program.ofTokens tokens = .ok program) :
    (∀ p, program.Has p → Spells tokens.dropLast p.span ∧ (∀ q ∈ p.pieces, q.span.Inside p.span) ∧
      (p.pieces.map Piece.span).Pairwise Span.Before) ∧
    (program.pieces.map Piece.span).Pairwise Span.Before := by
  have hlexes := tokenize_lexes source
  rw [htokens] at hlexes
  obtain ⟨lexemes, stop, rfl, hlexes⟩ := hlexes
  have hlaid := Program.ofTokens_laid hlexes
  rw [hprogram] at hlaid
  rw [dropLast_concat]
  refine ⟨fun p hp => ?_, ?_⟩
  · have hp := Program.Laid.of_has hlaid hp
    refine ⟨hp.spells, fun q hq => ?_, hp.follow.pairwise⟩
    have hq := mem_map_of_mem (f := Piece.span) hq
    exact ⟨hp.follow.starts _ hq, hp.follow.stops _ hq⟩
  · obtain ⟨stop, hfollow⟩ := hlaid.follow
    exact hfollow.pairwise

namespace Tree

/-- A text with an import, brackets around an expression, a block that is its result, a negative number,
a dictionary, a lambda and a pipe. -/
def source : String :=
  "import \"m\" as m\nf(x: [0, 1]) = {((x))}\n{k: -(3)} -> m.g({|z| z ? f(z) : 2 ^ z})"

/-- Where a piece starts and ends. -/
def ends (p : Piece) : Nat × Nat := (p.span.start.offset, p.span.stop.offset)

/-- Where the pieces of a program and the pieces of these start and end. -/
def outline (program : Program) : List ((Nat × Nat) × List (Nat × Nat)) :=
  program.pieces.map fun p => (ends p, p.pieces.map ends)

set_option maxRecDepth 100000 in
theorem outline_source : ((tokenize source).toOption.bind fun tokens =>
    (Program.ofTokens tokens).toOption.map outline) =
      some [((0, 15), []), ((16, 38), [(16, 38)]), ((39, 79), [(39, 48), (52, 55), (56, 78)])] := by
  decide +kernel

theorem spans_of_source : ∃ tokens program, tokenize source = .ok tokens ∧
    Program.ofTokens tokens = .ok program ∧ outline program =
      [((0, 15), []), ((16, 38), [(16, 38)]), ((39, 79), [(39, 48), (52, 55), (56, 78)])] ∧
    (∀ p, program.Has p → Spells tokens.dropLast p.span ∧ (∀ q ∈ p.pieces, q.span.Inside p.span) ∧
      (p.pieces.map Piece.span).Pairwise Span.Before) ∧
    (program.pieces.map Piece.span).Pairwise Span.Before := by
  obtain ⟨tokens, htokens, hprogram⟩ := Option.bind_eq_some_iff.1 outline_source
  obtain ⟨program, hprogram, houtline⟩ := Option.map_eq_some_iff.1 hprogram
  have htokens := ok_of_toOption htokens
  have hprogram := ok_of_toOption hprogram
  exact ⟨tokens, program, htokens, hprogram, houtline, Program.spans_of_ofTokens htokens hprogram⟩

end Tree

end Syntax

end Estimation
