import Estimation.Proofs.Layout.Readers
import Estimation.Proofs.Nesting.Limits
import Estimation.Proofs.Paths

/-!
Brackets stand before what they hold. A reader of lists or dictionaries has taken the bracket before it
reads what is in it; parentheses and braces around an expression only move its start back.
-/

namespace Estimation

open List

namespace Syntax

open Cursor (Lays Takes)

namespace Reader

variable {code : String} {tokens : List Token} {unary : Reader Expr} {c d : Cursor} {t : Token}

/-- What a reader reads from tokens of a text is of a kind. -/
def Yields {α : Type} (code : String) (tokens : List Token) (Q : α → Prop) (r : Reader α) : Prop :=
  ∀ c, c.Laid code tokens → Gives (fun p => Q p.value) (r c)

/-- What is joined by an operator is plain. -/
theorem climb_opens (bound : Nat) {left : Expr} (hleft : left.Opens) (c : Cursor) :
    Gives (fun p => p.value.Opens) (climb unary bound left c) := by
  rw [climb]
  split
  · next op c₁ h₁ hop =>
    split
    · refine (Meets.any _).bind ?_
      rintro ⟨operand, c₂, h₂⟩ -
      refine (Meets.any _).bind ?_
      rintro ⟨right, c₃, h₃⟩ -
      have hlt₃ : c₃.left < c.left := by
        have : c₂.left < c₁.left := h₂
        have : c₁.left < c.left := h₁
        omega
      refine (climb_opens bound (.plain rfl) c₃).bind ?_
      rintro ⟨e, c₄, h₄⟩ he
      exact he
    · exact hleft
  · exact hleft
  termination_by c.left

theorem operation_opens (hunary : Yields code tokens Expr.Opens unary) (bound : Nat) :
    Yields code tokens Expr.Opens (operation unary bound) := by
  intro c hc
  refine (hunary c hc).bind ?_
  rintro ⟨left, c₁, h₁⟩ hleft
  refine (climb_opens bound hleft c₁).bind ?_
  rintro ⟨e, c₂, h₂⟩ he
  exact he

theorem expr_opens (hunary : Yields code tokens Expr.Opens unary) :
    Yields code tokens Expr.Opens (expr unary) := by
  intro c hc
  rw [expr]
  refine (operation_opens hunary 0 c hc).bind ?_
  rintro ⟨condition, c₁, h₁⟩ hcondition
  dsimp only
  split
  · exact hcondition
  · refine (Meets.any _).bind ?_
    rintro ⟨ifTrue, c₃, h₃⟩ -
    refine (Meets.any _).bind ?_
    rintro ⟨c₄, h₄⟩ -
    refine (Meets.any _).bind ?_
    rintro ⟨ifFalse, c₅, h₅⟩ -
    exact .plain rfl

theorem suffix_plain {target : Expr} {step : Except SyntaxError (Parsed Expr c)}
    (hstep : suffix? unary target c = some step) : Gives (fun p => p.value.isPlain) step := by
  unfold suffix? at hstep
  dsimp only at hstep
  split at hstep
  · cases hstep
  · split at hstep <;> cases hstep
    · refine (Meets.any _).bind ?_
      rintro ⟨args, c₂, h₂⟩ -
      rfl
    · refine (Meets.any _).bind ?_
      rintro ⟨index, c₂, h₂⟩ -
      refine (Meets.any _).bind ?_
      rintro ⟨c₃, h₃⟩ -
      rfl
    · refine (Meets.any _).bind ?_
      rintro ⟨key, c₂, h₂⟩ -
      rfl
    · refine (Meets.any _).bind ?_
      rintro ⟨callee, c₂, h₂⟩ -
      refine (Meets.any _).bind ?_
      rintro ⟨args, c₃, h₃⟩ -
      rfl

theorem suffixes_opens {target : Expr} (htarget : target.Opens) (c : Cursor) :
    Gives (fun p => p.value.Opens) (suffixes unary target c) := by
  rw [suffixes]
  split
  · exact htarget
  · next step hstep =>
    refine (suffix_plain hstep).bind ?_
    rintro ⟨e, c₁, h₁⟩ he
    refine (suffixes_opens (.plain he) c₁).bind ?_
    rintro ⟨e', c₂, h₂⟩ he'
    exact he'
  termination_by c.left

theorem definition_opens (hunary : Yields code tokens Expr.Opens unary) (name : String) (nameSpan : Span) :
    Yields code tokens Expr.Opens (definition unary name nameSpan) := by
  intro c hc
  unfold definition
  split
  · refine (Meets.any _).bind ?_
    rintro ⟨ps, c₂, h₂⟩ -
    refine (Meets.any _).bind ?_
    rintro ⟨c₃, h₃⟩ -
    refine (Meets.any _).bind ?_
    rintro ⟨body, c₄, h₄⟩ -
    exact .plain rfl
  · refine ((Cursor.expect_takes hc _).and (Meets.any _)).bind ?_
    rintro ⟨c₁, h₁⟩ ⟨⟨t, ht⟩, -⟩
    refine (expr_opens hunary c₁ (ht.laid hc)).bind ?_
    rintro ⟨value, c₂, h₂⟩ hvalue
    exact hvalue.named name

theorem statement_opens (hunary : Yields code tokens Expr.Opens unary) :
    Yields code tokens (fun s => s.value.Opens) (statement unary) := by
  intro c hc
  unfold statement
  dsimp only
  have hname : ∀ c₁ : Cursor, c₁.Laid code tokens →
      Gives (fun p : Parsed (String × Span) c₁ => p.rest.Laid code tokens) c₁.name := fun c₁ hc₁ =>
    ((Cursor.name_takes hc₁).and (Meets.any _)).mono fun p ⟨⟨_, ht, _⟩, _⟩ => ht.laid hc₁
  split
  · next d hd hword =>
    obtain ⟨t, ht⟩ := Cursor.accept_takes hword
    refine (hname d (ht.laid hc)).bind ?_
    rintro ⟨⟨name, nameSpan⟩, c₂, h₂⟩ hc₂
    refine (definition_opens hunary name nameSpan c₂ hc₂).bind ?_
    rintro ⟨value, c₃, h₃⟩ hvalue
    exact hvalue
  · refine (hname c hc).bind ?_
    rintro ⟨⟨name, nameSpan⟩, c₂, h₂⟩ hc₂
    refine (definition_opens hunary name nameSpan c₂ hc₂).bind ?_
    rintro ⟨value, c₃, h₃⟩ hvalue
    exact hvalue

theorem lambdaBody_plain (start : Coordinate) (ps : List (Parameter Expr)) (c : Cursor) :
    Gives (fun p => p.value.isPlain) (lambdaBody unary start ps c) := by
  refine (Meets.any _).bind ?_
  rintro ⟨e, c₁, h₁⟩ -
  refine (Meets.any _).bind ?_
  rintro ⟨c₂, h₂⟩ -
  rfl

theorem ifThenElse_plain (start : Coordinate) (c : Cursor) :
    Gives (fun p => p.value.isPlain) (ifThenElse unary start c) := by
  refine (Meets.any _).bind ?_
  rintro ⟨condition, c₁, h₁⟩ -
  refine (Meets.any _).bind ?_
  rintro ⟨c₂, h₂⟩ -
  refine (Meets.any _).bind ?_
  rintro ⟨ifTrue, c₃, h₃⟩ -
  refine (Meets.any _).bind ?_
  rintro ⟨c₄, h₄⟩ -
  refine (Meets.any _).bind ?_
  rintro ⟨ifFalse, c₅, h₅⟩ -
  rfl

section

variable (hreads : ReadsExpr code tokens unary) (hunary : Yields code tokens Expr.Opens unary)
include hreads hunary

theorem items_open (closing : Symbol) (missing : Fault) :
    Yields code tokens (fun es => ∀ e ∈ es, e.Opens) (items unary closing missing) := by
  intro c hc
  rw [items]
  split
  · nofun
  · refine ((expr_reads hreads c hc).and (expr_opens hunary c hc)).bind ?_
    rintro ⟨item, c₁, h₁⟩ ⟨hread, hitem⟩
    dsimp only
    split
    · next c₂ h₂ hsign =>
      have hlt₂ : c₂.left < c.left := Nat.lt_trans h₂ h₁
      obtain ⟨t, ht⟩ := Cursor.accept_takes hsign
      refine (items_open closing missing c₂ (ht.laid hread.laid)).bind ?_
      rintro ⟨rest, c₃, h₃⟩ hrest
      exact forall_mem_cons.2 ⟨hitem, hrest⟩
    · refine (Meets.any _).bind ?_
      rintro ⟨c₂, h₂⟩ -
      exact forall_mem_singleton.2 hitem
  termination_by c => c.left

theorem body_opens (place : Place) {c : Cursor} (hc : c.Laid code tokens) :
    Gives (fun p => (∀ s ∈ p.value.1, s.value.Opens) ∧ ∀ e ∈ p.value.2, e.Opens)
      (body unary place c) := by
  rw [body]
  have hc₁ := Cursor.skipSemicolons_lays hc
  split
  next c₁ h₁ hskip =>
  rw [hskip] at hc₁
  split
  · exact ⟨nofun, nofun⟩
  · split
    · trivial
    · split
      · split
        · trivial
        · refine ((statement_reads hreads c₁ hc₁.laid).and (statement_opens hunary c₁ hc₁.laid)).bind ?_
          rintro ⟨first, c₂, h₂⟩ ⟨hread, hfirst⟩
          refine ((Cursor.separator_lays hread.laid _).and (Meets.any _)).bind ?_
          rintro ⟨c₃, h₃⟩ ⟨hc₃, -⟩
          have hlt₃ : c₃.left < c.left := Nat.lt_of_le_of_lt h₃ (Nat.lt_of_lt_of_le h₂ h₁)
          refine (body_opens place hc₃.laid).bind ?_
          rintro ⟨⟨statements, result⟩, c₄, h₄⟩ ⟨hstatements, hresult⟩
          exact ⟨forall_mem_cons.2 ⟨hfirst, hstatements⟩, hresult⟩
      · refine (expr_opens hunary c₁ hc₁.laid).bind ?_
        rintro ⟨result, c₂, h₂⟩ hresult
        dsimp only
        split
        split
        · refine ⟨nofun, ?_⟩
          rintro e ⟨⟩
          exact hresult
        · trivial
  termination_by c.left

theorem blockBody_opens (start : Coordinate) {c : Cursor} (hc : c.Laid code tokens) :
    Gives (fun p => p.value.Opens) (blockBody unary start c) := by
  unfold blockBody
  refine (body_opens hreads hunary .block hc).bind ?_
  rintro ⟨⟨statements, result⟩, c₁, h₁⟩ ⟨-, hresult⟩
  cases result with
  | none => trivial
  | some result =>
    cases statements with
    | nil => exact hresult result rfl
    | cons s ss => exact .block (hresult result rfl)

theorem array_opens (hc : c.Laid code tokens) (ht : Takes c t d) :
    Gives (fun p => p.value.Opens) (array unary t.span.start d) := by
  have hd := ht.laid hc
  refine ((items_reads hreads _ (by trivial) d hd).and (items_open hreads hunary _ _ d hd)).bind ?_
  rintro ⟨es, c₁, h₁⟩ ⟨hread, hes⟩
  refine .list (fun e he => ?_) hes
  have hspan := mem_map_of_mem (f := Piece.span) (mem_map_of_mem (f := Piece.expr) he)
  exact Nat.lt_of_lt_of_le (ht.bounds hc).2.2 (hread.follow.starts _ hspan)

theorem entries_open :
    Yields code tokens (fun es => ∀ entry ∈ es, entry.value.Opens) (entries unary) := by
  intro c hc
  rw [entries]
  split
  · nofun
  · refine ((entryKey_reads c hc).and (Meets.any _)).bind ?_
    rintro ⟨⟨key, keySpan⟩, c₁, h₁⟩ ⟨hkey, -⟩
    refine ((Cursor.expect_takes hkey.laid _).and (Meets.any _)).bind ?_
    rintro ⟨c₂, h₂⟩ ⟨⟨t₂, ht₂⟩, -⟩
    have hc₂ := ht₂.laid hkey.laid
    refine ((expr_reads hreads c₂ hc₂).and (expr_opens hunary c₂ hc₂)).bind ?_
    rintro ⟨value, c₃, h₃⟩ ⟨hread, hvalue⟩
    dsimp only
    split
    · next c₄ h₄ hsign =>
      have hlt₄ : c₄.left < c.left := Nat.lt_trans h₄ (Nat.lt_trans h₃ (Nat.lt_trans h₂ h₁))
      obtain ⟨t₄, ht₄⟩ := Cursor.accept_takes hsign
      refine (entries_open c₄ (ht₄.laid hread.laid)).bind ?_
      rintro ⟨rest, c₅, h₅⟩ hrest
      exact forall_mem_cons.2 ⟨hvalue, hrest⟩
    · refine (Meets.any _).bind ?_
      rintro ⟨c₄, h₄⟩ -
      exact forall_mem_singleton.2 hvalue
  termination_by c => c.left

theorem braces_open (hc : c.Laid code tokens) (ht : Takes c t d) :
    Gives (fun p => p.value.Opens) (braces unary t.span.start d) := by
  have hd := ht.laid hc
  have hbehind := (ht.bounds hc).2.2
  unfold braces
  split
  · refine (Meets.any _).bind ?_
    rintro ⟨ps, c₂, h₂⟩ -
    refine (lambdaBody_plain _ ps c₂).bind ?_
    rintro ⟨e, c₃, h₃⟩ he
    exact .plain he
  · next c₁ h₁ _ _ =>
    refine (lambdaBody_plain _ [] c₁).bind ?_
    rintro ⟨e, c₂, h₂⟩ he
    exact .plain he
  · exact .dict nofun nofun
  · split
    · refine ((entries_reads hreads d hd).and (entries_open hreads hunary d hd)).bind ?_
      rintro ⟨es, c₁, h₁⟩ ⟨hread, hes⟩
      refine .dict (fun entry hentry => ?_) hes
      have hkey : Piece.mark entry.keySpan ∈ es.flatMap Piece.ofEntry :=
        mem_flatMap_of_mem hentry mem_cons_self
      have hspan := mem_map_of_mem (f := Piece.span) hkey
      exact Nat.lt_of_lt_of_le hbehind (hread.follow.starts _ hspan)
    · refine ((blockBody_lays hreads t.span.start hd).and
        (blockBody_opens hreads hunary t.span.start hd)).bind ?_
      rintro ⟨e, c₁, h₁⟩ ⟨⟨parts, -, hbody, haround⟩, he⟩
      refine (Meets.any _).bind ?_
      rintro ⟨c₂, h₂⟩ -
      refine he.withSpan ?_
      rcases haround with rfl | ⟨hspan, -⟩
      · exact Nat.le_trans (Nat.le_of_lt hbehind) hbody.follow.1
      · exact Nat.le_of_eq (congrArg (fun span => span.start.offset) hspan.symm)

theorem primary_opens : Yields code tokens Expr.Opens (primary unary) := by
  intro c hc
  unfold primary
  split
  · trivial
  · next token rest htokens =>
    have ht := Cursor.current_of_takes htokens
    have hc₁ := ht.laid hc
    dsimp only
    split
    · split
      · exact .plain rfl
      · trivial
    · exact .plain rfl
    · exact .plain rfl
    · exact .plain rfl
    · exact .plain rfl
    · refine ((expr_reads hreads _ hc₁).and (expr_opens hunary _ hc₁)).bind ?_
      rintro ⟨inner, c₂, h₂⟩ ⟨hread, hinner⟩
      refine (Meets.any _).bind ?_
      rintro ⟨c₃, h₃⟩ -
      exact hinner.withSpan (Nat.le_trans (Nat.le_of_lt (ht.bounds hc).2.2) hread.follow.1)
    · refine (array_opens hreads hunary hc ht).bind ?_
      rintro ⟨e, c₂, h₂⟩ he
      exact he
    · refine (braces_open hreads hunary hc ht).bind ?_
      rintro ⟨e, c₂, h₂⟩ he
      exact he
    · refine (ifThenElse_plain _ _).bind ?_
      rintro ⟨e, c₂, h₂⟩ he
      exact .plain he
    · trivial

theorem operand_opens : Yields code tokens Expr.Opens (operand unary) := by
  intro c hc
  unfold operand
  dsimp only
  split
  · refine (Meets.any _).bind ?_
    rintro ⟨e, c₂, h₂⟩ -
    refine .plain ?_
    unfold UnaryOp.apply
    split <;> rfl
  · refine (primary_opens hreads hunary c hc).bind ?_
    rintro ⟨e, c₁, h₁⟩ he
    refine (suffixes_opens he c₁).bind ?_
    rintro ⟨e', c₂, h₂⟩ he'
    exact he'

end

theorem unaryWithin_opens (depth : Nat) : Yields code tokens Expr.Opens (unaryWithin depth) := by
  induction depth with
  | zero =>
    intro c hc
    trivial
  | succ depth ih => exact operand_opens (unaryWithin_reads depth) ih

end Reader

/-- Wherever a path may go in a program, brackets stand before what they hold. -/
structure Program.Opens (p : Program) : Prop where
  statements : ∀ s ∈ p.statements, s.value.Opens
  result : ∀ e ∈ p.result, e.Opens

theorem Program.ofTokens_opens {code : String} {tokens : List Token} {stop : Token}
    (h : Token.Lexes code .origin tokens stop) :
    Gives Program.Opens (Program.ofTokens (tokens ++ [stop])) := by
  have hc := Cursor.ofTokens_laid h
  refine ((Reader.imports_lays hc).and (Meets.any _)).bind ?_
  rintro ⟨imports, c₁, h₁⟩ ⟨himports, -⟩
  refine (Reader.body_opens (Reader.unaryWithin_reads maxNesting) (Reader.unaryWithin_opens maxNesting)
    .program himports.laid).bind ?_
  rintro ⟨⟨statements, result⟩, c₂, h₂⟩ ⟨hstatements, hresult⟩
  exact ⟨hstatements, hresult⟩

end Syntax

end Estimation
