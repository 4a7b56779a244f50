import Estimation.Proofs.Nesting.Limits

/-!
Every reader of the grammar writes phrases with the levels that decide what a limit makes of it. A reader
of phrases has the levels of its phrase; a reader of operands, and of the pieces that only operands have,
is read one level further down, so that a phrase has one level more than it.
-/

namespace Estimation.Syntax

open Token (Kind)

namespace Reader

/-- Written with levels of the positions that are tracked. -/
abbrev Tracked (q : Phrase) (ks rest : List Kind) (n : Nat) : Prop :=
  Written Position.isTracked q ks rest n

/-- What readers read under a limit `n` is phrases, with the levels that decide. -/
def Nests {α : Type} (n : Nat) (phrase : α → Phrase) (r : Nat → Reader α) : Prop :=
  ∀ c, Decides n (fun m => r m c) fun p i => Tracked (phrase p.value) c.kinds p.rest.kinds i

variable {n : Nat} {unary : Nat → Reader Expr}

/-- A right operand is read where the left one was, so that it adds no level. -/
theorem climb_decides (hunary : Nests n .expr unary) (bound : Nat) {ks : List Kind} {c : Cursor}
    {left : Expr} {i : Nat} (hleft : Tracked (.expr left) ks c.kinds i) :
    Decides n (fun m => climb (unary m) bound left c)
      fun p j => Tracked (.expr p.value) ks p.rest.kinds (max i j) := by
  have hdone : Tracked (.expr left) ks c.kinds (max i 0) := hleft.of_levels (by omega)
  refine .unfolding (fun m => climb.eq_def (unary m) bound left c) ?_
  rcases hop : c.binaryOp? with _ | ⟨op, c₁, h₁⟩
  · exact .ok hdone
  · by_cases hbound : bound < op.precedence
    · simp only [hbound, ↓reduceIte]
      obtain ⟨sign, hsign, hkinds⟩ := Cursor.kinds_of_binaryOp hop
      refine (hunary c₁).bind ?_
      rintro ⟨operand, c₂, h₂⟩ i₂ hoperand
      have hlt₂ : c₂.left < c.left := Nat.lt_trans h₂ h₁
      refine (climb_decides hunary op.rightBound hoperand).bind ?_
      rintro ⟨right, c₃, h₃⟩ i₃ hright
      have hlt₃ : c₃.left < c.left := Nat.lt_of_le_of_lt h₃ hlt₂
      have hwhole : Tracked (.expr (.binary op left right (left.span.through right.span))) ks c₃.kinds
          (max i (max i₂ i₃)) := .binary hsign (hkinds ▸ hleft) hright
      refine (climb_decides hunary bound hwhole).bind ?_
      rintro ⟨e, c₄, h₄⟩ i₄ he
      exact .ok (he.of_levels (by omega))
    · simp only [hbound, ↓reduceIte]
      exact .ok hdone
  termination_by c.left

theorem operation_nests (hunary : Nests n .expr unary) (bound : Nat) :
    Nests n .expr fun m => operation (unary m) bound := by
  intro c
  refine (hunary c).bind ?_
  rintro ⟨left, c₁, h₁⟩ i hleft
  refine (climb_decides hunary bound hleft).bind ?_
  rintro ⟨e, c₂, h₂⟩ j he
  exact .ok (he.of_levels (by omega))

theorem expr_nests (hunary : Nests n .expr unary) : Nests n .expr fun m => expr (unary m) := by
  intro c
  refine .unfolding (fun m => expr.eq_def (unary m) c) ?_
  refine (operation_nests hunary 0 c).bind ?_
  rintro ⟨condition, c₁, h₁⟩ h hcondition
  dsimp only
  rcases hsign : c₁.sign .question with _ | ⟨c₂, h₂⟩
  · exact .ok (hcondition.of_levels (by omega))
  · have hlt₂ : c₂.left < c.left := Nat.lt_trans h₂ h₁
    refine (expr_nests hunary c₂).bind ?_
    rintro ⟨ifTrue, c₃, h₃⟩ i hifTrue
    refine .bind_fixed (Cursor.expect_kinds c₃ (.symbol .colon)) ?_
    rintro ⟨c₄, h₄⟩ hcolon
    have hlt₄ : c₄.left < c.left := Nat.lt_trans h₄ (Nat.lt_trans h₃ hlt₂)
    refine (expr_nests hunary c₄).bind ?_
    rintro ⟨ifFalse, c₅, h₅⟩ j hifFalse
    have hlevels : max h (max i j) = max h (max i (max j 0)) := by omega
    exact .ok (.of_levels (.choice (Cursor.kinds_of_sign hsign ▸ hcondition)
      (hcolon ▸ hifTrue) hifFalse) hlevels)
  termination_by c => c.left

theorem items_nests (hunary : Nests n .expr unary) (closing : Symbol) (missing : Fault) :
    Nests n (fun es => .several (es.map .expr) closing)
      fun m => items (unary m) closing missing := by
  intro c
  refine .unfolding (fun m => items.eq_def (unary m) closing missing c) ?_
  rcases hclosing : c.sign closing with _ | ⟨c₁, h₁⟩
  · refine (expr_nests hunary c).bind ?_
    rintro ⟨item, c₁, h₁⟩ i hitem
    dsimp only
    rcases hcomma : c₁.sign .comma with _ | ⟨c₂, h₂⟩
    · dsimp only
      refine .bind_fixed (Cursor.close_kinds c₁ closing missing) ?_
      rintro ⟨c₂, h₂⟩ hclose
      have hitems : Tracked (.several [.expr item] closing) c.kinds c₂.kinds i := .last (hclose ▸ hitem)
      exact .ok (hitems.of_levels (by omega))
    · have hlt₂ : c₂.left < c.left := Nat.lt_trans h₂ h₁
      refine (items_nests hunary closing missing c₂).bind ?_
      rintro ⟨rest, c₃, h₃⟩ j hrest
      exact .ok (.of_levels (.cons (Cursor.kinds_of_sign hcomma ▸ hitem) hrest) (by omega))
  · refine .ok ?_
    rw [Cursor.kinds_of_sign hclosing]
    exact .none
  termination_by c => c.left

theorem keys_written (start : Coordinate) {ks : List Kind} {c : Cursor} {target : Expr} {i : Nat}
    (htarget : Tracked (.expr target) ks c.kinds i) :
    Gives (fun p => Tracked (.expr p.value) ks p.rest.kinds i) (keys start target c) := by
  rw [keys]
  split
  · exact htarget
  · next c₁ h₁ hdot =>
    refine (Cursor.key_kinds c₁).bind ?_
    rintro ⟨key, c₂, h₂⟩ hkey
    have hlt₂ : c₂.left < c.left := Nat.lt_trans h₂ h₁
    rw [Cursor.kinds_of_sign hdot, hkey] at htarget
    refine (keys_written start (.member htarget)).bind ?_
    rintro ⟨e, c₃, h₃⟩ he
    exact he
  termination_by c.left

theorem pipeCallee_written (c : Cursor) :
    Gives (fun p => Tracked (.expr p.value) c.kinds p.rest.kinds 1) (pipeCallee c) := by
  refine (Cursor.name_kinds c).bind ?_
  rintro ⟨⟨name, span⟩, c₁, h₁⟩ hname
  have hidentifier : Tracked (.expr (.identifier name span)) c.kinds c₁.kinds 1 := by
    rw [hname]
    exact .identifier
  refine (keys_written span.start hidentifier).bind ?_
  rintro ⟨e, c₂, h₂⟩ he
  exact he

/-- Arguments behind the function of a pipe are none, or stand in parentheses. -/
theorem pipeArguments_decides (hunary : Nests n .expr unary) (c : Cursor) :
    Decides n (fun m => pipeArguments (unary m) c) fun p j => p.value = [] ∧ p.rest = c ∧ j = 0 ∨
      ∃ ks, c.kinds = .symbol .openParen :: ks ∧
        Tracked (.several (p.value.map .expr) .closeParen) ks p.rest.kinds j := by
  unfold pipeArguments
  cases c.current.newlineBefore with
  | true => exact .ok (.inl ⟨rfl, rfl, rfl⟩)
  | false =>
    rcases hparen : c.sign .openParen with _ | ⟨c₁, h₁⟩
    · exact .ok (.inl ⟨rfl, rfl, rfl⟩)
    · refine (items_nests hunary .closeParen .missingCloseParen c₁).bind ?_
      rintro ⟨args, c₂, h₂⟩ i hargs
      exact .ok (.inr ⟨c₁.kinds, Cursor.kinds_of_sign hparen, hargs.of_levels (by omega)⟩)

/-- Whether a suffix comes next does not depend on the limit. -/
theorem suffix_decides (hunary : Nests n .expr unary) {ks : List Kind} {c : Cursor} {target : Expr}
    {h : Nat} (htarget : Tracked (.expr target) ks c.kinds (h + 1)) :
    (∀ m, suffix? (unary m) target c = none) ∨
      ∃ step, (∀ m, suffix? (unary m) target c = some (step m)) ∧
        Decides n step fun p j => Tracked (.expr p.value) ks p.rest.kinds (max h j + 1) := by
  obtain ⟨tokens, stop, before⟩ := c
  cases tokens with
  | nil => exact .inl fun _ => rfl
  | cons token rest =>
    obtain ⟨kind, span, newline⟩ := token
    cases kind with
    | symbol sign =>
      cases sign with
      | openParen =>
        cases newline with
        | true => exact .inl fun _ => rfl
        | false =>
          refine .inr ⟨_, fun _ => rfl, (items_nests hunary .closeParen .missingCloseParen _).bind ?_⟩
          rintro ⟨args, c₂, h₂⟩ i hargs
          have hlevels : max (h + 1) (i + 1) = max h (max i 0) + 1 := by omega
          exact .ok (.of_levels (.call htarget hargs) hlevels)
      | openBracket =>
        cases newline with
        | true => exact .inl fun _ => rfl
        | false =>
          refine .inr ⟨_, fun _ => rfl, (expr_nests hunary _).bind ?_⟩
          rintro ⟨index, c₂, h₂⟩ i hindex
          refine .bind_fixed (Cursor.close_kinds c₂ .closeBracket .missingCloseBracket) ?_
          rintro ⟨c₃, h₃⟩ hclose
          have hlevels : max (h + 1) (i + 1) = max h (max i 0) + 1 := by omega
          exact .ok (.of_levels (.lookup htarget (hclose ▸ hindex)) hlevels)
      | dot =>
        refine .inr ⟨_, fun _ => rfl, .bind_fixed (Cursor.key_kinds _) ?_⟩
        rintro ⟨key, c₂, h₂⟩ hkey
        have hmember : Tracked (.expr target) ks (.symbol .dot :: .name key :: c₂.kinds) (h + 1) :=
          hkey ▸ htarget
        have hlevels : h + 1 = max h 0 + 1 := by omega
        exact .ok (.of_levels (.member hmember) hlevels)
      | arrow =>
        refine .inr ⟨_, fun _ => rfl, .bind_fixed (pipeCallee_written _) ?_⟩
        rintro ⟨callee, c₂, h₂⟩ hcallee
        refine (pipeArguments_decides hunary c₂).bind ?_
        rintro ⟨args, c₃, h₃⟩ i hargs
        -- The function of a pipe is no operand: it has one level, and no limit is met in it.
        rcases hargs with ⟨hargs, hrest, rfl⟩ | ⟨ks', hks, hargs⟩
        · obtain rfl : args = [] := hargs
          obtain rfl : c₃ = c₂ := hrest
          have hlevels : max (h + 1) 1 = max h (max 0 0) + 1 := by omega
          exact .ok (.of_levels (.pipe htarget hcallee) hlevels)
        · have hlevels : max (h + 1) (max 1 (i + 1)) = max h (max i 0) + 1 := by omega
          exact .ok (.of_levels (.pipeCall htarget (hks ▸ hcallee) hargs) hlevels)
      | _ => exact .inl fun _ => rfl
    | _ => exact .inl fun _ => rfl

theorem suffixes_decides (hunary : Nests n .expr unary) {ks : List Kind} {c : Cursor} {target : Expr}
    {i : Nat} (htarget : Tracked (.expr target) ks c.kinds (i + 1)) :
    Decides n (fun m => suffixes (unary m) target c)
      fun p j => Tracked (.expr p.value) ks p.rest.kinds (max i j + 1) := by
  refine .unfolding (fun m => suffixes.eq_def (unary m) target c) ?_
  rcases suffix_decides hunary htarget with hnone | ⟨step, hstep, hdecides⟩
  · simp only [hnone]
    exact .ok (htarget.of_levels (by omega))
  · simp only [hstep]
    refine hdecides.bind ?_
    rintro ⟨e, c₁, h₁⟩ i₁ he
    refine (suffixes_decides hunary he).bind ?_
    rintro ⟨e', c₂, h₂⟩ j he'
    exact .ok (he'.of_levels (by omega))
  termination_by c.left

/-- What stands behind a parameter, where the parameters behind it are read. -/
theorem parametersBehind_decides {closing : ParameterClosing} {c c₂ : Cursor} {p : Parameter Expr} {i : Nat}
    (hrest : ∀ d : Cursor, d.left < c.left → Decides n (fun m => parameters (unary m) closing d)
      fun ps j => Tracked (.several (ps.value.map .parameter) closing.symbol) d.kinds ps.rest.kinds j)
    (h₂ : c₂.left < c.left) (hp : Tracked (.parameter p) c.kinds c₂.kinds i) :
    Decides (α := Parsed (List (Parameter Expr)) c) n
      (fun m => match c₂.sign .comma with
        | some ⟨c₃, h₃⟩ => do
          let ⟨rest, c₄, h₄⟩ ← parameters (unary m) closing c₃
          return ⟨p :: rest, c₄, Nat.lt_trans h₄ (Nat.lt_trans h₃ h₂)⟩
        | none => do
          let some ⟨c₃, h₃⟩ := c₂.sign closing.symbol | .error (closing.fault c₂)
          return ⟨[p], c₃, Nat.lt_trans h₃ h₂⟩)
      fun ps j => Tracked (.several (ps.value.map .parameter) closing.symbol) c.kinds ps.rest.kinds
        (max i j) := by
  rcases hcomma : c₂.sign .comma with _ | ⟨c₃, h₃⟩
  · dsimp only
    rcases hclosing : c₂.sign closing.symbol with _ | ⟨c₃, h₃⟩
    · exact .error
    · have hlast : Tracked (.several [.parameter p] closing.symbol) c.kinds c₃.kinds i :=
        .last (Cursor.kinds_of_sign hclosing ▸ hp)
      exact .ok (hlast.of_levels (by omega))
  · refine (hrest c₃ (Nat.lt_trans h₃ h₂)).bind ?_
    rintro ⟨rest, c₄, h₄⟩ j hrest
    exact .ok (.of_levels (.cons (Cursor.kinds_of_sign hcomma ▸ hp) hrest) (by omega))

theorem parameters_nests (hunary : Nests n .expr unary) (closing : ParameterClosing) :
    Nests n (fun ps => .several (ps.map .parameter) closing.symbol)
      fun m => parameters (unary m) closing := by
  intro c
  refine .unfolding (fun m => parameters.eq_def (unary m) closing c) ?_
  refine .bind_fixed (Cursor.name_kinds c) ?_
  rintro ⟨⟨name, span⟩, c₁, h₁⟩ hname
  have hrest (d : Cursor) (_ : d.left < c.left) := parameters_nests hunary closing d
  dsimp only
  rcases hcolon : c₁.sign .colon with _ | ⟨d, hd⟩
  · have hp : Tracked (.parameter ⟨name, span, none⟩) c.kinds c₁.kinds 0 := by
      rw [hname]
      exact .parameter
    exact (parametersBehind_decides hrest h₁ hp).mono fun _ _ h => h.of_levels (by omega)
  · refine (operation_nests hunary 0 d).bind ?_
    rintro ⟨range, d', hd'⟩ i hrange
    have hp : Tracked (.parameter ⟨name, span, some range⟩) c.kinds d'.kinds i := by
      rw [hname, Cursor.kinds_of_sign hcolon]
      exact .range hrange
    have h₂ : d'.left < c.left := by omega
    exact parametersBehind_decides hrest h₂ hp
  termination_by c => c.left

/-- Parameters up to the symbol that closes them, which may come at once. -/
theorem parameterList_nests (hunary : Nests n .expr unary) (closing : ParameterClosing) (c : Cursor) :
    Decides n (fun m => parameterList (unary m) closing c) fun p i =>
      Tracked (.several (p.value.map .parameter) closing.symbol) c.kinds p.rest.kinds i := by
  unfold parameterList
  rcases hclosing : c.sign closing.symbol with _ | ⟨c₁, h₁⟩
  · exact parameters_nests hunary closing c
  · refine .ok ?_
    rw [Cursor.kinds_of_sign hclosing]
    exact .none

theorem definition_nests (hunary : Nests n .expr unary) (name : String) (nameSpan : Span) :
    Nests n (.definition name) fun m => definition (unary m) name nameSpan := by
  intro c
  unfold definition
  dsimp only
  rcases hparen : c.sign .openParen with _ | ⟨c₁, h₁⟩
  · refine .bind_fixed (Cursor.expect_kinds c (.symbol .assign)) ?_
    rintro ⟨c₁, h₁⟩ hassign
    refine (expr_nests hunary c₁).bind ?_
    rintro ⟨value, c₂, h₂⟩ i hvalue
    have hdefinition : Tracked (.definition name (value.named name)) c.kinds c₂.kinds i := by
      rw [hassign]
      exact .value hvalue
    exact .ok (hdefinition.of_levels (by omega))
  · refine (parameterList_nests hunary .paren c₁).bind ?_
    rintro ⟨ps, c₂, h₂⟩ i hps
    refine .bind_fixed (Cursor.expect_kinds c₂ (.symbol .assign)) ?_
    rintro ⟨c₃, h₃⟩ hassign
    refine (expr_nests hunary c₃).bind ?_
    rintro ⟨body, c₄, h₄⟩ j hbody
    have hdefinition : Tracked (.definition name (.lambda (some name) ps body (c₄.spanFrom nameSpan.start)))
        c.kinds c₄.kinds (max i j) := by
      rw [Cursor.kinds_of_sign hparen]
      exact .function (hassign ▸ hps) hbody
    exact .ok (hdefinition.of_levels (by omega))

theorem statement_nests (hunary : Nests n .expr unary) :
    Nests n .statement fun m => statement (unary m) := by
  intro c
  unfold statement
  dsimp only
  rcases hword : c.word .exportWord with _ | ⟨c₁, h₁⟩
  · refine .bind_fixed (Cursor.name_kinds c) ?_
    rintro ⟨⟨name, nameSpan⟩, c₂, h₂⟩ hname
    refine (definition_nests hunary name nameSpan c₂).bind ?_
    rintro ⟨value, c₃, h₃⟩ i hvalue
    refine .ok ?_
    rw [hname]
    exact .statement (hvalue.of_levels (by omega))
  · refine .bind_fixed (Cursor.name_kinds c₁) ?_
    rintro ⟨⟨name, nameSpan⟩, c₂, h₂⟩ hname
    refine (definition_nests hunary name nameSpan c₂).bind ?_
    rintro ⟨value, c₃, h₃⟩ i hvalue
    refine .ok ?_
    rw [Cursor.kinds_of_accept hword, hname]
    exact .exported (hvalue.of_levels (by omega))

/-- A body is read up to what closes it, which is not. -/
theorem body_decides (hunary : Nests n .expr unary) (place : Place) (c : Cursor) :
    Decides n (fun m => body (unary m) place c) fun p i =>
      Tracked (.body p.value.1 p.value.2) c.kinds p.rest.kinds i ∧
        p.rest.current.kind = place.closing := by
  refine .unfolding (fun m => body.eq_def (unary m) place c) ?_
  obtain ⟨k, hk⟩ := c.skipSemicolons_kinds
  rcases hskip : c.skipSemicolons with ⟨c₁, h₁⟩
  rw [hskip] at hk
  rw [hk]
  dsimp only
  by_cases hclosing : c₁.current.kind = place.closing
  · simp only [hclosing, ↓reduceIte]
    exact .ok ⟨.semicolons k .nothing, hclosing⟩
  simp only [hclosing, ↓reduceIte]
  by_cases himport : c₁.current.kind = .keyword .importWord
  · simp only [himport, ↓reduceIte]
    exact .error
  simp only [himport, ↓reduceIte]
  by_cases hstarts : startsStatement c₁.tokens = true
  · simp only [hstarts, ↓reduceIte]
    by_cases hexport : place = .block ∧ c₁.current.kind = .keyword .exportWord
    · simp only [hexport, and_self, ↓reduceIte]
      exact .error
    simp only [hexport, ↓reduceIte]
    refine (statement_nests hunary c₁).bind ?_
    rintro ⟨first, c₂, h₂⟩ i hfirst
    refine .bind_fixed (Cursor.separator_kinds c₂ place.closing) ?_
    rintro ⟨c₃, h₃⟩ ⟨k₃, hk₃⟩
    have hlt₃ : c₃.left < c.left := Nat.lt_of_le_of_lt h₃ (Nat.lt_of_lt_of_le h₂ h₁)
    refine (body_decides hunary place c₃).bind ?_
    rintro ⟨⟨statements, result⟩, c₄, h₄⟩ j ⟨hrest, hclosing⟩
    -- Semicolons stand before a body, those between two statements before what is left of it.
    refine .ok ⟨.semicolons k (.of_levels (.next (hk₃ ▸ hfirst) (.semicolons k₃ hrest)) ?_), hclosing⟩
    omega
  · simp only [hstarts]
    refine (expr_nests hunary c₁).bind ?_
    rintro ⟨result, c₂, h₂⟩ i hresult
    obtain ⟨k₃, hk₃⟩ := c₂.skipSemicolons_kinds
    dsimp only
    rcases hskip₃ : c₂.skipSemicolons with ⟨c₃, h₃⟩
    rw [hskip₃] at hk₃
    dsimp only
    by_cases hclosing : c₃.current.kind = place.closing
    · simp only [hclosing, ↓reduceIte]
      have hbehind : Tracked (.body [] none) c₂.kinds c₃.kinds 0 := by
        rw [hk₃]
        exact .semicolons k₃ .nothing
      refine .ok ⟨.semicolons k (.of_levels (.result hresult hbehind) ?_), hclosing⟩
      omega
    · simp only [hclosing, ↓reduceIte]
      exact .error
  termination_by c.left

theorem blockBody_decides (hunary : Nests n .expr unary) (start : Coordinate) (c : Cursor) :
    Decides n (fun m => blockBody (unary m) start c)
      fun p i => Tracked (.content p.value) c.kinds p.rest.kinds i := by
  refine (body_decides hunary .block c).bind ?_
  rintro ⟨⟨statements, result⟩, c₁, h₁⟩ i ⟨hbody, -⟩
  cases result with
  | none => exact .error
  | some result =>
    have hbody := hbody.of_levels (show i = max i 0 by omega)
    cases statements with
    | nil => exact .ok (.single hbody)
    | cons s ss => exact .ok (.statements hbody)

theorem array_decides (hunary : Nests n .expr unary) (start : Coordinate) (c : Cursor) :
    Decides n (fun m => array (unary m) start c) fun p i =>
      Tracked (.expr p.value) (.symbol .openBracket :: c.kinds) p.rest.kinds (i + 1) := by
  refine (items_nests hunary .closeBracket .missingCloseBracket c).bind ?_
  rintro ⟨es, c₁, h₁⟩ i hes
  have hlevels : max 1 (i + 1) = max i 0 + 1 := by omega
  exact .ok (.of_levels (.list hes) hlevels)

theorem entryKey_kinds (c : Cursor) : Gives (fun p => ∃ sign,
    (sign = .name p.value.1 ∨ sign = .string p.value.1) ∧ c.kinds = sign :: p.rest.kinds)
      (entryKey c) := by
  unfold entryKey
  split
  · next h => exact ⟨_, .inl rfl, Cursor.kinds_of_tokens h⟩
  · next h => exact ⟨_, .inr rfl, Cursor.kinds_of_tokens h⟩
  · trivial

theorem entries_nests (hunary : Nests n .expr unary) :
    Nests n (fun es => .several (es.map .entry) .closeBrace) fun m => entries (unary m) := by
  intro c
  refine .unfolding (fun m => entries.eq_def (unary m) c) ?_
  rcases hclosing : c.sign .closeBrace with _ | ⟨c₁, h₁⟩
  · dsimp only
    refine .bind_fixed (entryKey_kinds c) ?_
    rintro ⟨⟨key, keySpan⟩, c₁, h₁⟩ ⟨sign, hsign, hkey⟩
    refine .bind_fixed (Cursor.expect_kinds c₁ (.symbol .colon)) ?_
    rintro ⟨c₂, h₂⟩ hcolon
    refine (expr_nests hunary c₂).bind ?_
    rintro ⟨value, c₃, h₃⟩ i hvalue
    have hentry : Tracked (.entry ⟨key, keySpan, value⟩) c.kinds c₃.kinds i := by
      rw [hkey, hcolon]
      exact .entry hsign hvalue
    dsimp only
    rcases hcomma : c₃.sign .comma with _ | ⟨c₄, h₄⟩
    · dsimp only
      refine .bind_fixed (Cursor.close_kinds c₃ .closeBrace .missingCloseBrace) ?_
      rintro ⟨c₄, h₄⟩ hclose
      have hentries : Tracked (.several [.entry ⟨key, keySpan, value⟩] .closeBrace) c.kinds c₄.kinds i :=
        .last (hclose ▸ hentry)
      exact .ok (hentries.of_levels (by omega))
    · have hlt₄ : c₄.left < c.left := Nat.lt_trans h₄ (Nat.lt_trans h₃ (Nat.lt_trans h₂ h₁))
      refine (entries_nests hunary c₄).bind ?_
      rintro ⟨rest, c₅, h₅⟩ j hrest
      exact .ok (.of_levels (.cons (Cursor.kinds_of_sign hcomma ▸ hentry) hrest) (by omega))
  · refine .ok ?_
    rw [Cursor.kinds_of_sign hclosing]
    exact .none
  termination_by c => c.left

/-- A lambda is read behind its parameters. -/
theorem lambdaBody_decides (hunary : Nests n .expr unary) (start : Coordinate)
    (ps : List (Parameter Expr)) (c : Cursor) :
    Decides n (fun m => lambdaBody (unary m) start ps c) fun p i => ∃ e span,
      p.value = .lambda none ps e span ∧
        Tracked (.content e) c.kinds (.symbol .closeBrace :: p.rest.kinds) i := by
  refine (blockBody_decides hunary c.current.span.start c).bind ?_
  rintro ⟨e, c₁, h₁⟩ i he
  refine .bind_fixed (Cursor.close_kinds c₁ .closeBrace .missingCloseBrace) ?_
  rintro ⟨c₂, h₂⟩ hclose
  refine .ok ⟨e, _, rfl, ?_⟩
  exact .of_levels (hclose ▸ he) (by omega)

theorem braces_decides (hunary : Nests n .expr unary) (start : Coordinate) (c : Cursor) :
    Decides n (fun m => braces (unary m) start c) fun p i =>
      Tracked (.expr p.value) (.symbol .openBrace :: c.kinds) p.rest.kinds (i + 1) := by
  unfold braces
  dsimp only
  rcases hbar : c.sign .bar with _ | ⟨c₁, h₁⟩
  · rcases hbars : c.sign .orOr with _ | ⟨c₁, h₁⟩
    · rcases hclosing : c.sign .closeBrace with _ | ⟨c₁, h₁⟩
      · dsimp only
        by_cases hstarts : startsEntry c.tokens
        · simp only [hstarts, ↓reduceIte]
          refine (entries_nests hunary c).bind ?_
          rintro ⟨es, c₁, h₁⟩ i hes
          have hlevels : max 1 (i + 1) = max i 0 + 1 := by omega
          exact .ok (.of_levels (.dict hes) hlevels)
        · simp only [hstarts]
          refine (blockBody_decides hunary start c).bind ?_
          rintro ⟨e, c₁, h₁⟩ i he
          refine .bind_fixed (Cursor.close_kinds c₁ .closeBrace .missingCloseBrace) ?_
          rintro ⟨c₂, h₂⟩ hclose
          have hlevels : i + 1 = max i 0 + 1 := by omega
          exact .ok (.of_levels (.block (hclose ▸ he)) hlevels)
      · have hnone : Tracked (.several (([] : List (Entry Expr)).map .entry) .closeBrace)
            c.kinds c₁.kinds 0 := by
          rw [Cursor.kinds_of_sign hclosing]
          exact .none
        exact .ok (.dict hnone)
    · refine (lambdaBody_decides hunary start [] c₁).bind ?_
      rintro ⟨e, c₂, h₂⟩ i ⟨b, span, hvalue, hb⟩
      obtain rfl : e = .lambda none [] b span := hvalue
      refine .ok ?_
      rw [Cursor.kinds_of_sign hbars]
      have hlevels : i + 1 = max i 0 + 1 := by omega
      exact .of_levels (.thunk hb) hlevels
  · refine (parameterList_nests hunary .bar c₁).bind ?_
    rintro ⟨ps, c₂, h₂⟩ i hps
    refine (lambdaBody_decides hunary start ps c₂).bind ?_
    rintro ⟨e, c₃, h₃⟩ j ⟨b, span, hvalue, hb⟩
    obtain rfl : e = .lambda none ps b span := hvalue
    refine .ok ?_
    rw [Cursor.kinds_of_sign hbar]
    have hlevels : max (i + 1) (j + 1) = max i (max j 0) + 1 := by omega
    exact .of_levels (.lambda hps hb) hlevels

theorem ifThenElse_decides (hunary : Nests n .expr unary) (start : Coordinate) (c : Cursor) :
    Decides n (fun m => ifThenElse (unary m) start c) fun p i =>
      Tracked (.expr p.value) (.keyword .ifWord :: c.kinds) p.rest.kinds (i + 1) := by
  refine (expr_nests hunary c).bind ?_
  rintro ⟨condition, c₁, h₁⟩ h hcondition
  refine .bind_fixed (Cursor.expect_kinds c₁ (.keyword .thenWord)) ?_
  rintro ⟨c₂, h₂⟩ hthen
  refine (expr_nests hunary c₂).bind ?_
  rintro ⟨ifTrue, c₃, h₃⟩ i hifTrue
  refine .bind_fixed (Cursor.expect_kinds c₃ (.keyword .elseWord)) ?_
  rintro ⟨c₄, h₄⟩ helse
  refine (expr_nests hunary c₄).bind ?_
  rintro ⟨ifFalse, c₅, h₅⟩ j hifFalse
  have hlevels : max (h + 1) (max (i + 1) (j + 1)) = max h (max i (max j 0)) + 1 := by omega
  exact .ok (.of_levels (.ifThenElse (hthen ▸ hcondition) (helse ▸ hifTrue) hifFalse) hlevels)

theorem primary_decides (hunary : Nests n .expr unary) (c : Cursor) :
    Decides n (fun m => primary (unary m) c) fun p i =>
      Tracked (.expr p.value) c.kinds p.rest.kinds (i + 1) := by
  obtain ⟨tokens, stop, before⟩ := c
  cases tokens with
  | nil => exact .error
  | cons token rest =>
    obtain ⟨kind, span, newline⟩ := token
    cases kind with
    | number written =>
      unfold primary
      dsimp only
      rcases hvalue : Token.numberValue? written with _ | value
      · exact .error
      · exact .ok (.number hvalue)
    | string content => exact .ok .string
    | name written => exact .ok .identifier
    | stop => exact .error
    | keyword word =>
      cases word with
      | trueWord => exact .ok .true
      | falseWord => exact .ok .false
      | ifWord =>
        refine (ifThenElse_decides hunary span.start _).bind ?_
        rintro ⟨e, c₂, h₂⟩ i he
        exact .ok (he.of_levels (by omega))
      | _ => exact .error
    | symbol sign =>
      cases sign with
      | openParen =>
        refine (expr_nests hunary _).bind ?_
        rintro ⟨inner, c₂, h₂⟩ i hinner
        refine .bind_fixed (Cursor.close_kinds c₂ .closeParen .missingCloseParen) ?_
        rintro ⟨c₃, h₃⟩ hclose
        have hlevels : i + 1 = max i 0 + 1 := by omega
        exact .ok (.of_levels (.paren (hclose ▸ hinner)) hlevels)
      | openBracket =>
        refine (array_decides hunary span.start _).bind ?_
        rintro ⟨e, c₂, h₂⟩ i he
        exact .ok (he.of_levels (by omega))
      | openBrace =>
        refine (braces_decides hunary span.start _).bind ?_
        rintro ⟨e, c₂, h₂⟩ i he
        exact .ok (he.of_levels (by omega))
      | _ => exact .error

theorem operand_decides (hunary : Nests n .expr unary) (c : Cursor) :
    Decides n (fun m => operand (unary m) c) fun p i =>
      Tracked (.expr p.value) c.kinds p.rest.kinds (i + 1) := by
  unfold operand
  dsimp only
  rcases hop : c.unaryOp? with _ | ⟨op, c₁, h₁⟩
  · refine (primary_decides hunary c).bind ?_
    rintro ⟨e, c₁, h₁⟩ i he
    refine (suffixes_decides hunary he).bind ?_
    rintro ⟨e', c₂, h₂⟩ j he'
    exact .ok (he'.of_levels (by omega))
  · obtain ⟨sign, hsign, hkinds⟩ := Cursor.kinds_of_unaryOp hop
    refine (operation_nests hunary UnaryOp.precedence c₁).bind ?_
    rintro ⟨e, c₂, h₂⟩ i he
    refine .ok ?_
    rw [hkinds]
    have hlevels : i + 1 = max i 0 + 1 := by omega
    exact .of_levels (.unary hsign he) hlevels

/-- Operands have one level more than what is read in them, and without any level there is none. -/
theorem unaryWithin_nests (n : Nat) : Nests n .expr unaryWithin := by
  induction n with
  | zero =>
    intro c p hp
    cases hp
  | succ n ih =>
    intro c p hp
    obtain ⟨levels, hle, hwritten, hlimits⟩ := operand_decides ih c p hp
    refine ⟨levels + 1, Nat.succ_le_succ hle, hwritten, fun m => ?_⟩
    cases m with
    | zero => exact ⟨fun hm => absurd hm (Nat.not_succ_le_zero _), fun _ => ⟨_, rfl⟩⟩
    | succ m =>
      exact ⟨fun hm => (hlimits m).1 (Nat.le_of_succ_le_succ hm),
        fun hm => (hlimits m).2 (Nat.lt_of_succ_lt_succ hm)⟩

theorem importLine_kinds (c : Cursor) : Gives (fun p => c.kinds = .keyword .importWord ::
    .string p.value.path :: .keyword .asWord :: .name p.value.name :: p.rest.kinds) (importLine c) := by
  unfold importLine
  refine (Cursor.expect_kinds c _).bind ?_
  rintro ⟨c₁, h₁⟩ himport
  dsimp only
  split
  · next htokens =>
    refine (Cursor.expect_kinds _ _).bind ?_
    rintro ⟨c₃, h₃⟩ has
    refine (Cursor.name_kinds c₃).bind ?_
    rintro ⟨⟨name, nameSpan⟩, c₄, h₄⟩ hname
    have has := has.trans (congrArg (List.cons _) hname)
    have hpath := (Cursor.kinds_of_tokens htokens).trans (congrArg (List.cons _) has)
    exact himport.trans (congrArg (List.cons _) hpath)
  · trivial

/-- Imports know no limit. -/
theorem imports_written (c : Cursor) :
    Gives (fun p => Tracked (.imports p.value) c.kinds p.rest.kinds 0) (imports c) := by
  rw [imports]
  obtain ⟨k, hk⟩ := c.skipSemicolons_kinds
  split
  next c₁ h₁ hskip =>
  rw [hskip] at hk
  rw [hk]
  split
  · exact .importSemicolons k .noImports
  · refine (importLine_kinds c₁).bind ?_
    rintro ⟨first, c₂, h₂⟩ hfirst
    refine (Cursor.separator_kinds c₂ _).bind ?_
    rintro ⟨c₃, h₃⟩ ⟨k₃, hk₃⟩
    have hlt₃ : c₃.left < c.left := Nat.lt_of_le_of_lt h₃ (Nat.lt_of_lt_of_le h₂ h₁)
    refine (imports_written c₃).bind ?_
    rintro ⟨rest, c₄, h₄⟩ hrest
    refine .importSemicolons k ?_
    dsimp only at hfirst hk₃
    rw [hfirst, hk₃]
    exact .importLine (.importSemicolons k₃ hrest)
  termination_by c.left

end Reader

end Estimation.Syntax
