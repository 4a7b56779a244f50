import Estimation.Proofs.Cutting

/-!
Line breaks. They separate statements, and a parenthesis or a bracket behind one opens no call and no
index; nothing else depends on them. So what is read from tokens is read as well where line breaks are
added before other tokens.
-/

namespace Estimation

open List

namespace Token

/-- Whether a line break before a token can only separate. -/
def Kind.mayBreak : Kind → Bool
  | .symbol .openParen => false
  | .symbol .openBracket => false
  | _ => true

/-- A token, behind a line break if it is chosen and may be. -/
def breakIf (chosen : Bool) (t : Token) : Token :=
  { t with newlineBefore := t.newlineBefore || (t.kind.mayBreak && chosen) }

/-- Line breaks before the tokens at the chosen places of a list. -/
def breakLines (chosen : Nat → Bool) (tokens : List Token) : List Token :=
  tokens.mapIdx fun i t => t.breakIf (chosen i)

/-- Line breaks before tokens that are chosen by how many are left there, the mark of the end among them. -/
def broken (chosen : Nat → Bool) : List Token → List Token
  | [] => []
  | t :: rest => t.breakIf (chosen (rest.length + 1)) :: broken chosen rest

@[simp] theorem length_broken (chosen : Nat → Bool) (tokens : List Token) :
    (broken chosen tokens).length = tokens.length := by
  induction tokens with
  | nil => rfl
  | cons t rest ih => rw [broken, length_cons, length_cons, ih]

theorem breakLines_eq_broken {chosen left : Nat → Bool} {tokens : List Token}
    (h : ∀ n < tokens.length, left (n + 1) = chosen (tokens.length - (n + 1))) :
    breakLines chosen tokens = broken left tokens := by
  unfold breakLines
  induction tokens generalizing chosen with
  | nil => rfl
  | cons t rest ih =>
    have hfirst : left (rest.length + 1) = chosen 0 := by
      rw [h _ (Nat.lt_succ_self _), length_cons, Nat.sub_self]
    have hrest : ∀ n < rest.length, left (n + 1) = chosen (rest.length - (n + 1) + 1) := by
      intro n hn
      rw [h n (Nat.lt_succ_of_lt hn), length_cons, Nat.succ_sub hn]
    rw [mapIdx_cons, broken, hfirst, ih hrest]

end Token

namespace Syntax

open Token (broken)

variable (chosen : Nat → Bool)

/-! ### Cursors -/

namespace Cursor

/-- A cursor before the tokens with line breaks added. -/
def broken (c : Cursor) : Cursor := ⟨Token.broken chosen c.tokens, c.stop.breakIf (chosen 0), c.before⟩

@[simp] theorem left_broken (c : Cursor) : (c.broken chosen).left = c.left := Token.length_broken ..

def Past.broken {c : Cursor} (d : c.Past) : (c.broken chosen).Past :=
  ⟨d.1.broken chosen, by rw [left_broken, left_broken]; exact d.2⟩

def From.broken {c : Cursor} (d : c.From) : (c.broken chosen).From :=
  ⟨d.1.broken chosen, by rw [left_broken, left_broken]; exact d.2⟩

theorem current_broken (c : Cursor) : (c.broken chosen).current = c.current.breakIf (chosen c.left) := by
  obtain ⟨tokens, stop, before⟩ := c
  cases tokens <;> rfl

theorem kind_current_broken (c : Cursor) : (c.broken chosen).current.kind = c.current.kind := by
  rw [current_broken]
  rfl

theorem span_current_broken (c : Cursor) : (c.broken chosen).current.span = c.current.span := by
  rw [current_broken]
  rfl

theorem accept_broken (kind : Token.Kind) (c : Cursor) :
    (c.broken chosen).accept kind = (c.accept kind).map (Past.broken chosen) := by
  obtain ⟨tokens, stop, before⟩ := c
  cases tokens with
  | nil => rfl
  | cons t rest =>
    change (if t.kind = kind then _ else _) = (if t.kind = kind then _ else _ : Option _).map _
    split <;> rfl

theorem sign_broken (symbol : Symbol) (c : Cursor) :
    (c.broken chosen).sign symbol = (c.sign symbol).map (Past.broken chosen) := accept_broken ..

theorem word_broken (keyword : Keyword) (c : Cursor) :
    (c.broken chosen).word keyword = (c.word keyword).map (Past.broken chosen) := accept_broken ..

/-- No line break is added before a parenthesis that opens. -/
theorem newline_broken {c : Cursor} {d : c.Past} (h : c.sign .openParen = some d) :
    (c.broken chosen).current.newlineBefore = c.current.newlineBefore := by
  obtain ⟨tokens, stop, before⟩ := c
  cases tokens with
  | nil => cases h
  | cons t rest =>
    obtain ⟨kind, span, newline⟩ := t
    by_cases hkind : kind = .symbol .openParen
    · subst hkind
      exact Bool.or_false newline
    · cases (dif_neg hkind).symm.trans h

theorem binaryOp_broken (c : Cursor) :
    (c.broken chosen).binaryOp? = c.binaryOp?.map fun (op, d) => (op, d.broken chosen) := by
  obtain ⟨tokens, stop, before⟩ := c
  cases tokens with
  | nil => rfl
  | cons t rest =>
    change (BinaryOp.ofKind? t.kind).map _ = ((BinaryOp.ofKind? t.kind).map _).map _
    cases BinaryOp.ofKind? t.kind <;> rfl

theorem unaryOp_broken (c : Cursor) :
    (c.broken chosen).unaryOp? = c.unaryOp?.map fun (op, d) => (op, d.broken chosen) := by
  obtain ⟨tokens, stop, before⟩ := c
  cases tokens with
  | nil => rfl
  | cons t rest =>
    change (UnaryOp.ofKind? t.kind).map _ = ((UnaryOp.ofKind? t.kind).map _).map _
    cases UnaryOp.ofKind? t.kind <;> rfl

theorem skipSemicolons_broken (c : Cursor) :
    (c.broken chosen).skipSemicolons = c.skipSemicolons.broken chosen := by
  fun_induction skipSemicolons c with
  | case1 c d hsign e he hrest ih =>
    rw [skipSemicolons, sign_broken, hsign]
    change (match (d.1.broken chosen).skipSemicolons with
      | ⟨e, he⟩ => (⟨e, _⟩ : (c.broken chosen).From)) = _
    rw [ih, hrest]
    rfl
  | case2 c hsign =>
    rw [skipSemicolons, sign_broken, hsign]
    rfl

end Cursor

def Parsed.broken {α : Type} {c : Cursor} (p : Parsed α c) : Parsed α (c.broken chosen) :=
  ⟨p.value, p.rest.broken chosen, by rw [Cursor.left_broken, Cursor.left_broken]; exact p.further⟩

def ParsedFrom.broken {α : Type} {c : Cursor} (p : ParsedFrom α c) : ParsedFrom α (c.broken chosen) :=
  ⟨p.value, p.rest.broken chosen, by rw [Cursor.left_broken, Cursor.left_broken]; exact p.notBefore⟩

/-! ### Results -/

/-- A result that goes over into another one, if it is no error. -/
def GoesOver {ε α β : Type} (f : α → β) (x : Except ε α) (y : Except ε β) : Prop :=
  ∀ a, x = .ok a → y = .ok (f a)

namespace GoesOver

variable {ε α β γ δ : Type} {f : α → β} {x : Except ε α} {y : Except ε β}

theorem ok {a : α} {b : β} (h : f a = b) : GoesOver (ε := ε) f (.ok a) (.ok b) := by
  rintro _ ⟨⟩
  rw [h]

theorem error {e : ε} : GoesOver f (.error e) y := nofun

theorem bind (h : GoesOver f x y) {g : γ → δ} {k : α → Except ε γ} {l : β → Except ε δ}
    (hk : ∀ a, GoesOver g (k a) (l (f a))) : GoesOver g (x >>= k) (y >>= l) := by
  cases x with
  | error e => exact error
  | ok a =>
    rw [h a rfl]
    exact hk a

end GoesOver

namespace Cursor

theorem expect_broken (kind : Token.Kind) (c : Cursor) :
    GoesOver (Past.broken chosen) (c.expect kind) ((c.broken chosen).expect kind) := by
  rw [expect, expect, accept_broken]
  cases c.accept kind with
  | none => exact .error
  | some d => exact .ok rfl

theorem close_broken (symbol : Symbol) (missing : Fault) (c : Cursor) :
    GoesOver (Past.broken chosen) (c.close symbol missing) ((c.broken chosen).close symbol missing) := by
  rw [close, close, sign_broken]
  cases c.sign symbol with
  | none => exact .error
  | some d => exact .ok rfl

/-- What separates before a line break is added separates behind it, too. -/
theorem separator_broken (closing : Token.Kind) (c : Cursor) :
    GoesOver (From.broken chosen) (c.separator closing) ((c.broken chosen).separator closing) := by
  rw [separator, separator, sign_broken]
  cases c.sign .semicolon with
  | some d => exact .ok rfl
  | none =>
    dsimp only [Option.map]
    split
    · next h =>
      have hbroken : (c.broken chosen).current.kind = closing ∨
          (c.broken chosen).current.newlineBefore = true := by
        rw [current_broken]
        refine h.imp_right fun hnewline => ?_
        unfold Token.breakIf
        rw [hnewline]
        rfl
      rw [if_pos hbroken]
      exact .ok rfl
    · exact .error

end Cursor

namespace Reader

/-- What a reader reads, it reads with line breaks added. -/
def Carries {α : Type} (r : Reader α) : Prop :=
  ∀ c, GoesOver (Parsed.broken chosen) (r c) (r (c.broken chosen))

theorem name_carries : Carries chosen Cursor.name := by
  rintro ⟨tokens, stop, before⟩
  cases tokens with
  | nil => exact .error
  | cons t rest =>
    obtain ⟨kind, span, newline⟩ := t
    cases kind with
    | name written => exact .ok rfl
    | _ => exact .error

theorem key_carries : Carries chosen Cursor.key := by
  rintro ⟨tokens, stop, before⟩
  cases tokens with
  | nil => exact .error
  | cons t rest =>
    obtain ⟨kind, span, newline⟩ := t
    cases kind with
    | name written => exact .ok rfl
    | _ => exact .error

theorem entryKey_carries : Carries chosen entryKey := by
  rintro ⟨tokens, stop, before⟩
  cases tokens with
  | nil => exact .error
  | cons t rest =>
    obtain ⟨kind, span, newline⟩ := t
    cases kind with
    | name written => exact .ok rfl
    | string content => exact .ok rfl
    | _ => exact .error

/-! ### Decisions by what comes next -/

theorem assignsBehind_broken (depth : Nat) (tokens : List Token) :
    assignsBehind depth (broken chosen tokens) = assignsBehind depth tokens := by
  induction tokens generalizing depth with
  | nil => rfl
  | cons t rest ih =>
    have hhead : (broken chosen rest).head?.any (·.kind == .symbol .assign) =
        rest.head?.any (·.kind == .symbol .assign) := by
      cases rest <;> rfl
    rw [broken, assignsBehind, assignsBehind]
    simp only [ih, hhead]
    rfl

/-- No line break is added before a parenthesis that opens. -/
theorem startsStatement_broken (tokens : List Token) :
    startsStatement (broken chosen tokens) = startsStatement tokens := by
  cases tokens with
  | nil => rfl
  | cons t rest =>
    cases rest with
    | nil => rfl
    | cons u rest =>
      obtain ⟨kind, span, newline⟩ := t
      obtain ⟨kind', span', newline'⟩ := u
      cases kind with
      | name written =>
        cases kind' with
        | symbol sign =>
          cases sign with
          | openParen =>
            change (!(newline' || false) && assignsBehind 1 (broken chosen rest)) =
              (!newline' && assignsBehind 1 rest)
            rw [assignsBehind_broken, Bool.or_false]
          | _ => rfl
        | _ => rfl
      | keyword word => cases word <;> rfl
      | _ => rfl

theorem startsEntry_broken (tokens : List Token) :
    startsEntry (broken chosen tokens) = startsEntry tokens := by
  cases tokens with
  | nil => rfl
  | cons t rest => cases rest <;> rfl

/-! ### Expressions over a reader for operands -/

variable {chosen} {unary : Reader Expr}

theorem climb_carries (hunary : Carries chosen unary) (bound : Nat) (left : Expr) (c : Cursor) :
    GoesOver (ParsedFrom.broken chosen) (climb unary bound left c)
      (climb unary bound left (c.broken chosen)) := by
  rw [climb.eq_def unary bound left c, climb.eq_def unary bound left (c.broken chosen),
    Cursor.binaryOp_broken]
  rcases c.binaryOp? with _ | ⟨op, c₁, h₁⟩
  · exact .ok rfl
  · dsimp only [Option.map, Cursor.Past.broken]
    split
    · refine (hunary c₁).bind ?_
      rintro ⟨operand, c₂, h₂⟩
      have hlt₂ : c₂.left < c.left := Nat.lt_trans h₂ h₁
      refine (climb_carries hunary op.rightBound operand c₂).bind ?_
      rintro ⟨right, c₃, h₃⟩
      have hlt₃ : c₃.left < c.left := Nat.lt_of_le_of_lt h₃ hlt₂
      refine (climb_carries hunary bound _ c₃).bind ?_
      rintro ⟨e, c₄, h₄⟩
      exact .ok rfl
    · exact .ok rfl
  termination_by c.left

theorem operation_carries (hunary : Carries chosen unary) (bound : Nat) :
    Carries chosen (operation unary bound) := by
  intro c
  refine (hunary c).bind ?_
  rintro ⟨left, c₁, h₁⟩
  refine (climb_carries hunary bound left c₁).bind ?_
  rintro ⟨e, c₂, h₂⟩
  exact .ok rfl

theorem expr_carries (hunary : Carries chosen unary) : Carries chosen (expr unary) := by
  intro c
  rw [expr.eq_def unary c, expr.eq_def unary (c.broken chosen)]
  refine (operation_carries hunary 0 c).bind ?_
  rintro ⟨condition, c₁, h₁⟩
  dsimp only [Parsed.broken]
  rw [Cursor.sign_broken]
  rcases c₁.sign .question with _ | ⟨c₂, h₂⟩
  · exact .ok rfl
  · have hlt₂ : c₂.left < c.left := Nat.lt_trans h₂ h₁
    refine (expr_carries hunary c₂).bind ?_
    rintro ⟨ifTrue, c₃, h₃⟩
    refine (Cursor.expect_broken chosen (.symbol .colon) c₃).bind ?_
    rintro ⟨c₄, h₄⟩
    have hlt₄ : c₄.left < c.left := Nat.lt_trans h₄ (Nat.lt_trans h₃ hlt₂)
    refine (expr_carries hunary c₄).bind ?_
    rintro ⟨ifFalse, c₅, h₅⟩
    exact .ok rfl
  termination_by c => c.left

theorem items_carries (hunary : Carries chosen unary) (closing : Symbol) (missing : Fault) :
    Carries chosen (items unary closing missing) := by
  intro c
  rw [items.eq_def unary closing missing c, items.eq_def unary closing missing (c.broken chosen),
    Cursor.sign_broken]
  rcases c.sign closing with _ | ⟨c₁, h₁⟩
  · refine (expr_carries hunary c).bind ?_
    rintro ⟨item, c₁, h₁⟩
    dsimp only [Parsed.broken]
    rw [Cursor.sign_broken]
    rcases c₁.sign .comma with _ | ⟨c₂, h₂⟩
    · refine (Cursor.close_broken chosen closing missing c₁).bind ?_
      rintro ⟨c₂, h₂⟩
      exact .ok rfl
    · have hlt₂ : c₂.left < c.left := Nat.lt_trans h₂ h₁
      refine (items_carries hunary closing missing c₂).bind ?_
      rintro ⟨rest, c₃, h₃⟩
      exact .ok rfl
  · exact .ok rfl
  termination_by c => c.left

theorem keys_carries (start : Coordinate) (target : Expr) (c : Cursor) :
    GoesOver (ParsedFrom.broken chosen) (keys start target c) (keys start target (c.broken chosen)) := by
  rw [keys.eq_def start target c, keys.eq_def start target (c.broken chosen), Cursor.sign_broken]
  rcases c.sign .dot with _ | ⟨c₁, h₁⟩
  · exact .ok rfl
  · refine (key_carries chosen c₁).bind ?_
    rintro ⟨key, c₂, h₂⟩
    have hlt₂ : c₂.left < c.left := Nat.lt_trans h₂ h₁
    refine (keys_carries start _ c₂).bind ?_
    rintro ⟨e, c₃, h₃⟩
    exact .ok rfl
  termination_by c.left

theorem pipeCallee_carries : Carries chosen pipeCallee := by
  intro c
  refine (name_carries chosen c).bind ?_
  rintro ⟨⟨name, span⟩, c₁, h₁⟩
  refine (keys_carries span.start _ c₁).bind ?_
  rintro ⟨e, c₂, h₂⟩
  exact .ok rfl

theorem pipeArguments_carries (hunary : Carries chosen unary) (c : Cursor) :
    GoesOver (ParsedFrom.broken chosen) (pipeArguments unary c)
      (pipeArguments unary (c.broken chosen)) := by
  unfold pipeArguments
  rw [Cursor.sign_broken]
  rcases hsign : c.sign .openParen with _ | ⟨c₁, h₁⟩
  · cases c.current.newlineBefore <;> cases (c.broken chosen).current.newlineBefore <;> exact .ok rfl
  · rw [Cursor.newline_broken chosen hsign]
    cases c.current.newlineBefore with
    | true => exact .ok rfl
    | false =>
      refine (items_carries hunary .closeParen .missingCloseParen c₁).bind ?_
      rintro ⟨args, c₂, h₂⟩
      exact .ok rfl

/-- One step behind an operand is one with line breaks added, too, and none is none. -/
theorem suffix_carries (hunary : Carries chosen unary) (target : Expr) (c : Cursor) :
    (suffix? unary target c = none ∧ suffix? unary target (c.broken chosen) = none) ∨
      ∃ step step', suffix? unary target c = some step ∧
        suffix? unary target (c.broken chosen) = some step' ∧
        GoesOver (Parsed.broken chosen) step step' := by
  obtain ⟨tokens, stop, before⟩ := c
  cases tokens with
  | nil => exact .inl ⟨rfl, rfl⟩
  | cons t rest =>
    obtain ⟨kind, span, newline⟩ := t
    cases kind with
    | symbol sign =>
      cases sign with
      | openParen =>
        cases newline with
        | true => exact .inl ⟨rfl, rfl⟩
        | false =>
          refine .inr ⟨_, _, rfl, rfl, (items_carries hunary .closeParen .missingCloseParen _).bind ?_⟩
          rintro ⟨args, c₂, h₂⟩
          exact .ok rfl
      | openBracket =>
        cases newline with
        | true => exact .inl ⟨rfl, rfl⟩
        | false =>
          refine .inr ⟨_, _, rfl, rfl, (expr_carries hunary _).bind ?_⟩
          rintro ⟨index, c₂, h₂⟩
          refine (Cursor.close_broken chosen .closeBracket .missingCloseBracket c₂).bind ?_
          rintro ⟨c₃, h₃⟩
          exact .ok rfl
      | dot =>
        refine .inr ⟨_, _, rfl, rfl, (key_carries chosen _).bind ?_⟩
        rintro ⟨key, c₂, h₂⟩
        exact .ok rfl
      | arrow =>
        refine .inr ⟨_, _, rfl, rfl, (pipeCallee_carries _).bind ?_⟩
        rintro ⟨callee, c₂, h₂⟩
        refine (pipeArguments_carries hunary c₂).bind ?_
        rintro ⟨args, c₃, h₃⟩
        exact .ok rfl
      | _ => exact .inl ⟨rfl, rfl⟩
    | _ => exact .inl ⟨rfl, rfl⟩

theorem suffixes_carries (hunary : Carries chosen unary) (target : Expr) (c : Cursor) :
    GoesOver (ParsedFrom.broken chosen) (suffixes unary target c)
      (suffixes unary target (c.broken chosen)) := by
  rw [suffixes.eq_def unary target c, suffixes.eq_def unary target (c.broken chosen)]
  rcases suffix_carries hunary target c with ⟨hnone, hnone'⟩ | ⟨step, step', hstep, hstep', hover⟩
  · rw [hnone, hnone']
    exact .ok rfl
  · rw [hstep, hstep']
    refine hover.bind ?_
    rintro ⟨e, c₁, h₁⟩
    refine (suffixes_carries hunary e c₁).bind ?_
    rintro ⟨e', c₂, h₂⟩
    exact .ok rfl
  termination_by c.left

/-! ### Parameters, statements and bodies -/

/-- What stands behind a parameter, where the parameters behind it are read. -/
theorem parametersBehind_carries {closing : ParameterClosing} {c : Cursor} {p : Parameter Expr}
    (hrest : ∀ d : Cursor, d.left < c.left → GoesOver (Parsed.broken chosen)
      (parameters unary closing d) (parameters unary closing (d.broken chosen)))
    (c₂ d₂ : Cursor) (hd₂ : d₂ = c₂.broken chosen) (h₂ : c₂.left < c.left)
    (h₂' : d₂.left < (c.broken chosen).left) :
    GoesOver (ε := SyntaxError) (Parsed.broken (α := List (Parameter Expr)) (c := c) chosen)
      (match c₂.sign .comma with
        | some ⟨c₃, h₃⟩ => do
          let ⟨rest, c₄, h₄⟩ ← parameters unary closing c₃
          return ⟨p :: rest, c₄, Nat.lt_trans h₄ (Nat.lt_trans h₃ h₂)⟩
        | none => do
          let some ⟨c₃, h₃⟩ := c₂.sign closing.symbol | .error (closing.fault c₂)
          return ⟨[p], c₃, Nat.lt_trans h₃ h₂⟩)
      (match d₂.sign .comma with
        | some ⟨d₃, h₃⟩ => do
          let ⟨rest, d₄, h₄⟩ ← parameters unary closing d₃
          return ⟨p :: rest, d₄, Nat.lt_trans h₄ (Nat.lt_trans h₃ h₂')⟩
        | none => do
          let some ⟨d₃, h₃⟩ := d₂.sign closing.symbol | .error (closing.fault d₂)
          return ⟨[p], d₃, Nat.lt_trans h₃ h₂'⟩) := by
  subst hd₂
  rw [Cursor.sign_broken, Cursor.sign_broken]
  rcases c₂.sign .comma with _ | ⟨c₃, h₃⟩
  · rcases c₂.sign closing.symbol with _ | ⟨c₃, h₃⟩
    · exact .error
    · exact .ok rfl
  · refine (hrest c₃ (Nat.lt_trans h₃ h₂)).bind ?_
    rintro ⟨rest, c₄, h₄⟩
    exact .ok rfl

theorem parameters_carries (hunary : Carries chosen unary) (closing : ParameterClosing) :
    Carries chosen (parameters unary closing) := by
  intro c
  rw [parameters.eq_def unary closing c, parameters.eq_def unary closing (c.broken chosen)]
  refine (name_carries chosen c).bind ?_
  rintro ⟨⟨name, span⟩, c₁, h₁⟩
  have hrest (d : Cursor) (_ : d.left < c.left) := parameters_carries hunary closing d
  dsimp only [Parsed.broken]
  rw [Cursor.sign_broken]
  rcases c₁.sign .colon with _ | ⟨d, hd⟩
  · exact parametersBehind_carries hrest c₁ _ rfl h₁ (by simpa only [Cursor.left_broken] using h₁)
  · refine (operation_carries hunary 0 d).bind ?_
    rintro ⟨range, d', hd'⟩
    have hlt : d'.left < c.left := Nat.lt_trans hd' (Nat.lt_trans hd h₁)
    exact parametersBehind_carries hrest d' _ rfl hlt (by simpa only [Cursor.left_broken] using hlt)
  termination_by c => c.left

theorem parameterList_carries (hunary : Carries chosen unary) (closing : ParameterClosing) :
    Carries chosen (parameterList unary closing) := by
  intro c
  rw [parameterList, parameterList, Cursor.sign_broken]
  rcases c.sign closing.symbol with _ | ⟨c₁, h₁⟩
  · exact parameters_carries hunary closing c
  · exact .ok rfl

theorem definition_carries (hunary : Carries chosen unary) (name : String) (nameSpan : Span) :
    Carries chosen (definition unary name nameSpan) := by
  intro c
  rw [definition, definition, Cursor.sign_broken]
  rcases c.sign .openParen with _ | ⟨c₁, h₁⟩
  · refine (Cursor.expect_broken chosen (.symbol .assign) c).bind ?_
    rintro ⟨c₁, h₁⟩
    refine (expr_carries hunary c₁).bind ?_
    rintro ⟨value, c₂, h₂⟩
    exact .ok rfl
  · refine (parameterList_carries hunary .paren c₁).bind ?_
    rintro ⟨ps, c₂, h₂⟩
    refine (Cursor.expect_broken chosen (.symbol .assign) c₂).bind ?_
    rintro ⟨c₃, h₃⟩
    refine (expr_carries hunary c₃).bind ?_
    rintro ⟨body, c₄, h₄⟩
    exact .ok rfl

theorem statement_carries (hunary : Carries chosen unary) : Carries chosen (statement unary) := by
  intro c
  unfold statement
  dsimp only
  rw [Cursor.span_current_broken, Cursor.word_broken]
  rcases c.word .exportWord with _ | ⟨d, hd⟩
  · refine (name_carries chosen c).bind ?_
    rintro ⟨⟨name, nameSpan⟩, c₂, h₂⟩
    refine (definition_carries hunary name nameSpan c₂).bind ?_
    rintro ⟨value, c₃, h₃⟩
    exact .ok rfl
  · refine (name_carries chosen d).bind ?_
    rintro ⟨⟨name, nameSpan⟩, c₂, h₂⟩
    refine (definition_carries hunary name nameSpan c₂).bind ?_
    rintro ⟨value, c₃, h₃⟩
    exact .ok rfl

theorem body_carries (hunary : Carries chosen unary) (place : Place) (c : Cursor) :
    GoesOver (ParsedFrom.broken chosen) (body unary place c) (body unary place (c.broken chosen)) := by
  rw [body.eq_def unary place c, body.eq_def unary place (c.broken chosen),
    Cursor.skipSemicolons_broken]
  obtain ⟨c₁, h₁⟩ := c.skipSemicolons
  dsimp only [Cursor.From.broken]
  rw [Cursor.kind_current_broken, show (c₁.broken chosen).tokens = broken chosen c₁.tokens from rfl,
    startsStatement_broken]
  split
  · exact .ok rfl
  · split
    · exact .error
    · split
      · split
        · exact .error
        · refine (statement_carries hunary c₁).bind ?_
          rintro ⟨first, c₂, h₂⟩
          refine (Cursor.separator_broken chosen place.closing c₂).bind ?_
          rintro ⟨c₃, h₃⟩
          have hlt₃ : c₃.left < c.left := Nat.lt_of_le_of_lt h₃ (Nat.lt_of_lt_of_le h₂ h₁)
          refine (body_carries hunary place c₃).bind ?_
          rintro ⟨⟨statements, result⟩, c₄, h₄⟩
          exact .ok rfl
      · refine (expr_carries hunary c₁).bind ?_
        rintro ⟨result, c₂, h₂⟩
        dsimp only [Parsed.broken]
        rw [Cursor.skipSemicolons_broken]
        obtain ⟨c₃, h₃⟩ := c₂.skipSemicolons
        dsimp only [Cursor.From.broken]
        rw [Cursor.kind_current_broken]
        split
        · exact .ok rfl
        · exact .error
  termination_by c.left

theorem blockBody_carries (hunary : Carries chosen unary) (start : Coordinate) (c : Cursor) :
    GoesOver (ParsedFrom.broken chosen) (blockBody unary start c)
      (blockBody unary start (c.broken chosen)) := by
  refine (body_carries hunary .block c).bind ?_
  rintro ⟨⟨statements, result⟩, c₁, h₁⟩
  cases result with
  | none => exact .error
  | some result =>
    dsimp only [ParsedFrom.broken]
    split
    · exact .ok rfl
    · exact .ok rfl

/-! ### Operands -/

theorem array_carries (hunary : Carries chosen unary) (start : Coordinate) :
    Carries chosen (array unary start) := by
  intro c
  refine (items_carries hunary .closeBracket .missingCloseBracket c).bind ?_
  rintro ⟨es, c₁, h₁⟩
  exact .ok rfl

theorem entries_carries (hunary : Carries chosen unary) : Carries chosen (entries unary) := by
  intro c
  rw [entries.eq_def unary c, entries.eq_def unary (c.broken chosen), Cursor.sign_broken]
  rcases c.sign .closeBrace with _ | ⟨c₁, h₁⟩
  · refine (entryKey_carries chosen c).bind ?_
    rintro ⟨⟨key, keySpan⟩, c₁, h₁⟩
    refine (Cursor.expect_broken chosen (.symbol .colon) c₁).bind ?_
    rintro ⟨c₂, h₂⟩
    refine (expr_carries hunary c₂).bind ?_
    rintro ⟨value, c₃, h₃⟩
    dsimp only [Parsed.broken]
    rw [Cursor.sign_broken]
    rcases c₃.sign .comma with _ | ⟨c₄, h₄⟩
    · refine (Cursor.close_broken chosen .closeBrace .missingCloseBrace c₃).bind ?_
      rintro ⟨c₄, h₄⟩
      exact .ok rfl
    · have hlt₄ : c₄.left < c.left := Nat.lt_trans h₄ (Nat.lt_trans h₃ (Nat.lt_trans h₂ h₁))
      refine (entries_carries hunary c₄).bind ?_
      rintro ⟨rest, c₅, h₅⟩
      exact .ok rfl
  · exact .ok rfl
  termination_by c => c.left

theorem lambdaBody_carries (hunary : Carries chosen unary) (start : Coordinate)
    (ps : List (Parameter Expr)) : Carries chosen (lambdaBody unary start ps) := by
  intro c
  unfold lambdaBody
  rw [Cursor.span_current_broken]
  refine (blockBody_carries hunary c.current.span.start c).bind ?_
  rintro ⟨e, c₁, h₁⟩
  refine (Cursor.close_broken chosen .closeBrace .missingCloseBrace c₁).bind ?_
  rintro ⟨c₂, h₂⟩
  exact .ok rfl

theorem braces_carries (hunary : Carries chosen unary) (start : Coordinate) :
    Carries chosen (braces unary start) := by
  intro c
  unfold braces
  rw [Cursor.sign_broken, Cursor.sign_broken, Cursor.sign_broken]
  rcases c.sign .bar with _ | ⟨c₁, h₁⟩
  · rcases c.sign .orOr with _ | ⟨c₁, h₁⟩
    · rcases c.sign .closeBrace with _ | ⟨c₁, h₁⟩
      · dsimp only [Option.map]
        rw [show (c.broken chosen).tokens = broken chosen c.tokens from rfl, startsEntry_broken]
        split
        · refine (entries_carries hunary c).bind ?_
          rintro ⟨es, c₁, h₁⟩
          exact .ok rfl
        · refine (blockBody_carries hunary start c).bind ?_
          rintro ⟨e, c₁, h₁⟩
          refine (Cursor.close_broken chosen .closeBrace .missingCloseBrace c₁).bind ?_
          rintro ⟨c₂, h₂⟩
          exact .ok rfl
      · exact .ok rfl
    · refine (lambdaBody_carries hunary start [] c₁).bind ?_
      rintro ⟨e, c₂, h₂⟩
      exact .ok rfl
  · refine (parameterList_carries hunary .bar c₁).bind ?_
    rintro ⟨ps, c₂, h₂⟩
    refine (lambdaBody_carries hunary start ps c₂).bind ?_
    rintro ⟨e, c₃, h₃⟩
    exact .ok rfl

theorem ifThenElse_carries (hunary : Carries chosen unary) (start : Coordinate) :
    Carries chosen (ifThenElse unary start) := by
  intro c
  refine (expr_carries hunary c).bind ?_
  rintro ⟨condition, c₁, h₁⟩
  refine (Cursor.expect_broken chosen (.keyword .thenWord) c₁).bind ?_
  rintro ⟨c₂, h₂⟩
  refine (expr_carries hunary c₂).bind ?_
  rintro ⟨ifTrue, c₃, h₃⟩
  refine (Cursor.expect_broken chosen (.keyword .elseWord) c₃).bind ?_
  rintro ⟨c₄, h₄⟩
  refine (expr_carries hunary c₄).bind ?_
  rintro ⟨ifFalse, c₅, h₅⟩
  exact .ok rfl

theorem primary_carries (hunary : Carries chosen unary) : Carries chosen (primary unary) := by
  rintro ⟨tokens, stop, before⟩
  cases tokens with
  | nil => exact .error
  | cons t rest =>
    obtain ⟨kind, span, newline⟩ := t
    unfold primary
    dsimp only [Cursor.broken, Token.broken, Token.breakIf]
    cases kind with
    | number written =>
      dsimp only
      cases Token.numberValue? written with
      | none => exact .error
      | some value => exact .ok rfl
    | string content => exact .ok rfl
    | name written => exact .ok rfl
    | stop => exact .error
    | keyword word =>
      cases word with
      | trueWord => exact .ok rfl
      | falseWord => exact .ok rfl
      | ifWord =>
        refine (ifThenElse_carries hunary _ _).bind ?_
        rintro ⟨e, c₂, h₂⟩
        exact .ok rfl
      | _ => exact .error
    | symbol sign =>
      cases sign with
      | openParen =>
        refine (expr_carries hunary _).bind ?_
        rintro ⟨inner, c₂, h₂⟩
        refine (Cursor.close_broken chosen .closeParen .missingCloseParen c₂).bind ?_
        rintro ⟨c₃, h₃⟩
        exact .ok rfl
      | openBracket =>
        refine (array_carries hunary _ _).bind ?_
        rintro ⟨e, c₂, h₂⟩
        exact .ok rfl
      | openBrace =>
        refine (braces_carries hunary _ _).bind ?_
        rintro ⟨e, c₂, h₂⟩
        exact .ok rfl
      | _ => exact .error

theorem operand_carries (hunary : Carries chosen unary) : Carries chosen (operand unary) := by
  intro c
  unfold operand
  dsimp only
  rw [Cursor.span_current_broken, Cursor.unaryOp_broken]
  rcases c.unaryOp? with _ | ⟨op, c₁, h₁⟩
  · refine (primary_carries hunary c).bind ?_
    rintro ⟨e, c₁, h₁⟩
    refine (suffixes_carries hunary e c₁).bind ?_
    rintro ⟨e', c₂, h₂⟩
    exact .ok rfl
  · refine (operation_carries hunary UnaryOp.precedence c₁).bind ?_
    rintro ⟨e, c₂, h₂⟩
    exact .ok rfl

theorem unaryWithin_carries (depth : Nat) : Carries chosen (unaryWithin depth) := by
  induction depth with
  | zero => exact fun c => .error
  | succ depth ih => exact operand_carries ih

/-! ### Programs -/

theorem importLine_carries : Carries chosen importLine := by
  intro c
  unfold importLine
  dsimp only
  rw [Cursor.span_current_broken]
  refine (Cursor.expect_broken chosen (.keyword .importWord) c).bind ?_
  rintro ⟨⟨tokens, stop, before⟩, h₁⟩
  cases tokens with
  | nil => exact .error
  | cons t rest =>
    obtain ⟨kind, span, newline⟩ := t
    cases kind with
    | string path =>
      refine (Cursor.expect_broken chosen (.keyword .asWord) ⟨rest, stop, span.stop⟩).bind ?_
      rintro ⟨c₃, h₃⟩
      refine (name_carries chosen c₃).bind ?_
      rintro ⟨⟨name, nameSpan⟩, c₄, h₄⟩
      exact .ok rfl
    | _ => exact .error

theorem imports_carries (c : Cursor) :
    GoesOver (ParsedFrom.broken chosen) (imports c) (imports (c.broken chosen)) := by
  rw [imports.eq_def c, imports.eq_def (c.broken chosen), Cursor.skipSemicolons_broken]
  obtain ⟨c₁, h₁⟩ := c.skipSemicolons
  dsimp only [Cursor.From.broken]
  rw [Cursor.word_broken]
  cases c₁.word .importWord with
  | none => exact .ok rfl
  | some d =>
    refine (importLine_carries c₁).bind ?_
    rintro ⟨first, c₂, h₂⟩
    refine (Cursor.separator_broken chosen .stop c₂).bind ?_
    rintro ⟨c₃, h₃⟩
    have hlt₃ : c₃.left < c.left := Nat.lt_of_le_of_lt h₃ (Nat.lt_of_lt_of_le h₂ h₁)
    refine (imports_carries c₃).bind ?_
    rintro ⟨rest, c₄, h₄⟩
    exact .ok rfl
  termination_by c.left

end Reader

/-- Line breaks before tokens of a list are line breaks before the tokens that a cursor has. -/
theorem Cursor.ofTokens_broken (chosen : Nat → Bool) (tokens : List Token) :
    ∃ left, ofTokens (Token.breakLines chosen tokens) = (ofTokens tokens).broken left := by
  have hlast : (Token.breakLines chosen tokens).getLast? =
      tokens.getLast?.map (Token.breakIf (chosen (tokens.length - 1))) := getLast?_mapIdx
  by_cases hmarked : ∃ stop, tokens.getLast? = some stop ∧ stop.kind = .stop
  · -- The last token is the mark of the end, so that nothing is left behind it.
    obtain ⟨stop, hstop, hkind⟩ := hmarked
    obtain ⟨words, rfl⟩ := getLast?_eq_some_iff.1 hstop
    refine ⟨fun left => chosen (words.length - left), ?_⟩
    have hbroken : Token.breakLines chosen (words ++ [stop]) =
        Token.broken (fun left => chosen (words.length - left)) words ++
          [stop.breakIf (chosen words.length)] := by
      rw [← Token.breakLines_eq_broken fun _ _ => rfl]
      exact mapIdx_concat
    have hkind' : (stop.breakIf (chosen words.length)).kind = .stop := hkind
    rw [hbroken, ofTokens_marked hkind, ofTokens_marked hkind']
    cases words <;> rfl
  · refine ⟨fun left => left != 0 && chosen (tokens.length - left), ?_⟩
    have hunmarked : ∀ t ∈ tokens.getLast?, t.kind ≠ .stop := fun t ht hkind => hmarked ⟨t, ht, hkind⟩
    have hunmarked' : ∀ t ∈ (Token.breakLines chosen tokens).getLast?, t.kind ≠ .stop := by
      rw [hlast]
      intro t ht
      obtain ⟨u, hu, rfl⟩ := Option.map_eq_some_iff.1 ht
      exact hunmarked u hu
    have hstop : Token.stopBehind .origin (Token.breakLines chosen tokens) =
        Token.stopBehind .origin tokens := by
      unfold Token.stopBehind Token.endFrom
      rw [hlast]
      cases tokens.getLast? <;> rfl
    have hbroken : Token.breakLines chosen tokens =
        Token.broken (fun left => left != 0 && chosen (tokens.length - left)) tokens :=
      Token.breakLines_eq_broken fun n _ => by simp
    rw [ofTokens_unmarked hunmarked, ofTokens_unmarked hunmarked', hstop, hbroken]
    cases tokens <;> rfl

/-- A list of tokens that spells a program spells the same one where line breaks are added before any of
them that do not open a parenthesis or a bracket. -/
theorem Program.ofTokens_breakLines {tokens : List Token} {program : Program}
    (h : ofTokens tokens = .ok program) (chosen : Nat → Bool) :
    ofTokens (Token.breakLines chosen tokens) = .ok program := by
  obtain ⟨left, hleft⟩ := Cursor.ofTokens_broken chosen tokens
  have hover : GoesOver id (ofTokens tokens) (ofTokens (Token.breakLines chosen tokens)) := by
    unfold ofTokens
    rw [hleft]
    refine (Reader.imports_carries _).bind ?_
    rintro ⟨imports, c₁, h₁⟩
    refine (Reader.body_carries (Reader.unaryWithin_carries maxNesting) .program c₁).bind ?_
    rintro ⟨⟨statements, result⟩, c₂, h₂⟩
    refine .ok ?_
    dsimp only [ParsedFrom.broken]
    rw [Cursor.span_current_broken, Cursor.span_current_broken]
    rfl
  exact hover program h

namespace Breaking

/-- `f(a) = [a]; b = f(c)[d] -> f; b` on one line. -/
def tokens : List Token :=
  [.name "f", .symbol .openParen, .name "a", .symbol .closeParen, .symbol .assign, .symbol .openBracket,
    .name "a", .symbol .closeBracket, .symbol .semicolon, .name "b", .symbol .assign, .name "f",
    .symbol .openParen, .name "c", .symbol .closeParen, .symbol .openBracket, .name "d",
    .symbol .closeBracket, .symbol .arrow, .name "f", .symbol .semicolon, .name "b", .stop].map
    fun kind => ⟨kind, .point .origin, false⟩

set_option maxRecDepth 100000 in
theorem tokens_spell : ((Program.ofTokens tokens).toOption.map fun p => p.statements.length) = some 2 := by
  decide +kernel

/-- Each word on a line of its own. -/
theorem tokens_broken : ∃ program, Program.ofTokens tokens = .ok program ∧
    program.statements.length = 2 ∧
    Program.ofTokens (Token.breakLines (fun _ => true) tokens) = .ok program := by
  obtain ⟨program, hprogram, hlength⟩ := Option.map_eq_some_iff.1 tokens_spell
  have h := ok_of_toOption hprogram
  exact ⟨program, h, hlength, Program.ofTokens_breakLines h _⟩

end Breaking

end Syntax

end Estimation
