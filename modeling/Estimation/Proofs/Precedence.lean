import Estimation.Proofs.Grouping
import Estimation.Proofs.Nesting.Limits

/-!
Operations are grouped by precedence. What a reader has read so far fits to the left of the operator that
comes next, whether the reader goes on with it or leaves it to one further out.
-/

namespace Estimation.Syntax

/-- Operands that are one token, with operators before them as there may be and operators between them. -/
inductive Alternates : List Token → Prop
  | operand {token : Token} : token.kind.isOperand → Alternates [token]
  | sign {op : UnaryOp} {sign : Token} {rest : List Token} :
      UnaryOp.ofKind? sign.kind = some op → Alternates rest → Alternates (sign :: rest)
  | join {op : BinaryOp} {token sign : Token} {rest : List Token} :
      token.kind.isOperand → BinaryOp.ofKind? sign.kind = some op → Alternates rest →
      Alternates (token :: sign :: rest)

namespace Alternates

theorem behind {op : UnaryOp} {sign : Token} {tokens rest : List Token} (h : Alternates tokens)
    (htokens : tokens = sign :: rest) (hsign : UnaryOp.ofKind? sign.kind = some op) :
    Alternates rest := by
  subst htokens
  cases h with
  | operand htoken => exact absurd htoken (by simp [UnaryOp.not_isOperand hsign])
  | sign _ hrest => exact hrest
  | join htoken => exact absurd htoken (by simp [UnaryOp.not_isOperand hsign])

theorem operand_of_unaryOp {c : Cursor} (h : Alternates c.tokens) (hnone : c.unaryOp? = none) :
    ∃ token rest, c.tokens = token :: rest ∧ token.kind.isOperand := by
  obtain ⟨tokens, stop, before⟩ := c
  dsimp only at h
  cases h with
  | operand htoken => exact ⟨_, _, rfl, htoken⟩
  | sign hsign _ => exact absurd (Option.map_eq_none_iff.1 hnone) (by simp [hsign])
  | join htoken => exact ⟨_, _, rfl, htoken⟩

end Alternates

namespace Grouping

/-- The expression that a grouping stands for: a node for every operator, but that a minus before a number
is part of the number. -/
inductive Means : Grouping → Expr → Prop
  | number {written : String} {value : Float} {span : Span} {newline : Bool} :
      Token.numberValue? written = some value →
      Means (.operand ⟨.number written, span, newline⟩) (.number value span)
  | string {content : String} {span : Span} {newline : Bool} :
      Means (.operand ⟨.string content, span, newline⟩) (.string content span)
  | true {span : Span} {newline : Bool} :
      Means (.operand ⟨.keyword .trueWord, span, newline⟩) (.bool true span)
  | false {span : Span} {newline : Bool} :
      Means (.operand ⟨.keyword .falseWord, span, newline⟩) (.bool false span)
  | name {written : String} {span : Span} {newline : Bool} :
      Means (.operand ⟨.name written, span, newline⟩) (.identifier written span)
  | negative {sign : Token} {inner : Grouping} {value : Float} {span : Span} :
      Means inner (.number value span) →
      Means (.unary .minus sign inner) (.number (-value) ⟨sign.span.start, span.stop⟩)
  | unary {op : UnaryOp} {sign : Token} {inner : Grouping} {e : Expr} :
      Means inner e → (op = .minus → ∀ value span, e ≠ .number value span) →
      Means (.unary op sign inner) (.unary op e ⟨sign.span.start, e.span.stop⟩)
  | binary {op : BinaryOp} {sign : Token} {left right : Grouping} {l r : Expr} :
      Means left l → Means right r →
      Means (.binary op left sign right) (.binary op l r (l.span.through r.span))

variable {g : Grouping} {e : Expr} {op : BinaryOp} {bound : Nat}

theorem Means.apply (h : g.Means e) (op : UnaryOp) (sign : Token) :
    Means (.unary op sign g) (op.apply e ⟨sign.span.start, e.span.stop⟩) := by
  unfold UnaryOp.apply
  split
  · exact .negative h
  · next hother => exact .unary h fun hop value span he => hother value span hop he

theorem Means.unique (h : g.Means e) {e' : Expr} (h' : g.Means e') : e = e' := by
  induction h generalizing e' with
  | number hvalue =>
    cases h' with
    | number hvalue' => rw [Option.some.inj (hvalue.symm.trans hvalue')]
  | string | true | false | name => cases h' with | _ => rfl
  | negative _ ih =>
    cases h' with
    | negative h' => cases ih h' with | refl => rfl
    | unary h' hother => exact absurd (ih h').symm (hother rfl _ _)
  | unary _ hother ih =>
    cases h' with
    | negative h' => exact absurd (ih h') (hother rfl _ _)
    | unary h' _ => rw [ih h']
  | binary _ _ ihLeft ihRight =>
    cases h' with
    | binary hl hr => rw [ihLeft hl, ihRight hr]

/-- An operator outside of all others binds tighter than a bound. -/
def Above (bound : Nat) : Grouping → Prop
  | .binary op _ _ _ => bound < op.precedence
  | _ => True

theorem Above.fitsRight (h : g.Above op.rightBound) : g.FitsRight op := by
  by_cases hop : op = .power
  · subst hop
    cases g with
    | binary own _ _ _ =>
      have hown : UnaryOp.precedence ≤ own.precedence := Nat.le_trans (by decide) (Nat.le_of_lt h)
      exact BinaryOp.eq_power.1 hown
    | _ => trivial
  · rw [BinaryOp.rightBound_of_ne hop] at h
    rw [fitsRight_of_ne hop]
    cases g with
    | operand _ => trivial
    | unary _ _ _ => exact BinaryOp.precedence_lt hop
    | binary _ _ _ _ => exact h

theorem Above.isTight (h : g.Above UnaryOp.precedence) : g.IsTight := by
  cases g with
  | binary own _ _ _ => exact BinaryOp.eq_power.1 (Nat.le_of_lt h)
  | _ => trivial

end Grouping

open Grouping

namespace Cursor

theorem ofKind_of_binaryOp {c : Cursor} {sign : Token} {rest : List Token} (h : c.binaryOp? = none)
    (htokens : c.tokens = sign :: rest) : BinaryOp.ofKind? sign.kind = none := by
  unfold binaryOp? at h
  split at h
  · next hnil => cases hnil.symm.trans htokens
  · next htokens' =>
    cases htokens'.symm.trans htokens
    exact Option.map_eq_none_iff.1 h

end Cursor

namespace Reader

/-- An operator comes next that the grouping fits to the left of, or nothing does. -/
def Before (g : Grouping) (tokens : List Token) : Prop :=
  tokens = [] ∨ ∃ op sign rest, tokens = sign :: rest ∧ BinaryOp.ofKind? sign.kind = some op ∧
    g.FitsLeft op ∧ Alternates rest

/-- The operator that comes next binds no tighter than a bound. -/
def Stops (bound : Nat) (tokens : List Token) : Prop :=
  ∀ op sign rest, tokens = sign :: rest → BinaryOp.ofKind? sign.kind = some op → op.precedence ≤ bound

/-- What has been read from the front of some tokens, with what is behind it. -/
structure Reading (tokens : List Token) (g : Grouping) (e : Expr) (c : Cursor) : Prop where
  tokens : g.tokens ++ c.tokens = tokens
  means : g.Means e
  spelled : g.Spelled
  grouped : g.Grouped
  before : Before g c.tokens

theorem Before.of_cons {g : Grouping} {tokens rest : List Token} {op : BinaryOp} {sign : Token}
    (h : Before g tokens) (htokens : tokens = sign :: rest)
    (hsign : BinaryOp.ofKind? sign.kind = some op) : g.FitsLeft op ∧ Alternates rest := by
  subst htokens
  obtain h | ⟨own, mark, rest', heq, hmark, hfits, hrest⟩ := h
  · cases h
  · cases heq
    obtain rfl := Option.some.inj (hmark.symm.trans hsign)
    exact ⟨hfits, hrest⟩

/-- Any operator fits behind an operand by itself. -/
theorem Before.operand {token : Token} {rest : List Token} (h : Alternates (token :: rest))
    (htoken : token.kind.isOperand) : Before (.operand token) rest := by
  cases h with
  | operand _ => exact .inl rfl
  | sign hsign _ => exact absurd htoken (by simp [UnaryOp.not_isOperand hsign])
  | join _ hsign hrest =>
    refine .inr ⟨_, _, _, rfl, hsign, ?_, hrest⟩
    unfold FitsLeft
    split <;> trivial

/-- Behind an operator before an operand those fit that do not bind tighter. -/
theorem Before.unary {own : UnaryOp} {sign : Token} {inner : Grouping} {tokens : List Token}
    (h : Before inner tokens) (hstops : Stops UnaryOp.precedence tokens) :
    Before (.unary own sign inner) tokens := by
  refine h.imp id ?_
  rintro ⟨op, mark, rest, rfl, hmark, -, hrest⟩
  have hle := hstops op mark rest rfl hmark
  have hop : op ≠ .power := by
    rintro rfl
    exact absurd hle (by decide)
  exact ⟨op, mark, rest, rfl, hmark, (fitsLeft_of_ne hop).2 hle, hrest⟩

/-- Behind a right operand those fit that are not part of it. -/
theorem Before.binary {own : BinaryOp} {sign : Token} {left right : Grouping} {tokens : List Token}
    (h : Before right tokens) (hstops : Stops own.rightBound tokens) :
    Before (.binary own left sign right) tokens := by
  refine h.imp id ?_
  rintro ⟨op, mark, rest, rfl, hmark, -, hrest⟩
  obtain ⟨hop, hle⟩ := BinaryOp.looser (hstops op mark rest rfl hmark)
  exact ⟨op, mark, rest, rfl, hmark, (fitsLeft_of_ne hop).2 hle, hrest⟩

/-- A reader of operands, with operators before them as there may be. -/
def ReadsOperand (unary : Reader Expr) : Prop :=
  ∀ c, Alternates c.tokens → Gives (fun p => ∃ g, Reading c.tokens g p.value p.rest ∧
    ∀ bound, g.Above bound) (unary c)

variable {unary : Reader Expr}

theorem climb_reading (hunary : ReadsOperand unary) {bound : Nat} {tokens : List Token} {g : Grouping}
    {left : Expr} {c : Cursor} (hg : Reading tokens g left c) (habove : g.Above bound) :
    Gives (fun p => ∃ g', Reading tokens g' p.value p.rest ∧ g'.Above bound ∧
      Stops bound p.rest.tokens) (climb unary bound left c) := by
  rw [climb]
  split
  · next op c₁ h₁ hop =>
    obtain ⟨sign, hsign, htokens⟩ := Cursor.tokens_of_binaryOp hop
    split
    · next hbound =>
      obtain ⟨hfits, hrest⟩ := hg.before.of_cons htokens hsign
      refine (hunary c₁ hrest).bind ?_
      rintro ⟨operand, c₂, h₂⟩ ⟨u, hu, huabove⟩
      have hlt₂ : c₂.left < c.left := Nat.lt_trans h₂ h₁
      refine (climb_reading hunary hu (huabove op.rightBound)).bind ?_
      rintro ⟨right, c₃, h₃⟩ ⟨r, hr, hrabove, hrstops⟩
      have hlt₃ : c₃.left < c.left := Nat.lt_of_le_of_lt h₃ hlt₂
      have hwhole : Reading tokens (.binary op g sign r)
          (.binary op left right (left.span.through right.span)) c₃ := by
        refine ⟨?_, .binary hg.means hr.means, ⟨hsign, hg.spelled, hr.spelled⟩,
          ⟨⟨hfits, hrabove.fitsRight⟩, hg.grouped, hr.grouped⟩, hr.before.binary hrstops⟩
        rw [Grouping.tokens, ← hg.tokens, htokens, ← hr.tokens]
        simp
      refine (climb_reading hunary hwhole hbound).bind ?_
      rintro ⟨e, c₄, h₄⟩ ⟨g', hg', habove', hstops'⟩
      exact ⟨g', hg', habove', hstops'⟩
    · next hbound =>
      refine ⟨g, hg, habove, fun own mark rest hmark hown => ?_⟩
      obtain ⟨rfl, -⟩ := List.cons.inj (htokens.symm.trans hmark)
      obtain rfl := Option.some.inj (hsign.symm.trans hown)
      exact Nat.le_of_not_lt hbound
  · next hnone =>
    refine ⟨g, hg, habove, fun own mark rest hmark hown => ?_⟩
    exact absurd hown (by simp [Cursor.ofKind_of_binaryOp hnone hmark])
  termination_by c.left

theorem operation_reading (hunary : ReadsOperand unary) (bound : Nat) {c : Cursor}
    (hc : Alternates c.tokens) : Gives (fun p => ∃ g, Reading c.tokens g p.value p.rest ∧
      g.Above bound ∧ Stops bound p.rest.tokens) (operation unary bound c) := by
  refine (hunary c hc).bind ?_
  rintro ⟨left, c₁, h₁⟩ ⟨u, hu, huabove⟩
  refine (climb_reading hunary hu (huabove bound)).bind ?_
  rintro ⟨e, c₂, h₂⟩ ⟨g, hg, habove, hstops⟩
  exact ⟨g, hg, habove, hstops⟩

theorem suffix_before {target : Expr} {c : Cursor} {g : Grouping} (h : Before g c.tokens) :
    suffix? unary target c = none := by
  obtain ⟨tokens, stop, before⟩ := c
  obtain rfl | ⟨op, sign, rest, rfl, hsign, -, -⟩ := h
  · rfl
  · obtain ⟨kind, span, newline⟩ := sign
    dsimp only at hsign
    cases kind with
    | symbol sign => cases sign <;> first | rfl | cases hsign
    | _ => rfl

theorem primary_means {c : Cursor} {token : Token} {rest : List Token}
    (htokens : c.tokens = token :: rest) (htoken : token.kind.isOperand) :
    Gives (fun p => p.rest.tokens = rest ∧ (Grouping.operand token).Means p.value)
      (primary unary c) := by
  obtain ⟨tokens, stop, before⟩ := c
  obtain rfl : tokens = token :: rest := htokens
  obtain ⟨kind, span, newline⟩ := token
  cases kind with
  | number written =>
    unfold primary
    dsimp only
    rcases hvalue : Token.numberValue? written with _ | value
    · trivial
    · exact ⟨rfl, .number hvalue⟩
  | string content => exact ⟨rfl, .string⟩
  | name written => exact ⟨rfl, .name⟩
  | keyword word =>
    cases word with
    | trueWord => exact ⟨rfl, .true⟩
    | falseWord => exact ⟨rfl, .false⟩
    | _ => cases htoken
  | _ => cases htoken

theorem operand_reading (hunary : ReadsOperand unary) : ReadsOperand (operand unary) := by
  intro c hc
  unfold operand
  dsimp only
  split
  · next op c₁ h₁ hop =>
    obtain ⟨sign, hsign, htokens⟩ := Cursor.tokens_of_unaryOp hop
    refine (operation_reading hunary UnaryOp.precedence (hc.behind htokens hsign)).bind ?_
    rintro ⟨e, c₂, h₂⟩ ⟨g, hg, habove, hstops⟩
    have hstart : c.current.span.start = sign.span.start := by rw [Cursor.current, htokens, List.headD_cons]
    refine ⟨.unary op sign g, ⟨?_, hstart ▸ hg.means.apply op sign, ⟨hsign, hg.spelled⟩,
      ⟨habove.isTight, hg.grouped⟩, hg.before.unary hstops⟩, fun _ => trivial⟩
    rw [htokens, ← hg.tokens, Grouping.tokens, List.cons_append]
  · next hnone =>
    obtain ⟨token, rest, htokens, htoken⟩ := hc.operand_of_unaryOp hnone
    refine (primary_means htokens htoken).bind ?_
    rintro ⟨e, c₁, h₁⟩ ⟨hrest, hmeans⟩
    have hbefore : Before (.operand token) c₁.tokens := by
      rw [hrest]
      exact .operand (htokens ▸ hc) htoken
    rw [suffixes, suffix_before hbefore]
    refine ⟨.operand token, ⟨?_, hmeans, htoken, trivial, hbefore⟩, fun _ => trivial⟩
    rw [htokens, ← hrest]
    rfl

theorem unaryWithin_reading (depth : Nat) : ReadsOperand (unaryWithin depth) := by
  induction depth with
  | zero => exact fun _ _ => trivial
  | succ depth ih => exact operand_reading ih

/-- Where operands joined by operators, with operators before the operands, are accepted, they are read to
their end as the expression of the one grouping of them in which every operator has operands that its
precedence and its side allow. -/
theorem operation_groups {c : Cursor} (hc : Alternates c.tokens) {p : Parsed Expr c}
    (hp : operation Reader.unary 0 c = .ok p) : p.rest.tokens = [] ∧
      ∃ g : Grouping, g.Groups c.tokens ∧ g.Means p.value ∧
        ∀ g' : Grouping, g'.Groups c.tokens → g' = g ∧ ∀ e, g'.Means e → e = p.value := by
  have hreading := operation_reading (unaryWithin_reading maxNesting) 0 hc
  change Gives _ (operation Reader.unary 0 c) at hreading
  rw [hp] at hreading
  obtain ⟨g, hg, -, hstops⟩ := hreading
  have hrest : p.rest.tokens = [] := by
    refine hg.before.resolve_right ?_
    rintro ⟨op, sign, rest, hrest, hsign, -, -⟩
    exact absurd (hstops op sign rest hrest hsign) (Nat.not_le.2 (BinaryOp.precedence_pos op))
  have htokens := hg.tokens
  rw [hrest, List.append_nil] at htokens
  have hgroups : g.Groups c.tokens := ⟨htokens, hg.spelled, hg.grouped⟩
  refine ⟨hrest, g, hgroups, hg.means, fun g' hg' => ?_⟩
  obtain rfl := hg'.unique hgroups
  exact ⟨rfl, fun e he => he.unique hg.means⟩

end Reader

namespace Precedence

def token (i : Nat) (kind : Token.Kind) : Token :=
  ⟨kind, ⟨⟨1, i + 1, i⟩, ⟨1, i + 2, i + 1⟩⟩, false⟩

/-- The tokens of a text without blanks, `-a^b^-2*!c+d`. -/
def cursor : Cursor where
  tokens := [token 0 (.symbol .minus), token 1 (.name "a"), token 2 (.symbol .caret), token 3 (.name "b"),
    token 4 (.symbol .caret), token 5 (.symbol .minus), token 6 (.number "2"), token 7 (.symbol .star),
    token 8 (.symbol .bang), token 9 (.name "c"), token 10 (.symbol .plus), token 11 (.name "d")]
  stop := token 12 .stop
  before := .origin

/-- `((-(a^(b^(-2))))*(!c))+d` -/
def grouping : Grouping :=
  .binary .add
    (.binary .multiply
      (.unary .minus (token 0 (.symbol .minus))
        (.binary .power (.operand (token 1 (.name "a"))) (token 2 (.symbol .caret))
          (.binary .power (.operand (token 3 (.name "b"))) (token 4 (.symbol .caret))
            (.unary .minus (token 5 (.symbol .minus)) (.operand (token 6 (.number "2")))))))
      (token 7 (.symbol .star))
      (.unary .not (token 8 (.symbol .bang)) (.operand (token 9 (.name "c")))))
    (token 10 (.symbol .plus)) (.operand (token 11 (.name "d")))

theorem cursor_alternates : Alternates cursor.tokens :=
  .sign rfl (.join rfl rfl (.join rfl rfl (.sign rfl (.join rfl rfl (.sign rfl (.join rfl rfl
    (.operand rfl)))))))

theorem grouping_groups : grouping.Groups cursor.tokens where
  tokens := rfl
  spelled := by simp [grouping, Spelled, token, Token.Kind.isOperand, UnaryOp.ofKind?, BinaryOp.ofKind?]
  grouped := by
    simp [grouping, Grouped, FitsLeft, FitsRight, BindsAt, IsOperand, IsTight, BinaryOp.groupsLeft,
      BinaryOp.precedence, UnaryOp.precedence]

set_option maxRecDepth 100000 in
theorem operation_cursor : (Reader.operation Reader.unary 0 cursor).toOption.isSome := by
  decide +kernel

theorem operation_groups_cursor : Alternates cursor.tokens ∧
    ∃ p, Reader.operation Reader.unary 0 cursor = .ok p ∧ p.rest.tokens = [] ∧
      grouping.Groups cursor.tokens ∧ grouping.Means p.value ∧
      ∀ g : Grouping, g.Groups cursor.tokens → g = grouping ∧ ∀ e, g.Means e → e = p.value := by
  obtain ⟨p, hp⟩ := Option.isSome_iff_exists.1 operation_cursor
  have hp := ok_of_toOption hp
  obtain ⟨hrest, g, hgroups, hmeans, hunique⟩ := Reader.operation_groups cursor_alternates hp
  obtain ⟨rfl, -⟩ := hunique grouping grouping_groups
  exact ⟨cursor_alternates, p, hp, hrest, hgroups, hmeans, hunique⟩

end Precedence

end Estimation.Syntax
