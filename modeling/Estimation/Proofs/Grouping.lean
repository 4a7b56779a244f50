import Estimation.Syntax.Grammar

/-!
Operands joined by operators, grouped by precedence. A grouping still has all of its tokens. Groupings by
precedence are made from left to right: what is there is extended by one operator and its operand after
the other, along its right edge, so that the tokens leave no choice.
-/

namespace Estimation

namespace Token.Kind

/-- Operands that are one token. -/
def isOperand : Kind → Bool
  | .number _ => true
  | .string _ => true
  | .name _ => true
  | .keyword .trueWord => true
  | .keyword .falseWord => true
  | _ => false

end Token.Kind

namespace Syntax

namespace UnaryOp

theorem not_isOperand {kind : Token.Kind} {op : UnaryOp} (h : ofKind? kind = some op) :
    kind.isOperand = false := by
  unfold ofKind? at h
  split at h <;> first | rfl | cases h

end UnaryOp

namespace BinaryOp

theorem not_isOperand {kind : Token.Kind} {op : BinaryOp} (h : ofKind? kind = some op) :
    kind.isOperand = false := by
  unfold ofKind? at h
  split at h <;> first | rfl | cases h

theorem eq_power {op : BinaryOp} : UnaryOp.precedence ≤ op.precedence ↔ op = .power := by
  cases op <;> decide

theorem rightBound_power : rightBound .power = 79 := rfl

theorem rightBound_of_ne {op : BinaryOp} (h : op ≠ .power) : op.rightBound = op.precedence := by
  simp [rightBound, groupsLeft, h]

/-- What a right operand may end in binds as tightly as the operator itself, and is not its own. -/
theorem tighter {op own : BinaryOp}
    (h : min (op.rightBound + 1) UnaryOp.precedence ≤ own.precedence) :
    op.rightBound < own.precedence ∧ op.precedence ≤ own.precedence := by
  revert h
  cases op <;> cases own <;> decide

/-- What is no part of a right operand may take the operator with it as its left one. -/
theorem looser {op own : BinaryOp} (h : op.precedence ≤ own.rightBound) :
    op ≠ .power ∧ op.precedence ≤ own.precedence := by
  revert h
  cases op <;> cases own <;> decide

theorem precedence_pos (op : BinaryOp) : 0 < op.precedence := by cases op <;> decide

theorem precedence_lt {op : BinaryOp} (h : op ≠ .power) : op.precedence < UnaryOp.precedence :=
  Nat.lt_of_not_le fun hle => h (eq_power.1 hle)

end BinaryOp

inductive Grouping where
  | operand (token : Token)
  | unary (op : UnaryOp) (sign : Token) (inner : Grouping)
  | binary (op : BinaryOp) (left : Grouping) (sign : Token) (right : Grouping)

namespace Grouping

/-- The tokens of a grouping, in order. -/
def tokens : Grouping → List Token
  | .operand token => [token]
  | .unary _ sign inner => sign :: inner.tokens
  | .binary _ left sign right => left.tokens ++ sign :: right.tokens

/-- Operands are operands, and operators those of their signs. -/
def Spelled : Grouping → Prop
  | .operand token => token.kind.isOperand
  | .unary op sign inner => UnaryOp.ofKind? sign.kind = some op ∧ inner.Spelled
  | .binary op left sign right =>
    BinaryOp.ofKind? sign.kind = some op ∧ left.Spelled ∧ right.Spelled

/-- The outermost operator, if there is one, binds at least so tightly. -/
def BindsAt (level : Nat) : Grouping → Prop
  | .operand _ => True
  | .unary _ _ _ => level ≤ UnaryOp.precedence
  | .binary op _ _ _ => level ≤ op.precedence

/-- An operand by itself. -/
def IsOperand : Grouping → Prop
  | .operand _ => True
  | _ => False

/-- An operand, an operator before what it is for, or a power. -/
def IsTight : Grouping → Prop
  | .operand _ => True
  | .unary _ _ _ => True
  | .binary op _ _ _ => op = .power

/-- What may be the left operand. -/
def FitsLeft (op : BinaryOp) (g : Grouping) : Prop :=
  if op.groupsLeft then g.BindsAt op.precedence else g.IsOperand

/-- What may be the right operand. -/
def FitsRight (op : BinaryOp) (g : Grouping) : Prop :=
  if op.groupsLeft then g.BindsAt (op.precedence + 1) else g.IsTight

/-- Every operator has operands that it may have. -/
def Grouped : Grouping → Prop
  | .operand _ => True
  | .unary _ _ inner => inner.IsTight ∧ inner.Grouped
  | .binary op left _ right => (left.FitsLeft op ∧ right.FitsRight op) ∧ left.Grouped ∧ right.Grouped

/-- Groups tokens by precedence. -/
structure Groups (g : Grouping) (tokens : List Token) : Prop where
  tokens : g.tokens = tokens
  spelled : g.Spelled
  grouped : g.Grouped

variable {g g' u u' l : Grouping} {op : BinaryOp} {sign : Token} {level : Nat} {ts us : List Token}

theorem BindsAt.mono (h : g.BindsAt level) {lower : Nat} (hl : lower ≤ level) : g.BindsAt lower := by
  cases g with
  | operand _ => trivial
  | unary _ _ _ => exact Nat.le_trans hl h
  | binary _ _ _ _ => exact Nat.le_trans hl h

theorem bindsAt_zero : g.BindsAt 0 := by
  cases g with
  | operand _ => trivial
  | _ => exact Nat.zero_le _

theorem isTight_iff : g.IsTight ↔ g.BindsAt UnaryOp.precedence := by
  cases g with
  | operand _ => exact Iff.rfl
  | unary _ _ _ => exact iff_of_true trivial (Nat.le_refl _)
  | binary op _ _ _ => exact BinaryOp.eq_power.symm

theorem fitsLeft_power : g.FitsLeft .power ↔ g.IsOperand := Iff.rfl

theorem fitsRight_power : g.FitsRight .power ↔ g.IsTight := Iff.rfl

theorem fitsLeft_of_ne (h : op ≠ .power) : g.FitsLeft op ↔ g.BindsAt op.precedence := by
  simp [FitsLeft, BinaryOp.groupsLeft, h]

theorem fitsRight_of_ne (h : op ≠ .power) : g.FitsRight op ↔ g.BindsAt (op.precedence + 1) := by
  simp [FitsRight, BinaryOp.groupsLeft, h]

theorem FitsLeft.bindsAt (h : g.FitsLeft op) : g.BindsAt op.precedence := by
  by_cases hop : op = .power
  · subst hop
    cases g with
    | operand _ => trivial
    | _ => exact False.elim h
  · exact (fitsLeft_of_ne hop).1 h

/-- The operators that a right operand may end in are those that bind tighter than the bound. -/
theorem FitsRight.bindsAt (h : g.FitsRight op) : g.BindsAt (min (op.rightBound + 1) UnaryOp.precedence) := by
  by_cases hop : op = .power
  · subst hop
    exact isTight_iff.1 h
  · rw [BinaryOp.rightBound_of_ne hop]
    exact ((fitsRight_of_ne hop).1 h).mono (Nat.min_le_left _ _)

/-! ### Groupings from left to right -/

/-- Operators before an operand, and no others. -/
def IsPlain : Grouping → Prop
  | .operand _ => True
  | .unary _ _ inner => inner.IsPlain
  | .binary _ _ _ _ => False

/-- One more operator with its operand, at the place that precedence leaves for it. -/
def extend (op : BinaryOp) (sign : Token) (u : Grouping) : Grouping → Grouping
  | .operand token => .binary op (.operand token) sign u
  | .unary own mark inner =>
    if op = .power then .unary own mark (extend op sign u inner)
    else .binary op (.unary own mark inner) sign u
  | .binary own left mark right =>
    if own.rightBound < op.precedence then .binary own left mark (extend op sign u right)
    else .binary op (.binary own left mark right) sign u

/-- A grouping becomes another by what is behind it, operators of a level with their operands. -/
inductive Becomes (level : Nat) : Grouping → List Token → Grouping → Prop
  | done {g : Grouping} : Becomes level g [] g
  | step {g g' u : Grouping} {op : BinaryOp} {sign : Token} {ts : List Token} :
      level ≤ op.precedence → BinaryOp.ofKind? sign.kind = some op → u.IsPlain → u.Spelled →
      Becomes level (extend op sign u g) ts g' → Becomes level g (sign :: (u.tokens ++ ts)) g'

/-- Where a plain grouping ends is told by its tokens. -/
theorem IsPlain.unique (hu : u.IsPlain) (hu' : u'.IsPlain) (hs : u.Spelled) (hs' : u'.Spelled)
    (h : u.tokens ++ ts = u'.tokens ++ us) : u = u' ∧ ts = us := by
  induction u generalizing u' with
  | operand token =>
    cases u' with
    | operand _ => simpa [tokens] using h
    | unary _ _ _ =>
      obtain ⟨rfl, -⟩ := List.cons.inj h
      exact absurd hs (by simp [Spelled, UnaryOp.not_isOperand hs'.1])
    | binary _ _ _ _ => exact hu'.elim
  | unary op sign inner ih =>
    cases u' with
    | operand _ =>
      obtain ⟨rfl, -⟩ := List.cons.inj h
      exact absurd hs' (by simp [Spelled, UnaryOp.not_isOperand hs.1])
    | unary _ _ inner' =>
      obtain ⟨rfl, hrest⟩ := List.cons.inj h
      have hu' : inner'.IsPlain := hu'
      obtain ⟨rfl, hts⟩ := ih hu hu' hs.2 hs'.2 hrest
      obtain rfl := Option.some.inj (hs.1.symm.trans hs'.1)
      exact ⟨rfl, hts⟩
    | binary _ _ _ _ => exact hu'.elim
  | binary _ _ _ _ => exact hu.elim

namespace Becomes

theorem append {g₁ g₂ : Grouping} (h : Becomes level g ts g₁) (h' : Becomes level g₁ us g₂) :
    Becomes level g (ts ++ us) g₂ := by
  induction h with
  | done => exact h'
  | step hop hsign hu hs _ ih =>
    rw [List.cons_append, List.append_assoc]
    exact .step hop hsign hu hs (ih h')

theorem mono (h : Becomes level g ts g') {lower : Nat}
    (hl : ∀ own : BinaryOp, level ≤ own.precedence → lower ≤ own.precedence) :
    Becomes lower g ts g' := by
  induction h with
  | done => exact .done
  | step hop hsign hu hs _ ih => exact .step (hl _ hop) hsign hu hs ih

theorem unique (h : Becomes level g ts g') {g'' : Grouping} (h' : Becomes level g ts g'') :
    g' = g'' := by
  induction h with
  | done => cases h' with
    | done => rfl
  | step _ hsign hu hs _ ih =>
    generalize hts : _ :: _ = all at h'
    cases h' with
    | done => cases hts
    | step _ hsign' hu' hs' h' =>
      obtain ⟨rfl, hrest⟩ := List.cons.inj hts
      obtain ⟨rfl, rfl⟩ := hu.unique hu' hs hs' hrest
      obtain rfl := Option.some.inj (hsign.symm.trans hsign')
      exact ih h'

/-- Only powers go on inside of what an operator is before. -/
theorem unary (h : Becomes UnaryOp.precedence g ts g') (op : UnaryOp) (sign : Token) :
    Becomes UnaryOp.precedence (.unary op sign g) ts (.unary op sign g') := by
  induction h with
  | done => exact .done
  | step hop hsign hu hs _ ih =>
    refine .step hop hsign hu hs ?_
    rw [extend, if_pos (BinaryOp.eq_power.1 hop)]
    exact ih

/-- Tighter operators go on inside of the right operand. -/
theorem right (h : Becomes level g ts g')
    (hop : ∀ own : BinaryOp, level ≤ own.precedence → op.rightBound < own.precedence)
    (left : Grouping) (sign : Token) :
    Becomes level (.binary op left sign g) ts (.binary op left sign g') := by
  induction h with
  | done => exact .done
  | step hlevel hsign hu hs _ ih =>
    refine .step hlevel hsign hu hs ?_
    rw [extend, if_pos (hop _ hlevel)]
    exact ih

end Becomes

/-- An operator goes around what may be its left operand. -/
theorem extend_of_fitsLeft (h : l.FitsLeft op) : extend op sign u l = .binary op l sign u := by
  by_cases hop : op = .power
  · subst hop
    cases l with
    | operand _ => rfl
    | _ => exact False.elim h
  · have hlevel := (fitsLeft_of_ne hop).1 h
    cases l with
    | operand _ => rfl
    | unary _ _ _ => rw [extend, if_neg hop]
    | binary own _ _ _ =>
      have hown : op.precedence ≤ own.rightBound := by
        by_cases hpower : own = .power
        · have := BinaryOp.precedence_lt hop
          rw [hpower, BinaryOp.rightBound_power]
          exact Nat.le_of_lt (Nat.lt_of_lt_of_le this (by decide))
        · rw [BinaryOp.rightBound_of_ne hpower]
          exact hlevel
      rw [extend, if_neg (Nat.not_lt.2 hown)]

/-- Precedence leaves one way to make a grouping from left to right. -/
theorem Grouped.exists_becomes (hg : g.Grouped) (hs : g.Spelled) (hlevel : g.BindsAt level) :
    ∃ u ts, u.IsPlain ∧ u.Spelled ∧ g.tokens = u.tokens ++ ts ∧ Becomes level u ts g := by
  induction g generalizing level with
  | operand token => exact ⟨.operand token, [], trivial, hs, rfl, .done⟩
  | unary op sign inner ih =>
    obtain ⟨u, ts, hu, hus, htokens, hb⟩ := ih hg.2 hs.2 (isTight_iff.1 hg.1)
    have hlevel : level ≤ UnaryOp.precedence := hlevel
    refine ⟨.unary op sign u, ts, hu, ⟨hs.1, hus⟩, ?_,
      (hb.unary op sign).mono fun _ hown => Nat.le_trans hlevel hown⟩
    rw [tokens, htokens, tokens, List.cons_append]
  | binary op left sign right ihLeft ihRight =>
    obtain ⟨hsign, hls, hrs⟩ := hs
    obtain ⟨⟨hl, hr⟩, hlg, hrg⟩ := hg
    have hlevel : level ≤ op.precedence := hlevel
    obtain ⟨u, ts, hu, hus, htokens, hb⟩ := ihLeft hlg hls (hl.bindsAt.mono hlevel)
    obtain ⟨v, ts', hv, hvs, htokens', hb'⟩ := ihRight hrg hrs hr.bindsAt
    refine ⟨u, ts ++ sign :: (v.tokens ++ ts'), hu, hus, ?_, hb.append (.step hlevel hsign hv hvs ?_)⟩
    · rw [tokens, htokens, htokens', List.append_assoc]
    · -- the rest of the right operand is behind the operand that the operator has been given
      rw [extend_of_fitsLeft hl]
      exact (hb'.right (fun _ hown => (BinaryOp.tighter hown).1) left sign).mono
        fun _ hown => Nat.le_trans hlevel (BinaryOp.tighter hown).2

/-- Tokens are grouped by precedence in one way. -/
theorem Groups.unique (h : g.Groups ts) (h' : g'.Groups ts) : g = g' := by
  obtain ⟨u, us, hu, hus, htokens, hb⟩ := h.grouped.exists_becomes h.spelled bindsAt_zero
  obtain ⟨u', us', hu', hus', htokens', hb'⟩ := h'.grouped.exists_becomes h'.spelled bindsAt_zero
  have hsame : u.tokens ++ us = u'.tokens ++ us' := by
    rw [← htokens, ← htokens', h.tokens, h'.tokens]
  obtain ⟨rfl, rfl⟩ := hu.unique hu' hus hus' hsame
  exact hb.unique hb'

end Grouping

end Syntax

end Estimation
