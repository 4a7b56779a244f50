import Estimation.Proofs.Tokens
import Estimation.Syntax.Grammar

/-!
How a program lies on its tokens: each piece of it from the start of a token to the end of one, the
pieces that it is made of one behind the other within it.
-/

namespace Estimation

open List

namespace Follow

variable {a b c : Nat} {ss ts : List Span} {s : Span}

theorem le (h : Follow a ss b) : a ≤ b := by
  induction ss generalizing a with
  | nil => exact h
  | cons s ss ih =>
    obtain ⟨has, hs, h⟩ := h
    have := ih h
    omega

theorem mono (h : Follow b ss c) (ha : a ≤ b) : Follow a ss c := by
  cases ss with
  | nil => exact Nat.le_trans ha h
  | cons s ss => exact ⟨Nat.le_trans ha h.1, h.2⟩

theorem append (h : Follow a ss b) (h' : Follow b ts c) : Follow a (ss ++ ts) c := by
  induction ss generalizing a with
  | nil => exact h'.mono h
  | cons s ss ih => exact ⟨h.1, h.2.1, ih h.2.2⟩

theorem weaken (h : Follow a ss b) (hb : b ≤ c) : Follow a ss c := by
  have happend : Follow a (ss ++ []) c := h.append hb
  rwa [append_nil] at happend

theorem lt (h : Follow a ss b) (hss : ss ≠ []) : a < b := by
  cases ss with
  | nil => exact absurd rfl hss
  | cons s ss =>
    have := h.2.2.le
    have := h.1
    have := h.2.1
    omega

theorem starts (h : Follow a ss b) : ∀ s ∈ ss, a ≤ s.start.offset := by
  induction ss generalizing a with
  | nil => nofun
  | cons s ss ih =>
    refine forall_mem_cons.2 ⟨h.1, fun t ht => ?_⟩
    exact Nat.le_trans (Nat.le_trans h.1 (Nat.le_of_lt h.2.1)) (ih h.2.2 t ht)

theorem stops (h : Follow a ss b) : ∀ s ∈ ss, s.stop.offset ≤ b := by
  induction ss generalizing a with
  | nil => nofun
  | cons s ss ih => exact forall_mem_cons.2 ⟨h.2.2.le, ih h.2.2⟩

theorem pairwise (h : Follow a ss b) : ss.Pairwise fun s t => s.stop.offset ≤ t.start.offset := by
  induction ss generalizing a with
  | nil => exact .nil
  | cons s ss ih => exact .cons h.2.2.starts (ih h.2.2)

/-- What follows the first of some spans, to the end of the last. -/
theorem between {r : Span} (h : Follow a (ss ++ [r]) b) : Follow a (ss ++ [r]) r.stop.offset ∧
    r.stop.offset ≤ b := by
  induction ss generalizing a with
  | nil => exact ⟨⟨h.1, h.2.1, Nat.le_refl _⟩, h.2.2⟩
  | cons s ss ih =>
    obtain ⟨hr, hb⟩ := ih h.2.2
    exact ⟨⟨h.1, h.2.1, hr⟩, hb⟩

end Follow

namespace Syntax

/-- What has a span below the root of a program: a `mark` is the name of a parameter, the key of an
entry, or an import. -/
inductive Piece where
  | expr (e : Expr)
  | statement (s : Statement Expr)
  | mark (span : Span)

namespace Piece

def span : Piece → Span
  | .expr e => e.span
  | .statement s => s.span
  | .mark span => span

def ofParameter (p : Parameter Expr) : List Piece := .mark p.span :: p.range.toList.map .expr

def ofEntry (e : Entry Expr) : List Piece := [.mark e.keySpan, .expr e.value]

/-- The pieces that an expression is made of, in their order. -/
def ofExpr : Expr → List Piece
  | .number _ _ => []
  | .string _ _ => []
  | .bool _ _ => []
  | .identifier _ _ => []
  | .list items _ => items.map .expr
  | .dict entries _ => entries.flatMap ofEntry
  | .block statements result _ => statements.map .statement ++ [.expr result]
  | .lambda _ parameters body _ => parameters.flatMap ofParameter ++ [.expr body]
  | .call callee args _ => .expr callee :: args.map .expr
  | .binary _ left right _ => [.expr left, .expr right]
  | .unary _ operand _ => [.expr operand]
  | .pipe left callee args _ => .expr left :: .expr callee :: args.map .expr
  | .member target _ _ => [.expr target]
  | .lookup target index _ => [.expr target, .expr index]
  | .choice condition ifTrue ifFalse _ => [.expr condition, .expr ifTrue, .expr ifFalse]

def pieces : Piece → List Piece
  | .expr e => ofExpr e
  | .statement s => [.expr s.value]
  | .mark _ => []

theorem ofExpr_withSpan (span : Span) (e : Expr) : ofExpr (e.withSpan span) = ofExpr e := by
  cases e <;> rfl

theorem ofExpr_named (name : String) (e : Expr) : ofExpr (e.named name) = ofExpr e := by
  cases e with
  | lambda own => cases own <;> rfl
  | _ => rfl

end Piece

/-- From the start of a token to the end of one behind it. -/
structure Spells (tokens : List Token) (span : Span) : Prop where
  start : ∃ t ∈ tokens, span.start = t.span.start
  stop : ∃ t ∈ tokens, span.stop = t.span.stop
  nonempty : span.start.offset < span.stop.offset

inductive Piece.Laid (tokens : List Token) : Piece → Prop
  | mk {p : Piece} : Spells tokens p.span →
      Follow p.span.start.offset (p.pieces.map Piece.span) p.span.stop.offset →
      (∀ q ∈ p.pieces, Laid tokens q) → Laid tokens p

namespace Piece.Laid

variable {tokens : List Token} {p : Piece}

theorem spells (h : p.Laid tokens) : Spells tokens p.span := by
  obtain ⟨h, -, -⟩ := h
  exact h

theorem follow (h : p.Laid tokens) :
    Follow p.span.start.offset (p.pieces.map Piece.span) p.span.stop.offset := by
  obtain ⟨-, h, -⟩ := h
  exact h

theorem pieces (h : p.Laid tokens) : ∀ q ∈ p.pieces, q.Laid tokens := by
  obtain ⟨-, -, h⟩ := h
  exact h

end Piece.Laid

/-- The pieces of a program, in their order. -/
def Program.pieces (p : Program) : List Piece :=
  p.imports.map (fun i => .mark i.span) ++ p.statements.map .statement ++ p.result.toList.map .expr

structure Program.Laid (tokens : List Token) (p : Program) : Prop where
  pieces : ∀ q ∈ p.pieces, q.Laid tokens
  follow : ∃ stop, Follow 0 (p.pieces.map Piece.span) stop

namespace Cursor

/-- The end of the token before a cursor, if there is one before. -/
def Ended (tokens : List Token) (c : Cursor) : Prop := ∃ t ∈ tokens, c.before = t.span.stop

/-- The tokens to be read are among given ones, one behind the other. -/
structure Laid (code : String) (tokens : List Token) (c : Cursor) : Prop where
  tokens : ∀ t ∈ c.tokens, t ∈ tokens ∧ t.span.start.In code ∧ t.span.stop.In code
  before : c.before.In code
  follow : Follow c.before.offset (c.tokens.map Token.span) c.stop.span.start.offset
  stop : c.stop.kind = .stop

/-- From the one cursor to the other pieces are read. -/
structure Lays (code : String) (tokens : List Token) (c : Cursor) (ps : List Piece) (d : Cursor) :
    Prop where
  laid : d.Laid code tokens
  pieces : ∀ p ∈ ps, p.Laid tokens
  follow : Follow c.before.offset (ps.map Piece.span) d.before.offset
  ahead : Follow c.current.span.start.offset (ps.map Piece.span) d.current.span.start.offset
  moved : d = c ∨ d.Ended tokens
  spent : c.tokens = [] → d = c

/-- A token is read. -/
structure Takes (c : Cursor) (t : Token) (d : Cursor) : Prop where
  tokens : c.tokens = t :: d.tokens
  before : d.before = t.span.stop
  stop : d.stop = c.stop

variable {code : String} {tokens : List Token} {c d e : Cursor} {t : Token} {ps qs : List Piece}
  {p q : Piece}

theorem Laid.before_le (hc : c.Laid code tokens) :
    c.before.offset ≤ c.current.span.start.offset := by
  have hfollow := hc.follow
  rw [current]
  cases htokens : c.tokens with
  | nil =>
    rw [htokens] at hfollow
    exact hfollow
  | cons t rest =>
    rw [htokens] at hfollow
    exact hfollow.1

theorem Laid.current_mem (hc : c.Laid code tokens) (htokens : c.tokens ≠ []) :
    c.current ∈ tokens := by
  rw [current]
  cases h : c.tokens with
  | nil => exact absurd h htokens
  | cons t rest => exact (hc.tokens t (h ▸ mem_cons_self)).1

namespace Lays

theorem refl (hc : c.Laid code tokens) : Lays code tokens c [] c :=
  ⟨hc, nofun, Nat.le_refl _, Nat.le_refl _, .inl rfl, fun _ => rfl⟩

theorem append (h : Lays code tokens c ps d) (h' : Lays code tokens d qs e) :
    Lays code tokens c (ps ++ qs) e where
  laid := h'.laid
  pieces := forall_mem_append.2 ⟨h.pieces, h'.pieces⟩
  follow := by
    rw [map_append]
    exact h.follow.append h'.follow
  ahead := by
    rw [map_append]
    exact h.ahead.append h'.ahead
  moved := by
    rcases h'.moved with rfl | hended
    · exact h.moved
    · exact .inr hended
  spent hc := by
    obtain rfl := h.spent hc
    exact h'.spent hc

/-- Tokens that are no piece, behind pieces. -/
theorem trans (h : Lays code tokens c ps d) (h' : Lays code tokens d [] e) :
    Lays code tokens c ps e := by
  simpa using h.append h'

theorem ne_of_pieces (h : Lays code tokens c ps d) (hps : ps ≠ []) : d ≠ c := by
  rintro rfl
  have hlt := h.follow.lt (by simpa using hps)
  exact Nat.lt_irrefl _ hlt

/-- What has a piece has a token. -/
theorem ended (h : Lays code tokens c ps d) (hps : ps ≠ []) : d.Ended tokens :=
  h.moved.resolve_left (h.ne_of_pieces hps)

/-- The pieces of a piece instead of it. -/
theorem inner (h : Lays code tokens c [p] d) : Lays code tokens c p.pieces d where
  laid := h.laid
  pieces := (h.pieces p mem_cons_self).pieces
  follow := ((h.pieces p mem_cons_self).follow.mono h.follow.1).weaken h.follow.2.2
  ahead := ((h.pieces p mem_cons_self).follow.mono h.ahead.1).weaken h.ahead.2.2
  moved := h.moved
  spent := h.spent

/-- A piece around pieces. -/
theorem around (h : Lays code tokens c ps d) (hspells : Spells tokens p.span)
    (hstart : c.before.offset ≤ p.span.start.offset)
    (hahead : c.current.span.start.offset ≤ p.span.start.offset)
    (hstop : p.span.stop.offset ≤ d.before.offset)
    (hpieces : p.pieces = qs)
    (hfollow : Follow p.span.start.offset (qs.map Piece.span) p.span.stop.offset)
    (hqs : ∀ q ∈ qs, q ∈ ps) : Lays code tokens c [p] d where
  laid := h.laid
  pieces := forall_mem_singleton.2
    (.mk hspells (hpieces ▸ hfollow) fun q hq => h.pieces q (hqs q (hpieces ▸ hq)))
  follow := ⟨hstart, hspells.nonempty, hstop⟩
  ahead := ⟨hahead, hspells.nonempty, Nat.le_trans hstop h.laid.before_le⟩
  moved := h.moved
  spent := h.spent

/-- Another piece with the same span and pieces. -/
theorem replace (h : Lays code tokens c [p] d) (hspan : q.span = p.span)
    (hpieces : q.pieces = p.pieces) : Lays code tokens c [q] d := by
  have hp := h.pieces p mem_cons_self
  exact h.inner.around (hspan ▸ hp.spells) (hspan ▸ h.follow.1) (hspan ▸ h.ahead.1)
    (hspan ▸ h.follow.2.2) hpieces (hspan ▸ hp.follow) fun _ h => h

/-- A piece from the next token on. -/
theorem enclose (h : Lays code tokens c ps d) (hc : c.Laid code tokens) (hps : ps ≠ [])
    (hspan : p.span = ⟨c.current.span.start, d.before⟩) (hpieces : p.pieces = ps) :
    Lays code tokens c [p] d := by
  have htokens : c.tokens ≠ [] := fun htokens => h.ne_of_pieces hps (h.spent htokens)
  have hfollow : Follow c.current.span.start.offset (ps.map Piece.span) d.before.offset := by
    cases ps with
    | nil => exact absurd rfl hps
    | cons q qs => exact ⟨h.ahead.1, h.follow.2⟩
  refine h.around ⟨?_, ?_, ?_⟩ ?_ ?_ ?_ hpieces ?_ fun _ h => h
  · exact hspan ▸ ⟨c.current, hc.current_mem htokens, rfl⟩
  · exact hspan ▸ h.ended hps
  · exact hspan ▸ hfollow.lt (by simpa using hps)
  · exact hspan ▸ hc.before_le
  · exact hspan ▸ Nat.le_refl _
  · exact hspan ▸ Nat.le_refl _
  · exact hspan ▸ hfollow

/-- A piece that goes on from another one. -/
theorem extend (h : Lays code tokens c [q] d) (h' : Lays code tokens d ps e)
    (hspan : p.span = ⟨q.span.start, e.before⟩) (hpieces : p.pieces = q :: ps) :
    Lays code tokens c [p] e := by
  have hall := h.append h'
  have hq := (h.pieces q mem_cons_self).spells
  have hfollow : Follow q.span.start.offset ((q :: ps).map Piece.span) e.before.offset :=
    ⟨Nat.le_refl _, hall.follow.2⟩
  refine hall.around ⟨?_, ?_, ?_⟩ ?_ ?_ ?_ hpieces ?_ fun _ h => h
  · exact hspan ▸ hq.start
  · exact hspan ▸ hall.ended (cons_ne_nil _ _)
  · exact hspan ▸ hfollow.lt (cons_ne_nil _ _)
  · exact hspan ▸ hall.follow.1
  · exact hspan ▸ hall.ahead.1
  · exact hspan ▸ Nat.le_refl _
  · exact hspan ▸ hfollow

/-- A piece from the start of its first piece to the end of its last. -/
theorem join {l r : Piece} (h : Lays code tokens c (l :: ps ++ [r]) d)
    (hspan : p.span = l.span.through r.span) (hpieces : p.pieces = l :: ps ++ [r]) :
    Lays code tokens c [p] d := by
  have hl := (h.pieces l mem_cons_self).spells
  have hr := (h.pieces r (mem_append_right _ mem_cons_self)).spells
  have hfollow := h.follow
  rw [map_append] at hfollow
  obtain ⟨hbetween, hstop⟩ := hfollow.between
  have hinner : Follow l.span.start.offset ((l :: ps ++ [r]).map Piece.span) r.span.stop.offset := by
    rw [map_append]
    exact ⟨Nat.le_refl _, hbetween.2⟩
  refine h.around ⟨?_, ?_, ?_⟩ ?_ ?_ ?_ hpieces ?_ fun _ h => h
  · exact hspan ▸ hl.start
  · exact hspan ▸ hr.stop
  · exact hspan ▸ hinner.lt (cons_ne_nil _ _)
  · exact hspan ▸ h.follow.1
  · exact hspan ▸ h.ahead.1
  · exact hspan ▸ hstop
  · exact hspan ▸ hinner

end Lays

namespace Takes

theorem bounds (h : Takes c t d) (hc : c.Laid code tokens) : t ∈ tokens ∧
    c.before.offset ≤ t.span.start.offset ∧ t.span.start.offset < d.before.offset := by
  have hfollow := hc.follow
  rw [h.tokens, map_cons] at hfollow
  rw [h.before]
  exact ⟨(hc.tokens t (h.tokens ▸ mem_cons_self)).1, hfollow.1, hfollow.2.1⟩

theorem current (h : Takes c t d) : c.current = t := by
  rw [Cursor.current, h.tokens, headD_cons]

theorem laid (h : Takes c t d) (hc : c.Laid code tokens) : d.Laid code tokens := by
  have hfollow := hc.follow
  rw [h.tokens, map_cons] at hfollow
  refine ⟨fun u hu => hc.tokens u (h.tokens ▸ mem_cons_of_mem _ hu), ?_, ?_, h.stop ▸ hc.stop⟩
  · exact h.before ▸ (hc.tokens t (h.tokens ▸ mem_cons_self)).2.2
  · exact h.before ▸ h.stop ▸ hfollow.2.2

theorem lays (h : Takes c t d) (hc : c.Laid code tokens) : Lays code tokens c [] d where
  laid := h.laid hc
  pieces := nofun
  follow := by
    have := h.bounds hc
    change c.before.offset ≤ d.before.offset
    omega
  ahead := by
    have := h.bounds hc
    have := (h.laid hc).before_le
    rw [h.current]
    change t.span.start.offset ≤ d.current.span.start.offset
    omega
  moved := .inr ⟨t, (h.bounds hc).1, h.before⟩
  spent hspent := by
    rw [h.tokens] at hspent
    cases hspent

/-- A piece that begins with a token. -/
theorem node (h : Takes c t d) (hc : c.Laid code tokens) (h' : Lays code tokens d ps e)
    (hspan : p.span = ⟨t.span.start, e.before⟩) (hpieces : p.pieces = ps) :
    Lays code tokens c [p] e := by
  obtain ⟨ht, hstart, hlt⟩ := h.bounds hc
  have hle := h'.follow.le
  have hall := (h.lays hc).append h'
  have hended : e.Ended tokens := by
    rcases h'.moved with rfl | hended
    · exact ⟨t, ht, h.before⟩
    · exact hended
  refine hall.around ⟨?_, ?_, ?_⟩ ?_ ?_ ?_ hpieces ?_ fun _ h => h
  · exact hspan ▸ ⟨t, ht, rfl⟩
  · exact hspan ▸ hended
  · exact hspan ▸ Nat.lt_of_lt_of_le hlt hle
  · exact hspan ▸ hstart
  · exact hspan ▸ h.current ▸ Nat.le_refl _
  · exact hspan ▸ Nat.le_refl _
  · exact hspan ▸ h'.follow.mono (Nat.le_of_lt hlt)

/-- A piece that is one token. -/
theorem leaf (h : Takes c t d) (hc : c.Laid code tokens) (hspan : p.span = t.span)
    (hpieces : p.pieces = []) : Lays code tokens c [p] d := by
  refine h.node hc (.refl (h.lays hc).laid) ?_ hpieces
  rw [hspan, h.before]

/-- A token before a piece, as one piece with it. -/
theorem before_piece (h : Takes c t d) (hc : c.Laid code tokens) (h' : Lays code tokens d [q] e)
    (hspan : p.span = ⟨t.span.start, q.span.stop⟩) (hpieces : p.pieces = [] ∨ p.pieces = [q]) :
    Lays code tokens c [p] e := by
  obtain ⟨ht, hstart, hlt⟩ := h.bounds hc
  have hq := (h'.pieces q mem_cons_self).spells
  obtain ⟨hdq, hqs, hqe⟩ := h'.follow
  have hall := (h.lays hc).append h'
  have hspells : Spells tokens p.span := by
    rw [hspan]
    exact ⟨⟨t, ht, rfl⟩, hq.stop, by dsimp only; omega⟩
  have hahead : c.current.span.start.offset ≤ p.span.start.offset := by
    refine Nat.le_of_eq ?_
    rw [hspan, h.current]
  rcases hpieces with hnone | hone
  · refine hall.around hspells (hspan ▸ hstart) hahead (hspan ▸ hqe) hnone ?_ nofun
    exact Nat.le_of_lt hspells.nonempty
  · refine hall.around hspells (hspan ▸ hstart) hahead (hspan ▸ hqe) hone ?_ fun _ h => h
    rw [hspan]
    refine ⟨?_, hqs, Nat.le_refl _⟩
    dsimp only
    omega

end Takes

end Cursor

end Syntax

end Estimation
