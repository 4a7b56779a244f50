import Estimation.Proofs.Layout

/-!
Every reader of the grammar lays what it reads on the tokens that it takes, and finds fault at a
place of the text. A number that it finds fault with is one of the tokens, and has no value.
-/

namespace Estimation

open List

namespace Syntax

/-- Where an error is, if it is not at the end of input, is a place of a text. -/
def SyntaxError.In (code : String) (e : SyntaxError) : Prop :=
  ∀ place, e.location.coordinate? = some place → place.In code

/-- What a fault says of a number holds of one of the tokens. -/
def Fault.Of (tokens : List Token) : Fault → Prop
  | .invalidNumber written =>
    ∃ t ∈ tokens, t.kind = .number written ∧ Token.numberValue? written = none
  | _ => True

structure SyntaxError.On (code : String) (tokens : List Token) (e : SyntaxError) : Prop where
  place : e.In code
  fault : e.fault.Of tokens

namespace Cursor

variable {code : String} {tokens : List Token} {c d : Cursor} {t : Token}

theorem errorHere_on (hc : c.Laid code tokens) {fault : Fault} (hfault : fault.Of tokens) :
    (c.errorHere fault).On code tokens := by
  refine ⟨fun place hplace => ?_, hfault⟩
  rw [errorHere] at hplace
  split at hplace
  · cases hplace
  · next hkind =>
    cases hplace
    rw [current] at hkind ⊢
    cases htokens : c.tokens with
    | nil =>
      rw [htokens] at hkind
      exact absurd hc.stop hkind
    | cons t rest => exact (hc.tokens t (htokens ▸ mem_cons_self)).2.1

theorem current_of_takes {rest : List Token} (h : c.tokens = t :: rest) :
    Takes c t ⟨rest, c.stop, t.span.stop⟩ := ⟨h, rfl, rfl⟩

theorem accept_takes {kind : Token.Kind} {d : c.Past} (h : c.accept kind = some d) :
    ∃ t, Takes c t d.1 := by
  unfold accept at h
  split at h
  · cases h
  · next t rest htokens =>
    split at h <;> cases h
    exact ⟨t, current_of_takes htokens⟩

theorem binaryOp_takes {op : BinaryOp} {d : c.Past} (h : c.binaryOp? = some (op, d)) :
    ∃ t, Takes c t d.1 := by
  unfold binaryOp? at h
  split at h
  · cases h
  · next t rest htokens =>
    obtain ⟨_, _, heq⟩ := Option.map_eq_some_iff.1 h
    cases heq
    exact ⟨t, current_of_takes htokens⟩

theorem unaryOp_takes {op : UnaryOp} {d : c.Past} (h : c.unaryOp? = some (op, d)) :
    ∃ t, Takes c t d.1 := by
  unfold unaryOp? at h
  split at h
  · cases h
  · next t rest htokens =>
    obtain ⟨_, _, heq⟩ := Option.map_eq_some_iff.1 h
    cases heq
    exact ⟨t, current_of_takes htokens⟩

theorem expect_takes (hc : c.Laid code tokens) (kind : Token.Kind) :
    Meets (SyntaxError.On code tokens) (fun d : c.Past => ∃ t, Takes c t d.1) (c.expect kind) := by
  rw [expect]
  split
  · next h => exact accept_takes h
  · exact errorHere_on hc trivial

theorem close_takes (hc : c.Laid code tokens) (symbol : Symbol) {missing : Fault}
    (hmissing : missing.Of tokens) : Meets (SyntaxError.On code tokens)
      (fun d : c.Past => ∃ t, Takes c t d.1) (c.close symbol missing) := by
  rw [close]
  split
  · next h => exact accept_takes h
  · refine ⟨fun place hplace => ?_, hmissing⟩
    cases hplace
    exact hc.before

theorem name_takes (hc : c.Laid code tokens) :
    Meets (SyntaxError.On code tokens) (fun p : Parsed (String × Span) c =>
      ∃ t, Takes c t p.rest ∧ p.value.2 = t.span) c.name := by
  unfold name
  split
  · exact ⟨nofun, trivial⟩
  · next htokens => exact ⟨_, current_of_takes htokens, rfl⟩
  · exact errorHere_on hc trivial

theorem key_takes (hc : c.Laid code tokens) :
    Meets (SyntaxError.On code tokens) (fun p : Parsed String c => ∃ t, Takes c t p.rest) c.key := by
  unfold key
  split
  · next htokens => exact ⟨_, current_of_takes htokens⟩
  · exact errorHere_on hc trivial

theorem skipSemicolons_lays (hc : c.Laid code tokens) :
    Lays code tokens c [] c.skipSemicolons.1 := by
  fun_induction skipSemicolons c with
  | case1 c d hsign e he hrest ih =>
    obtain ⟨t, ht⟩ := accept_takes hsign
    have hd := ht.lays hc
    have := ih hd.laid
    rw [hrest] at this
    exact hd.trans this
  | case2 c => exact .refl hc

theorem separator_lays (hc : c.Laid code tokens) (closing : Token.Kind) :
    Meets (SyntaxError.On code tokens) (fun d : c.From => Lays code tokens c [] d.1)
      (c.separator closing) := by
  rw [separator]
  split
  · next h =>
    obtain ⟨t, ht⟩ := accept_takes h
    exact ht.lays hc
  · split
    · exact .refl hc
    · exact errorHere_on hc trivial

end Cursor

open Cursor (Lays Takes)

namespace Reader

variable {code : String} {tokens : List Token} {unary : Reader Expr}

/-- What a reader reads lies on tokens as given parts. -/
def Reads {α : Type} (code : String) (tokens : List Token) (parts : α → List Piece) (r : Reader α) :
    Prop :=
  ∀ c, c.Laid code tokens →
    Meets (SyntaxError.On code tokens) (fun p => Lays code tokens c (parts p.value) p.rest) (r c)

/-- A reader of expressions, each one piece. -/
abbrev ReadsExpr (code : String) (tokens : List Token) (r : Reader Expr) : Prop :=
  Reads code tokens (fun e => [.expr e]) r

theorem climb_lays (hunary : ReadsExpr code tokens unary) (bound : Nat)
    {c₀ c : Cursor} {left : Expr} (hleft : Lays code tokens c₀ [.expr left] c) :
    Meets (SyntaxError.On code tokens) (fun p => Lays code tokens c₀ [.expr p.value] p.rest)
      (climb unary bound left c) := by
  rw [climb]
  split
  · next op c₁ h₁ hop =>
    split
    · obtain ⟨t, ht⟩ := Cursor.binaryOp_takes hop
      have hc₁ := ht.lays hleft.laid
      refine (hunary c₁ hc₁.laid).bind ?_
      rintro ⟨operand, c₂, h₂⟩ hoperand
      have hlt₂ : c₂.left < c.left := Nat.lt_trans h₂ h₁
      refine (climb_lays hunary op.rightBound hoperand).bind ?_
      rintro ⟨right, c₃, h₃⟩ hright
      have hlt₃ : c₃.left < c.left := Nat.lt_of_le_of_lt h₃ hlt₂
      have hwhole : Lays code tokens c₀ [.expr (.binary op left right (left.span.through right.span))] c₃ :=
        ((hleft.trans hc₁).append hright).join rfl rfl
      refine (climb_lays hunary bound hwhole).bind ?_
      rintro ⟨e, c₄, h₄⟩ he
      exact he
    · exact hleft
  · exact hleft
  termination_by c.left

theorem operation_reads (hunary : ReadsExpr code tokens unary) (bound : Nat) :
    ReadsExpr code tokens (operation unary bound) := by
  intro c hc
  refine (hunary c hc).bind ?_
  rintro ⟨left, c₁, h₁⟩ hleft
  refine (climb_lays hunary bound hleft).bind ?_
  rintro ⟨e, c₂, h₂⟩ he
  exact he

theorem expr_reads (hunary : ReadsExpr code tokens unary) : ReadsExpr code tokens (expr unary) := by
  intro c hc
  rw [expr]
  refine (operation_reads hunary 0 c hc).bind ?_
  rintro ⟨condition, c₁, h₁⟩ hcondition
  dsimp only
  split
  · exact hcondition
  · next c₂ h₂ hsign =>
    have hlt₂ : c₂.left < c.left := Nat.lt_trans h₂ h₁
    obtain ⟨t, ht⟩ := Cursor.accept_takes hsign
    have hc₂ := hcondition.trans (ht.lays hcondition.laid)
    refine (expr_reads hunary c₂ hc₂.laid).bind ?_
    rintro ⟨ifTrue, c₃, h₃⟩ hifTrue
    refine (Cursor.expect_takes hifTrue.laid _).bind ?_
    rintro ⟨c₄, h₄⟩ ⟨t₄, ht₄⟩
    have hlt₄ : c₄.left < c.left := Nat.lt_trans h₄ (Nat.lt_trans h₃ hlt₂)
    have hc₄ := hifTrue.trans (ht₄.lays hifTrue.laid)
    refine (expr_reads hunary c₄ hc₄.laid).bind ?_
    rintro ⟨ifFalse, c₅, h₅⟩ hifFalse
    exact ((hc₂.append hc₄).append hifFalse).join rfl rfl
  termination_by c => c.left

theorem items_reads (hunary : ReadsExpr code tokens unary) (closing : Symbol) {missing : Fault}
    (hmissing : missing.Of tokens) :
    Reads code tokens (fun es => es.map .expr) (items unary closing missing) := by
  intro c hc
  rw [items]
  split
  · next c₁ h₁ hsign =>
    obtain ⟨t, ht⟩ := Cursor.accept_takes hsign
    exact ht.lays hc
  · refine (expr_reads hunary c hc).bind ?_
    rintro ⟨item, c₁, h₁⟩ hitem
    dsimp only
    split
    · next c₂ h₂ hsign =>
      have hlt₂ : c₂.left < c.left := Nat.lt_trans h₂ h₁
      obtain ⟨t, ht⟩ := Cursor.accept_takes hsign
      have hc₂ := hitem.trans (ht.lays hitem.laid)
      refine (items_reads hunary closing hmissing c₂ hc₂.laid).bind ?_
      rintro ⟨rest, c₃, h₃⟩ hrest
      exact hc₂.append hrest
    · refine (Cursor.close_takes hitem.laid _ hmissing).bind ?_
      rintro ⟨c₂, h₂⟩ ⟨t, ht⟩
      exact hitem.trans (ht.lays hitem.laid)
  termination_by c => c.left

theorem keys_lays {start : Coordinate} {c₀ c : Cursor} {target : Expr}
    (htarget : Lays code tokens c₀ [.expr target] c) (hstart : target.span.start = start) :
    Meets (SyntaxError.On code tokens)
      (fun p => Lays code tokens c₀ [.expr p.value] p.rest) (keys start target c) := by
  rw [keys]
  split
  · exact htarget
  · next c₁ h₁ hsign =>
    obtain ⟨t, ht⟩ := Cursor.accept_takes hsign
    have hc₁ := ht.lays htarget.laid
    refine (Cursor.key_takes hc₁.laid).bind ?_
    rintro ⟨key, c₂, h₂⟩ ⟨t₂, ht₂⟩
    have hlt₂ : c₂.left < c.left := Nat.lt_trans h₂ h₁
    have hmember : Lays code tokens c₀ [.expr (.member target key (c₂.spanFrom start))] c₂ :=
      htarget.extend (hc₁.trans (ht₂.lays hc₁.laid)) (hstart ▸ rfl) rfl
    refine (keys_lays hmember rfl).bind ?_
    rintro ⟨e, c₃, h₃⟩ he
    exact he
  termination_by c.left

theorem pipeCallee_reads : ReadsExpr code tokens pipeCallee := by
  intro c hc
  refine (Cursor.name_takes hc).bind ?_
  rintro ⟨⟨name, span⟩, c₁, h₁⟩ ⟨t, ht, hspan⟩
  have hname : Lays code tokens c [.expr (.identifier name span)] c₁ := ht.leaf hc hspan rfl
  refine (keys_lays hname rfl).bind ?_
  rintro ⟨e, c₂, h₂⟩ he
  exact he

theorem pipeArguments_lays (hunary : ReadsExpr code tokens unary) {c : Cursor}
    (hc : c.Laid code tokens) : Meets (SyntaxError.On code tokens)
      (fun p => Lays code tokens c (p.value.map .expr) p.rest) (pipeArguments unary c) := by
  unfold pipeArguments
  split
  · next c₁ h₁ _ hsign =>
    obtain ⟨t, ht⟩ := Cursor.accept_takes hsign
    have hc₁ := ht.lays hc
    refine (items_reads hunary _ (by trivial) c₁ hc₁.laid).bind ?_
    rintro ⟨args, c₂, h₂⟩ hargs
    exact hc₁.append hargs
  · exact .refl hc

theorem suffix_lays (hunary : ReadsExpr code tokens unary) {c₀ c : Cursor} {target : Expr}
    (htarget : Lays code tokens c₀ [.expr target] c) {step : Except SyntaxError (Parsed Expr c)}
    (hstep : suffix? unary target c = some step) :
    Meets (SyntaxError.On code tokens) (fun p => Lays code tokens c₀ [.expr p.value] p.rest) step := by
  unfold suffix? at hstep
  dsimp only at hstep
  split at hstep
  · cases hstep
  · next token rest htokens =>
    have hc₁ := (Cursor.current_of_takes htokens).lays htarget.laid
    split at hstep
    · cases hstep
      refine (items_reads hunary _ (by trivial) _ hc₁.laid).bind ?_
      rintro ⟨args, c₂, h₂⟩ hargs
      exact htarget.extend (hc₁.append hargs) rfl rfl
    · cases hstep
      refine (expr_reads hunary _ hc₁.laid).bind ?_
      rintro ⟨index, c₂, h₂⟩ hindex
      refine (Cursor.close_takes hindex.laid _ (by trivial)).bind ?_
      rintro ⟨c₃, h₃⟩ ⟨t, ht⟩
      exact htarget.extend ((hc₁.append hindex).trans (ht.lays hindex.laid)) rfl rfl
    · cases hstep
      refine (Cursor.key_takes hc₁.laid).bind ?_
      rintro ⟨key, c₂, h₂⟩ ⟨t, ht⟩
      exact htarget.extend (hc₁.trans (ht.lays hc₁.laid)) rfl rfl
    · cases hstep
      refine (pipeCallee_reads _ hc₁.laid).bind ?_
      rintro ⟨callee, c₂, h₂⟩ hcallee
      refine (pipeArguments_lays hunary hcallee.laid).bind ?_
      rintro ⟨args, c₃, h₃⟩ hargs
      exact htarget.extend ((hc₁.append hcallee).append hargs) rfl rfl
    · cases hstep

theorem suffixes_lays (hunary : ReadsExpr code tokens unary) {c₀ c : Cursor} {target : Expr}
    (htarget : Lays code tokens c₀ [.expr target] c) :
    Meets (SyntaxError.On code tokens) (fun p => Lays code tokens c₀ [.expr p.value] p.rest)
      (suffixes unary target c) := by
  rw [suffixes]
  split
  · exact htarget
  · next step hstep =>
    refine (suffix_lays hunary htarget hstep).bind ?_
    rintro ⟨e, c₁, h₁⟩ he
    refine (suffixes_lays hunary he).bind ?_
    rintro ⟨e', c₂, h₂⟩ he'
    exact he'
  termination_by c.left

/-- What stands behind a parameter, where the parameters behind it are read. -/
theorem parametersBehind_lays {closing : ParameterClosing} {c c₂ : Cursor} {p : Parameter Expr}
    (hrest : ∀ d : Cursor, d.left < c.left → d.Laid code tokens → Meets (SyntaxError.On code tokens)
      (fun ps => Lays code tokens d (ps.value.flatMap Piece.ofParameter) ps.rest)
      (parameters unary closing d))
    (h₂ : c₂.left < c.left) (hp : Lays code tokens c (Piece.ofParameter p) c₂) :
    Meets (SyntaxError.On code tokens)
      (fun ps : Parsed (List (Parameter Expr)) c =>
        Lays code tokens c (ps.value.flatMap Piece.ofParameter) ps.rest)
      (match c₂.sign .comma with
        | some ⟨c₃, h₃⟩ => do
          let ⟨rest, c₄, h₄⟩ ← parameters unary closing c₃
          return ⟨p :: rest, c₄, Nat.lt_trans h₄ (Nat.lt_trans h₃ h₂)⟩
        | none => do
          let some ⟨c₃, h₃⟩ := c₂.sign closing.symbol | .error (closing.fault c₂)
          return ⟨[p], c₃, Nat.lt_trans h₃ h₂⟩) := by
  split
  · next c₃ h₃ hsign =>
    obtain ⟨t, ht⟩ := Cursor.accept_takes hsign
    have hc₃ := hp.trans (ht.lays hp.laid)
    refine (hrest c₃ (Nat.lt_trans h₃ h₂) hc₃.laid).bind ?_
    rintro ⟨rest, c₄, h₄⟩ hrest
    exact hc₃.append hrest
  · split
    · next c₃ h₃ hsign =>
      obtain ⟨t, ht⟩ := Cursor.accept_takes hsign
      have hc₃ := hp.append (ht.lays hp.laid)
      exact hc₃
    · cases closing <;> exact Cursor.errorHere_on hp.laid trivial

theorem parameters_reads (hunary : ReadsExpr code tokens unary) (closing : ParameterClosing) :
    Reads code tokens (fun ps => ps.flatMap Piece.ofParameter) (parameters unary closing) := by
  intro c hc
  rw [parameters]
  refine (Cursor.name_takes hc).bind ?_
  rintro ⟨⟨name, span⟩, c₁, h₁⟩ ⟨t, ht, hspan⟩
  have hname : Lays code tokens c [.mark span] c₁ := ht.leaf hc hspan rfl
  have hrest (d : Cursor) (_ : d.left < c.left) (hd : d.Laid code tokens) :=
    parameters_reads hunary closing d hd
  dsimp only
  split
  · exact parametersBehind_lays (p := ⟨name, span, none⟩) hrest h₁ hname
  · next d hd hsign =>
    obtain ⟨t₁, ht₁⟩ := Cursor.accept_takes hsign
    have hd := hname.trans (ht₁.lays hname.laid)
    refine (operation_reads hunary 0 d hd.laid).bind ?_
    rintro ⟨range, d', hd'⟩ hrange
    have h₂ : d'.left < c.left := by omega
    exact parametersBehind_lays (p := ⟨name, span, some range⟩) hrest h₂ (hd.append hrange)
  termination_by c => c.left

theorem parameterList_reads (hunary : ReadsExpr code tokens unary) (closing : ParameterClosing) :
    Reads code tokens (fun ps => ps.flatMap Piece.ofParameter) (parameterList unary closing) := by
  intro c hc
  unfold parameterList
  split
  · next c₁ h₁ hsign =>
    obtain ⟨t, ht⟩ := Cursor.accept_takes hsign
    exact ht.lays hc
  · exact parameters_reads hunary closing c hc

/-- A definition from its name on. -/
theorem definition_lays (hunary : ReadsExpr code tokens unary) {name : String} {c d : Cursor}
    {t : Token} (hc : c.Laid code tokens) (ht : Takes c t d) : Meets (SyntaxError.On code tokens)
      (fun p => Lays code tokens c [.expr p.value] p.rest) (definition unary name t.span d) := by
  have hd := ht.lays hc
  unfold definition
  split
  · next c₁ h₁ hsign =>
    obtain ⟨t₁, ht₁⟩ := Cursor.accept_takes hsign
    have hc₁ := ht₁.lays hd.laid
    refine (parameterList_reads hunary .paren c₁ hc₁.laid).bind ?_
    rintro ⟨ps, c₂, h₂⟩ hps
    refine (Cursor.expect_takes hps.laid _).bind ?_
    rintro ⟨c₃, h₃⟩ ⟨t₃, ht₃⟩
    have hc₃ := (hc₁.append hps).trans (ht₃.lays hps.laid)
    refine (expr_reads hunary c₃ hc₃.laid).bind ?_
    rintro ⟨body, c₄, h₄⟩ hbody
    exact ht.node hc (hc₃.append hbody) rfl rfl
  · refine (Cursor.expect_takes hd.laid _).bind ?_
    rintro ⟨c₁, h₁⟩ ⟨t₁, ht₁⟩
    have hc₁ := hd.trans (ht₁.lays hd.laid)
    refine (expr_reads hunary c₁ hc₁.laid).bind ?_
    rintro ⟨value, c₂, h₂⟩ hvalue
    exact (hc₁.append hvalue).replace (Expr.span_named name value) (Piece.ofExpr_named name value)

theorem statement_reads (hunary : ReadsExpr code tokens unary) :
    Reads code tokens (fun s => [.statement s]) (statement unary) := by
  intro c hc
  unfold statement
  dsimp only
  split
  · next d hd hword =>
    obtain ⟨t, ht⟩ := Cursor.accept_takes hword
    have hd := ht.lays hc
    refine (Cursor.name_takes hd.laid).bind ?_
    rintro ⟨⟨name, nameSpan⟩, c₂, h₂⟩ ⟨t₂, ht₂, rfl⟩
    refine (definition_lays hunary hd.laid ht₂).bind ?_
    rintro ⟨value, c₃, h₃⟩ hvalue
    exact (hd.append hvalue).enclose hc (cons_ne_nil _ _) rfl rfl
  · refine (Cursor.name_takes hc).bind ?_
    rintro ⟨⟨name, nameSpan⟩, c₂, h₂⟩ ⟨t₂, ht₂, rfl⟩
    refine (definition_lays hunary hc ht₂).bind ?_
    rintro ⟨value, c₃, h₃⟩ hvalue
    exact hvalue.enclose hc (cons_ne_nil _ _) rfl rfl

/-- The parts of a body. -/
def bodyParts : List (Statement Expr) × Option Expr → List Piece
  | (statements, result) => statements.map .statement ++ result.toList.map .expr

theorem body_lays (hunary : ReadsExpr code tokens unary) (place : Place) {c : Cursor}
    (hc : c.Laid code tokens) : Meets (SyntaxError.On code tokens)
      (fun p => Lays code tokens c (bodyParts p.value) p.rest) (body unary place c) := by
  rw [body]
  have hc₁ := Cursor.skipSemicolons_lays hc
  split
  next c₁ h₁ hskip =>
  rw [hskip] at hc₁
  split
  · exact hc₁
  · split
    · exact Cursor.errorHere_on hc₁.laid trivial
    · split
      · split
        · exact Cursor.errorHere_on hc₁.laid trivial
        · refine (statement_reads hunary c₁ hc₁.laid).bind ?_
          rintro ⟨first, c₂, h₂⟩ hfirst
          refine (Cursor.separator_lays hfirst.laid _).bind ?_
          rintro ⟨c₃, h₃⟩ hc₃
          have hlt₃ : c₃.left < c.left := Nat.lt_of_le_of_lt h₃ (Nat.lt_of_lt_of_le h₂ h₁)
          refine (body_lays hunary place hc₃.laid).bind ?_
          rintro ⟨⟨statements, result⟩, c₄, h₄⟩ hrest
          exact ((hc₁.append hfirst).trans hc₃).append hrest
      · refine (expr_reads hunary c₁ hc₁.laid).bind ?_
        rintro ⟨result, c₂, h₂⟩ hresult
        have hc₃ := Cursor.skipSemicolons_lays hresult.laid
        dsimp only
        split
        next c₃ h₃ hskip₃ =>
        rw [hskip₃] at hc₃
        split
        · exact (hc₁.append hresult).trans hc₃
        · exact Cursor.errorHere_on hc₃.laid trivial
  termination_by c.left

/-- The expression of a block is what is read, or stands from a given start around it. -/
def Around (start : Coordinate) (e : Expr) (stop : Coordinate) (parts : List Piece) : Prop :=
  parts = [.expr e] ∨ e.span = ⟨start, stop⟩ ∧ Piece.ofExpr e = parts

theorem blockBody_lays (hunary : ReadsExpr code tokens unary) (start : Coordinate) {c : Cursor}
    (hc : c.Laid code tokens) : Meets (SyntaxError.On code tokens)
      (fun p => ∃ parts, parts ≠ [] ∧ Lays code tokens c parts p.rest ∧
        Around start p.value p.rest.before parts) (blockBody unary start c) := by
  unfold blockBody
  refine (body_lays hunary .block hc).bind ?_
  rintro ⟨⟨statements, result⟩, c₁, h₁⟩ hbody
  cases result with
  | none => exact Cursor.errorHere_on hbody.laid trivial
  | some result =>
    cases statements with
    | nil => exact ⟨[.expr result], cons_ne_nil _ _, hbody, .inl rfl⟩
    | cons s ss => exact ⟨_, cons_ne_nil _ _, hbody, .inr ⟨rfl, rfl⟩⟩

theorem array_lays (hunary : ReadsExpr code tokens unary) {c d : Cursor} {t : Token}
    (hc : c.Laid code tokens) (ht : Takes c t d) : Meets (SyntaxError.On code tokens)
      (fun p => Lays code tokens c [.expr p.value] p.rest) (array unary t.span.start d) := by
  refine (items_reads hunary _ (by trivial) d (ht.lays hc).laid).bind ?_
  rintro ⟨es, c₁, h₁⟩ hes
  exact ht.node hc hes rfl rfl

theorem entryKey_reads : Reads code tokens (fun key => [.mark key.2]) entryKey := by
  intro c hc
  unfold entryKey
  split
  · next htokens => exact (Cursor.current_of_takes htokens).leaf hc rfl rfl
  · next htokens => exact (Cursor.current_of_takes htokens).leaf hc rfl rfl
  · exact Cursor.errorHere_on hc trivial

theorem entries_reads (hunary : ReadsExpr code tokens unary) :
    Reads code tokens (fun es => es.flatMap Piece.ofEntry) (entries unary) := by
  intro c hc
  rw [entries]
  split
  · next c₁ h₁ hsign =>
    obtain ⟨t, ht⟩ := Cursor.accept_takes hsign
    exact ht.lays hc
  · refine (entryKey_reads c hc).bind ?_
    rintro ⟨⟨key, keySpan⟩, c₁, h₁⟩ hkey
    refine (Cursor.expect_takes hkey.laid _).bind ?_
    rintro ⟨c₂, h₂⟩ ⟨t₂, ht₂⟩
    have hc₂ := hkey.trans (ht₂.lays hkey.laid)
    refine (expr_reads hunary c₂ hc₂.laid).bind ?_
    rintro ⟨value, c₃, h₃⟩ hvalue
    have hentry := hc₂.append hvalue
    dsimp only
    split
    · next c₄ h₄ hsign =>
      have hlt₄ : c₄.left < c.left := Nat.lt_trans h₄ (Nat.lt_trans h₃ (Nat.lt_trans h₂ h₁))
      obtain ⟨t₄, ht₄⟩ := Cursor.accept_takes hsign
      have hc₄ := hentry.trans (ht₄.lays hentry.laid)
      refine (entries_reads hunary c₄ hc₄.laid).bind ?_
      rintro ⟨rest, c₅, h₅⟩ hrest
      exact hc₄.append hrest
    · refine (Cursor.close_takes hentry.laid _ (by trivial)).bind ?_
      rintro ⟨c₄, h₄⟩ ⟨t₄, ht₄⟩
      exact hentry.trans (ht₄.lays hentry.laid)
  termination_by c => c.left

/-- A lambda from its brace on, behind which its parameters have been read. -/
theorem lambdaBody_lays (hunary : ReadsExpr code tokens unary) {c d c₁ : Cursor} {t : Token}
    {ps : List (Parameter Expr)} (hc : c.Laid code tokens) (ht : Takes c t d)
    (hps : Lays code tokens d (ps.flatMap Piece.ofParameter) c₁) : Meets (SyntaxError.On code tokens)
      (fun p => Lays code tokens c [.expr p.value] p.rest)
      (lambdaBody unary t.span.start ps c₁) := by
  refine (blockBody_lays hunary c₁.current.span.start hps.laid).bind ?_
  rintro ⟨e, c₂, h₂⟩ ⟨parts, hparts, hbody, haround⟩
  have he : Lays code tokens c₁ [.expr e] c₂ := by
    rcases haround with rfl | ⟨hspan, hpieces⟩
    · exact hbody
    · exact hbody.enclose hps.laid hparts hspan hpieces
  refine (Cursor.close_takes he.laid _ (by trivial)).bind ?_
  rintro ⟨c₃, h₃⟩ ⟨t₃, ht₃⟩
  exact ht.node hc ((hps.append he).trans (ht₃.lays he.laid)) rfl rfl

theorem braces_lays (hunary : ReadsExpr code tokens unary) {c d : Cursor} {t : Token}
    (hc : c.Laid code tokens) (ht : Takes c t d) : Meets (SyntaxError.On code tokens)
      (fun p => Lays code tokens c [.expr p.value] p.rest) (braces unary t.span.start d) := by
  have hd := (ht.lays hc).laid
  unfold braces
  split
  · next c₁ h₁ hsign =>
    obtain ⟨t₁, ht₁⟩ := Cursor.accept_takes hsign
    have hc₁ := ht₁.lays hd
    refine (parameterList_reads hunary .bar c₁ hc₁.laid).bind ?_
    rintro ⟨ps, c₂, h₂⟩ hps
    refine (lambdaBody_lays hunary hc ht (hc₁.append hps)).bind ?_
    rintro ⟨e, c₃, h₃⟩ he
    exact he
  · next c₁ h₁ _ hsign =>
    obtain ⟨t₁, ht₁⟩ := Cursor.accept_takes hsign
    have hnone : Lays code tokens d (([] : List (Parameter Expr)).flatMap Piece.ofParameter) c₁ :=
      ht₁.lays hd
    refine (lambdaBody_lays hunary hc ht hnone).bind ?_
    rintro ⟨e, c₂, h₂⟩ he
    exact he
  · next c₁ h₁ _ _ hsign =>
    obtain ⟨t₁, ht₁⟩ := Cursor.accept_takes hsign
    exact ht.node hc (ht₁.lays hd) rfl rfl
  · split
    · refine (entries_reads hunary d hd).bind ?_
      rintro ⟨es, c₁, h₁⟩ hes
      exact ht.node hc hes rfl rfl
    · refine (blockBody_lays hunary t.span.start hd).bind ?_
      rintro ⟨e, c₁, h₁⟩ ⟨parts, -, hbody, haround⟩
      have he : Lays code tokens d (Piece.ofExpr e) c₁ := by
        rcases haround with rfl | ⟨-, rfl⟩
        · exact hbody.inner
        · exact hbody
      refine (Cursor.close_takes he.laid _ (by trivial)).bind ?_
      rintro ⟨c₂, h₂⟩ ⟨t₂, ht₂⟩
      exact ht.node hc (he.trans (ht₂.lays he.laid)) (Expr.span_withSpan _ e)
        (Piece.ofExpr_withSpan _ e)

theorem ifThenElse_lays (hunary : ReadsExpr code tokens unary) {c d : Cursor} {t : Token}
    (hc : c.Laid code tokens) (ht : Takes c t d) : Meets (SyntaxError.On code tokens)
      (fun p => Lays code tokens c [.expr p.value] p.rest) (ifThenElse unary t.span.start d) := by
  refine (expr_reads hunary d (ht.lays hc).laid).bind ?_
  rintro ⟨condition, c₁, h₁⟩ hcondition
  refine (Cursor.expect_takes hcondition.laid _).bind ?_
  rintro ⟨c₂, h₂⟩ ⟨t₂, ht₂⟩
  have hc₂ := hcondition.trans (ht₂.lays hcondition.laid)
  refine (expr_reads hunary c₂ hc₂.laid).bind ?_
  rintro ⟨ifTrue, c₃, h₃⟩ hifTrue
  refine (Cursor.expect_takes hifTrue.laid _).bind ?_
  rintro ⟨c₄, h₄⟩ ⟨t₄, ht₄⟩
  have hc₄ := hifTrue.trans (ht₄.lays hifTrue.laid)
  refine (expr_reads hunary c₄ hc₄.laid).bind ?_
  rintro ⟨ifFalse, c₅, h₅⟩ hifFalse
  exact ht.node hc ((hc₂.append hc₄).append hifFalse) rfl rfl

theorem primary_reads (hunary : ReadsExpr code tokens unary) :
    ReadsExpr code tokens (primary unary) := by
  intro c hc
  unfold primary
  split
  · exact ⟨nofun, trivial⟩
  · next token rest htokens =>
    have ht := Cursor.current_of_takes htokens
    dsimp only
    split
    · next hkind =>
      split
      · exact ht.leaf hc rfl rfl
      · next hvalue =>
        have htoken := hc.tokens token (htokens ▸ mem_cons_self)
        refine ⟨fun place hplace => ?_, token, htoken.1, hkind, hvalue⟩
        cases hplace
        exact htoken.2.1
    · exact ht.leaf hc rfl rfl
    · exact ht.leaf hc rfl rfl
    · exact ht.leaf hc rfl rfl
    · exact ht.leaf hc rfl rfl
    · refine (expr_reads hunary _ (ht.lays hc).laid).bind ?_
      rintro ⟨inner, c₂, h₂⟩ hinner
      refine (Cursor.close_takes hinner.laid _ (by trivial)).bind ?_
      rintro ⟨c₃, h₃⟩ ⟨t₃, ht₃⟩
      exact ht.node hc (hinner.inner.trans (ht₃.lays hinner.laid)) (Expr.span_withSpan _ inner)
        (Piece.ofExpr_withSpan _ inner)
    · refine (array_lays hunary hc ht).bind ?_
      rintro ⟨e, c₂, h₂⟩ he
      exact he
    · refine (braces_lays hunary hc ht).bind ?_
      rintro ⟨e, c₂, h₂⟩ he
      exact he
    · refine (ifThenElse_lays hunary hc ht).bind ?_
      rintro ⟨e, c₂, h₂⟩ he
      exact he
    · exact Cursor.errorHere_on hc trivial

theorem apply_pieces (op : UnaryOp) (e : Expr) (span : Span) :
    Piece.ofExpr (op.apply e span) = [] ∨ Piece.ofExpr (op.apply e span) = [.expr e] := by
  unfold UnaryOp.apply
  split
  · exact .inl rfl
  · exact .inr rfl

theorem span_apply (op : UnaryOp) (e : Expr) (span : Span) : (op.apply e span).span = span := by
  unfold UnaryOp.apply
  split <;> rfl

theorem operand_reads (hunary : ReadsExpr code tokens unary) :
    ReadsExpr code tokens (operand unary) := by
  intro c hc
  unfold operand
  dsimp only
  split
  · next op c₁ h₁ hop =>
    obtain ⟨t, ht⟩ := Cursor.unaryOp_takes hop
    refine (operation_reads hunary _ c₁ (ht.lays hc).laid).bind ?_
    rintro ⟨e, c₂, h₂⟩ he
    refine ht.before_piece hc he ?_ (apply_pieces _ _ _)
    rw [Piece.span, span_apply, ht.current]
    rfl
  · refine (primary_reads hunary c hc).bind ?_
    rintro ⟨e, c₁, h₁⟩ he
    refine (suffixes_lays hunary he).bind ?_
    rintro ⟨e', c₂, h₂⟩ he'
    exact he'

theorem unaryWithin_reads (depth : Nat) : ReadsExpr code tokens (unaryWithin depth) := by
  induction depth with
  | zero =>
    intro c hc
    exact Cursor.errorHere_on hc trivial
  | succ depth ih => exact operand_reads ih

theorem importLine_reads : Reads code tokens (fun i => [.mark i.span]) importLine := by
  intro c hc
  unfold importLine
  refine (Cursor.expect_takes hc _).bind ?_
  rintro ⟨c₁, h₁⟩ ⟨t, ht⟩
  have hc₁ := ht.lays hc
  dsimp only
  split
  · next htokens =>
    have hc₂ := (Cursor.current_of_takes htokens).lays hc₁.laid
    refine (Cursor.expect_takes hc₂.laid _).bind ?_
    rintro ⟨c₃, h₃⟩ ⟨t₃, ht₃⟩
    have hc₃ := hc₂.trans (ht₃.lays hc₂.laid)
    refine (Cursor.name_takes hc₃.laid).bind ?_
    rintro ⟨⟨name, nameSpan⟩, c₄, h₄⟩ ⟨t₄, ht₄, -⟩
    refine ht.node hc (hc₃.trans (ht₄.lays hc₃.laid)) ?_ rfl
    rw [Piece.span, ht.current]
    rfl
  · exact Cursor.errorHere_on hc₁.laid trivial

theorem imports_lays {c : Cursor} (hc : c.Laid code tokens) : Meets (SyntaxError.On code tokens)
    (fun p => Lays code tokens c (p.value.map fun i => .mark i.span) p.rest) (imports c) := by
  rw [imports]
  have hc₁ := Cursor.skipSemicolons_lays hc
  split
  next c₁ h₁ hskip =>
  rw [hskip] at hc₁
  split
  · exact hc₁
  · refine (importLine_reads c₁ hc₁.laid).bind ?_
    rintro ⟨first, c₂, h₂⟩ hfirst
    refine (Cursor.separator_lays hfirst.laid _).bind ?_
    rintro ⟨c₃, h₃⟩ hc₃
    have hlt₃ : c₃.left < c.left := Nat.lt_of_le_of_lt h₃ (Nat.lt_of_lt_of_le h₂ h₁)
    refine (imports_lays hc₃.laid).bind ?_
    rintro ⟨rest, c₄, h₄⟩ hrest
    exact ((hc₁.append hfirst).trans hc₃).append hrest
  termination_by c.left

end Reader

theorem Cursor.ofTokens_laid {code : String} {tokens : List Token} {stop : Token}
    (h : Token.Lexes code .origin tokens stop) :
    (Cursor.ofTokens (tokens ++ [stop])).Laid code tokens := by
  obtain ⟨kind, span, newline⟩ := stop
  obtain rfl : kind = .stop := h.stop
  have hof : Cursor.ofTokens (tokens ++ [⟨.stop, span, newline⟩]) =
      ⟨tokens, ⟨.stop, span, newline⟩, (tokens.headD ⟨.stop, span, newline⟩).span.start⟩ := by
    simp [Cursor.ofTokens]
  rw [hof]
  refine ⟨fun t ht => ?_, ?_, ?_, rfl⟩
  · exact ⟨ht, h.starts t (mem_append_left _ ht), h.stops t (mem_append_left _ ht)⟩
  · cases tokens with
    | nil => exact h.starts _ mem_cons_self
    | cons t rest => exact h.starts _ mem_cons_self
  · have hfollow := h.follow
    cases tokens with
    | nil => exact Nat.le_refl _
    | cons t rest => exact ⟨Nat.le_refl _, hfollow.2⟩

theorem Program.ofTokens_laid {code : String} {tokens : List Token} {stop : Token}
    (h : Token.Lexes code .origin tokens stop) :
    Meets (SyntaxError.On code tokens) (Program.Laid tokens) (Program.ofTokens (tokens ++ [stop])) := by
  have hc := Cursor.ofTokens_laid h
  refine (Reader.imports_lays hc).bind ?_
  rintro ⟨imports, c₁, h₁⟩ himports
  refine (Reader.body_lays (Reader.unaryWithin_reads maxNesting) .program himports.laid).bind ?_
  rintro ⟨⟨statements, result⟩, c₂, h₂⟩ hbody
  have hall := himports.append hbody
  refine ⟨?_, c₂.before.offset, ?_⟩
  · simpa only [Program.pieces, Reader.bodyParts, append_assoc] using hall.pieces
  · simpa only [Program.pieces, Reader.bodyParts, append_assoc] using hall.follow.mono (Nat.zero_le _)

/-- The place of an error in a source text. -/
def Error.In (code : String) : Error → Prop
  | .lexical e => e.place.In code
  | .grammatical e => e.In code

/-- A program lies on the tokens of its text, and what is wrong with a text is at a place of it. -/
theorem parse_laid (code : String) : Meets (Error.In code)
    (fun program => ∃ tokens stop, tokenize code = .ok (tokens ++ [stop]) ∧
      Token.Lexes code .origin tokens stop ∧ program.Laid tokens) (parse code) := by
  have htokenize := tokenize_lexes code
  unfold parse
  split
  · next e h =>
    rw [h] at htokenize
    exact htokenize
  · next all h =>
    rw [h] at htokenize
    obtain ⟨tokens, stop, rfl, hlexes⟩ := htokenize
    have hprogram := Program.ofTokens_laid hlexes
    split
    · next e he =>
      rw [he] at hprogram
      exact hprogram.place
    · next program hok =>
      rw [hok] at hprogram
      exact ⟨tokens, stop, h, hlexes, hprogram⟩

end Syntax

end Estimation
