import Estimation.Syntax.Grammar

/-!
How deep the expressions of a program stand in each other. A program is written as tokens by rules, one
for each form of a phrase; the rules say at which position of the phrase each expression in it stands,
and from the positions that count come the levels of the whole. How operators group is no matter of the
rules: a phrase is given together with its words.
-/

namespace Estimation.Syntax

open Token (Kind)

/-- Where an expression stands in the phrase that it is part of. -/
inductive Position where
  | paren          -- `(e)`
  | argument       -- `f(e)`, also behind a pipe
  | index          -- `x[e]`
  | item           -- `[e]`
  | entry          -- `{key: e}`
  | block          -- `{e}`, with or without statements before it, and these too
  | lambda         -- `{|x| e}`
  | lambdaRange    -- `{|x: e| y}`
  | operand        -- `-e` and `!e`
  | condition      -- `if e then x else y`
  | branch         -- `if x then e else e`
  | right          -- `x + e`
  | alternative    -- `x ? e : e`
  | function       -- `f(x) = e`
  | functionRange  -- `f(x: e) = y`
  deriving DecidableEq, Repr

namespace Position

/-- The positions that are deeper than the phrase around them, which are all but the condition of a
choice. -/
def isInner (p : Position) : Bool := p ≠ .condition

/-- The positions that are deeper for a reader of operands. It goes down only into what an operand is
made of; what is behind the sign of an operator or of a definition is read at the level of the phrase
around it. -/
def isTracked : Position → Bool
  | .right => false
  | .alternative => false
  | .function => false
  | .functionRange => false
  | _ => true

end Position

/-- What rules write. -/
inductive Phrase where
  | expr (e : Expr)
  | parameter (p : Parameter Expr)
  | entry (entry : Entry Expr)
  /-- phrases with commas between them, and the symbol behind them -/
  | several (phrases : List Phrase) (closing : Symbol)
  /-- what braces hold, as one expression -/
  | content (e : Expr)
  /-- what is behind the name of a definition -/
  | definition (name : String) (value : Expr)
  | statement (s : Statement Expr)
  | body (statements : List (Statement Expr)) (result : Option Expr)
  | imports (imports : List Import)
  | program (p : Program)

section

variable (counts : Position → Bool)

/-- The levels around a position that is so many levels deep in itself. -/
def levelsAround (p : Position) (n : Nat) : Nat := if counts p then n + 1 else n

/-- `Written q ks rest n`: the words `ks` write the phrase `q`, and behind it are the words `rest`. An
expression in no other has one level; each position that counts adds one to the expressions in it. -/
inductive Written : Phrase → List Kind → List Kind → Nat → Prop
  | number {written : String} {value : Float} {span : Span} {rest : List Kind} :
      Token.numberValue? written = some value →
      Written (.expr (.number value span)) (.number written :: rest) rest 1
  | string {content : String} {span : Span} {rest : List Kind} :
      Written (.expr (.string content span)) (.string content :: rest) rest 1
  | true {span : Span} {rest : List Kind} :
      Written (.expr (.bool true span)) (.keyword .trueWord :: rest) rest 1
  | false {span : Span} {rest : List Kind} :
      Written (.expr (.bool false span)) (.keyword .falseWord :: rest) rest 1
  | identifier {name : String} {span : Span} {rest : List Kind} :
      Written (.expr (.identifier name span)) (.name name :: rest) rest 1
  | paren {e : Expr} {span : Span} {ks rest : List Kind} {n : Nat} :
      Written (.expr e) ks (.symbol .closeParen :: rest) n →
      Written (.expr (e.withSpan span)) (.symbol .openParen :: ks) rest (levelsAround counts .paren n)
  | list {es : List Expr} {span : Span} {ks rest : List Kind} {n : Nat} :
      Written (.several (es.map .expr) .closeBracket) ks rest n →
      Written (.expr (.list es span)) (.symbol .openBracket :: ks) rest
        (max 1 (levelsAround counts .item n))
  | dict {es : List (Entry Expr)} {span : Span} {ks rest : List Kind} {n : Nat} :
      Written (.several (es.map .entry) .closeBrace) ks rest n →
      Written (.expr (.dict es span)) (.symbol .openBrace :: ks) rest
        (max 1 (levelsAround counts .entry n))
  | block {e : Expr} {span : Span} {ks rest : List Kind} {n : Nat} :
      Written (.content e) ks (.symbol .closeBrace :: rest) n →
      Written (.expr (e.withSpan span)) (.symbol .openBrace :: ks) rest (levelsAround counts .block n)
  | lambda {ps : List (Parameter Expr)} {e : Expr} {span : Span} {ks ks' rest : List Kind} {i j : Nat} :
      Written (.several (ps.map .parameter) .bar) ks ks' i →
      Written (.content e) ks' (.symbol .closeBrace :: rest) j →
      Written (.expr (.lambda none ps e span)) (.symbol .openBrace :: .symbol .bar :: ks) rest
        (max (levelsAround counts .lambdaRange i) (levelsAround counts .lambda j))
  /-- The bars around no parameters are one word. -/
  | thunk {e : Expr} {span : Span} {ks rest : List Kind} {n : Nat} :
      Written (.content e) ks (.symbol .closeBrace :: rest) n →
      Written (.expr (.lambda none [] e span)) (.symbol .openBrace :: .symbol .orOr :: ks) rest
        (levelsAround counts .lambda n)
  | call {callee : Expr} {args : List Expr} {span : Span} {ks ks' rest : List Kind} {i j : Nat} :
      Written (.expr callee) ks (.symbol .openParen :: ks') i →
      Written (.several (args.map .expr) .closeParen) ks' rest j →
      Written (.expr (.call callee args span)) ks rest (max i (levelsAround counts .argument j))
  | lookup {target index : Expr} {span : Span} {ks ks' rest : List Kind} {i j : Nat} :
      Written (.expr target) ks (.symbol .openBracket :: ks') i →
      Written (.expr index) ks' (.symbol .closeBracket :: rest) j →
      Written (.expr (.lookup target index span)) ks rest (max i (levelsAround counts .index j))
  | member {target : Expr} {key : String} {span : Span} {ks rest : List Kind} {n : Nat} :
      Written (.expr target) ks (.symbol .dot :: .name key :: rest) n →
      Written (.expr (.member target key span)) ks rest n
  | pipe {left callee : Expr} {span : Span} {ks ks' rest : List Kind} {i j : Nat} :
      Written (.expr left) ks (.symbol .arrow :: ks') i →
      Written (.expr callee) ks' rest j →
      Written (.expr (.pipe left callee [] span)) ks rest (max i j)
  | pipeCall {left callee : Expr} {args : List Expr} {span : Span} {ks ks' ks'' rest : List Kind}
      {h i j : Nat} :
      Written (.expr left) ks (.symbol .arrow :: ks') h →
      Written (.expr callee) ks' (.symbol .openParen :: ks'') i →
      Written (.several (args.map .expr) .closeParen) ks'' rest j →
      Written (.expr (.pipe left callee args span)) ks rest
        (max h (max i (levelsAround counts .argument j)))
  | binary {op : BinaryOp} {sign : Kind} {left right : Expr} {span : Span} {ks ks' rest : List Kind}
      {i j : Nat} :
      BinaryOp.ofKind? sign = some op →
      Written (.expr left) ks (sign :: ks') i →
      Written (.expr right) ks' rest j →
      Written (.expr (.binary op left right span)) ks rest (max i (levelsAround counts .right j))
  | unary {op : UnaryOp} {sign : Kind} {e : Expr} {span : Span} {ks rest : List Kind} {n : Nat} :
      UnaryOp.ofKind? sign = some op →
      Written (.expr e) ks rest n →
      Written (.expr (op.apply e span)) (sign :: ks) rest (levelsAround counts .operand n)
  | choice {condition ifTrue ifFalse : Expr} {span : Span} {ks ks' ks'' rest : List Kind} {h i j : Nat} :
      Written (.expr condition) ks (.symbol .question :: ks') h →
      Written (.expr ifTrue) ks' (.symbol .colon :: ks'') i →
      Written (.expr ifFalse) ks'' rest j →
      Written (.expr (.choice condition ifTrue ifFalse span)) ks rest
        (max h (max (levelsAround counts .alternative i) (levelsAround counts .alternative j)))
  | ifThenElse {condition ifTrue ifFalse : Expr} {span : Span} {ks ks' ks'' rest : List Kind}
      {h i j : Nat} :
      Written (.expr condition) ks (.keyword .thenWord :: ks') h →
      Written (.expr ifTrue) ks' (.keyword .elseWord :: ks'') i →
      Written (.expr ifFalse) ks'' rest j →
      Written (.expr (.choice condition ifTrue ifFalse span)) (.keyword .ifWord :: ks) rest
        (max (levelsAround counts .condition h)
          (max (levelsAround counts .branch i) (levelsAround counts .branch j)))
  | parameter {name : String} {span : Span} {rest : List Kind} :
      Written (.parameter ⟨name, span, none⟩) (.name name :: rest) rest 0
  | range {name : String} {span : Span} {e : Expr} {ks rest : List Kind} {n : Nat} :
      Written (.expr e) ks rest n →
      Written (.parameter ⟨name, span, some e⟩) (.name name :: .symbol .colon :: ks) rest n
  | entry {key : String} {sign : Kind} {span : Span} {e : Expr} {ks rest : List Kind} {n : Nat} :
      sign = .name key ∨ sign = .string key →
      Written (.expr e) ks rest n →
      Written (.entry ⟨key, span, e⟩) (sign :: .symbol .colon :: ks) rest n
  | none {closing : Symbol} {rest : List Kind} :
      Written (.several [] closing) (.symbol closing :: rest) rest 0
  | last {q : Phrase} {closing : Symbol} {ks rest : List Kind} {n : Nat} :
      Written q ks (.symbol closing :: rest) n →
      Written (.several [q] closing) ks rest n
  | cons {q : Phrase} {qs : List Phrase} {closing : Symbol} {ks ks' rest : List Kind} {i j : Nat} :
      Written q ks (.symbol .comma :: ks') i →
      Written (.several qs closing) ks' rest j →
      Written (.several (q :: qs) closing) ks rest (max i j)
  | single {e : Expr} {ks rest : List Kind} {n : Nat} :
      Written (.body [] (some e)) ks rest n →
      Written (.content e) ks rest n
  | statements {s : Statement Expr} {ss : List (Statement Expr)} {e : Expr} {span : Span}
      {ks rest : List Kind} {n : Nat} :
      Written (.body (s :: ss) (some e)) ks rest n →
      Written (.content (.block (s :: ss) e span)) ks rest n
  | value {name : String} {e : Expr} {ks rest : List Kind} {n : Nat} :
      Written (.expr e) ks rest n →
      Written (.definition name (e.named name)) (.symbol .assign :: ks) rest n
  | function {name : String} {ps : List (Parameter Expr)} {e : Expr} {span : Span}
      {ks ks' rest : List Kind} {i j : Nat} :
      Written (.several (ps.map .parameter) .closeParen) ks (.symbol .assign :: ks') i →
      Written (.expr e) ks' rest j →
      Written (.definition name (.lambda (some name) ps e span)) (.symbol .openParen :: ks) rest
        (max (levelsAround counts .functionRange i) (levelsAround counts .function j))
  | statement {name : String} {nameSpan span : Span} {value : Expr} {ks rest : List Kind} {n : Nat} :
      Written (.definition name value) ks rest n →
      Written (.statement ⟨name, nameSpan, value, false, span⟩) (.name name :: ks) rest n
  | exported {name : String} {nameSpan span : Span} {value : Expr} {ks rest : List Kind} {n : Nat} :
      Written (.definition name value) ks rest n →
      Written (.statement ⟨name, nameSpan, value, true, span⟩)
        (.keyword .exportWord :: .name name :: ks) rest n
  | nothing {rest : List Kind} : Written (.body [] none) rest rest 0
  | result {e : Expr} {ks ks' rest : List Kind} {n : Nat} :
      Written (.expr e) ks ks' n →
      Written (.body [] none) ks' rest 0 →
      Written (.body [] (some e)) ks rest n
  | next {s : Statement Expr} {ss : List (Statement Expr)} {e : Option Expr} {ks ks' rest : List Kind}
      {i j : Nat} :
      Written (.statement s) ks ks' i →
      Written (.body ss e) ks' rest j →
      Written (.body (s :: ss) e) ks rest (max i j)
  | semicolons {ss : List (Statement Expr)} {e : Option Expr} {ks rest : List Kind} {n : Nat} (k : Nat) :
      Written (.body ss e) ks rest n →
      Written (.body ss e) (List.replicate k (.symbol .semicolon) ++ ks) rest n
  | noImports {rest : List Kind} : Written (.imports []) rest rest 0
  | importLine {path name : String} {span : Span} {is : List Import} {ks rest : List Kind} {n : Nat} :
      Written (.imports is) ks rest n →
      Written (.imports (⟨path, name, span⟩ :: is))
        (.keyword .importWord :: .string path :: .keyword .asWord :: .name name :: ks) rest n
  | importSemicolons {is : List Import} {ks rest : List Kind} {n : Nat} (k : Nat) :
      Written (.imports is) ks rest n →
      Written (.imports is) (List.replicate k (.symbol .semicolon) ++ ks) rest n
  | program {p : Program} {ks ks' rest : List Kind} {i j : Nat} :
      Written (.imports p.imports) ks ks' i →
      Written (.body p.statements p.result) ks' rest j →
      Written (.program p) ks rest (max i j)

end

namespace Written

variable {counts : Position → Bool} {q : Phrase} {ks rest : List Kind} {m n : Nat}

theorem of_levels (h : Written counts q ks rest m) (hn : m = n) : Written counts q ks rest n := hn ▸ h

/-- What is behind a phrase ends what begins with it. -/
theorem suffix (h : Written counts q ks rest n) : rest <:+ ks := by
  -- Every rule takes words from the front, of its own or those of the phrases in it.
  induction h <;> grind [List.IsSuffix.trans, List.suffix_cons, List.suffix_append]

end Written

namespace Expr

/-- How many operators stand in each other's right operand, from the outermost on. -/
def rights : Expr → Nat
  | .binary _ _ right _ => right.rights + 1
  | _ => 0

theorem rights_withSpan (span : Span) (e : Expr) : (e.withSpan span).rights = e.rights := by
  cases e <;> rfl

theorem rights_apply (op : UnaryOp) (e : Expr) (span : Span) : (op.apply e span).rights = 0 := by
  unfold UnaryOp.apply
  split <;> rfl

end Expr

/-- The levels of a phrase that its last expression has from right operands alone. -/
def Phrase.rightLevels : Phrase → Nat
  | .expr e => e.rights + 1
  | .content e => e.rights + 1
  | .body _ result => (result.map (·.rights + 1)).getD 0
  | .program p => (p.result.map (·.rights + 1)).getD 0
  | _ => 0

theorem le_levelsAround (counts : Position → Bool) (p : Position) (n : Nat) :
    n ≤ levelsAround counts p n := by
  unfold levelsAround
  split <;> omega

/-- Where right operands count, a chain of them is as deep as it is long. -/
theorem Written.rightLevels_le {q : Phrase} {ks rest : List Kind} {n : Nat}
    (h : Written Position.isInner q ks rest n) : q.rightLevels ≤ n := by
  induction h with
  | binary _ _ _ _ ihRight =>
    exact Nat.le_trans (Nat.succ_le_succ ihRight) (Nat.le_max_right _ _)
  | paren _ ih | block _ ih =>
    rw [Phrase.rightLevels, Expr.rights_withSpan]
    exact Nat.le_trans ih (le_levelsAround _ _ _)
  | unary =>
    rw [Phrase.rightLevels, Expr.rights_apply]
    exact Nat.le_add_left _ _
  | _ => grind [Phrase.rightLevels, Expr.rights, le_levelsAround]

end Estimation.Syntax
