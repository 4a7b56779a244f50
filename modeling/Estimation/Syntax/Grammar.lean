import Estimation.Syntax
import Estimation.Syntax.Cursor
import Estimation.Token.Lexer
import Estimation.Token.Magnitude

/-!
The grammar. Each phrase is a reader over a reader for operands, `unary`, and the knot is tied
once, by recursion on how deep operands may still nest; within one level a reader calls itself only
further on.
-/

namespace Estimation.Syntax

/-- How deep operands may nest. -/
def maxNesting : Nat := 128

/-! ### Operators -/

namespace BinaryOp

def ofKind? : Token.Kind → Option BinaryOp
  | .symbol .orOr => some .either
  | .symbol .andAnd => some .both
  | .symbol .equalTo => some .equal
  | .symbol .unequalTo => some .unequal
  | .symbol .less => some .smaller
  | .symbol .lessEq => some .smallerEq
  | .symbol .greater => some .larger
  | .symbol .greaterEq => some .largerEq
  | .keyword .toWord => some .spread
  | .symbol .plus => some .add
  | .symbol .minus => some .subtract
  | .symbol .star => some .multiply
  | .symbol .slash => some .divide
  | .symbol .caret => some .power
  | _ => none

/-- Operators of a higher precedence bind tighter. -/
def precedence : BinaryOp → Nat
  | .either => 10
  | .both => 20
  | .equal => 30
  | .unequal => 30
  | .smaller => 40
  | .smallerEq => 40
  | .larger => 40
  | .largerEq => 40
  | .spread => 50
  | .add => 60
  | .subtract => 60
  | .multiply => 70
  | .divide => 70
  | .power => 80

/-- Powers group to the right, all else to the left. -/
def groupsLeft (op : BinaryOp) : Bool := op ≠ .power

/-- The operators of a right operand bind tighter than this. -/
def rightBound (op : BinaryOp) : Nat := if op.groupsLeft then op.precedence else op.precedence - 1

end BinaryOp

namespace UnaryOp

def ofKind? : Token.Kind → Option UnaryOp
  | .symbol .minus => some .minus
  | .symbol .bang => some .not
  | _ => none

/-- Tighter than products, looser than powers. -/
def precedence : Nat := 75

/-- An operator before an operand; the minus before a number is part of the number. -/
def apply (op : UnaryOp) (operand : Expr) (span : Span) : Expr :=
  match op, operand with
  | .minus, .number value _ => .number (-value) span
  | op, operand => .unary op operand span

end UnaryOp

namespace Cursor

def binaryOp? (c : Cursor) : Option (BinaryOp × c.Past) :=
  match h : c.tokens with
  | [] => none
  | token :: rest =>
    (BinaryOp.ofKind? token.kind).map fun op =>
      (op, ⟨⟨rest, c.stop, token.span.stop⟩, left_lt h⟩)

def unaryOp? (c : Cursor) : Option (UnaryOp × c.Past) :=
  match h : c.tokens with
  | [] => none
  | token :: rest =>
    (UnaryOp.ofKind? token.kind).map fun op =>
      (op, ⟨⟨rest, c.stop, token.span.stop⟩, left_lt h⟩)

end Cursor

namespace Reader

/-- What may stand between braces or in a whole program. -/
inductive Place where
  | program
  | block
  deriving DecidableEq, Repr

namespace Place

def closing : Place → Token.Kind
  | .program => .stop
  | .block => .symbol .closeBrace

end Place

/-- What closes a list of parameters. -/
inductive ParameterClosing where
  | paren
  | bar

namespace ParameterClosing

def symbol : ParameterClosing → Symbol
  | .paren => .closeParen
  | .bar => .bar

def fault (closing : ParameterClosing) (c : Cursor) : SyntaxError :=
  match closing with
  | .bar => c.errorHere .parameterSeparator
  | .paren => c.unexpected ["','", (Token.Kind.symbol .closeParen).describe]

end ParameterClosing

/-- Whether the parenthesis that closes `depth` open ones has `=` behind it. -/
def assignsBehind : Nat → List Token → Bool
  | _, [] => false
  | depth, token :: rest =>
    match token.kind with
    | .symbol .openParen => assignsBehind (depth + 1) rest
    | .symbol .closeParen =>
      if depth ≤ 1 then rest.head?.any (·.kind == .symbol .assign)
      else assignsBehind (depth - 1) rest
    | _ => assignsBehind depth rest

/-- A definition begins with `export`, with `name =`, or with `name(…) =` where no line break
stands before the parenthesis. -/
def startsStatement : List Token → Bool
  | first :: second :: rest =>
    match first.kind, second.kind with
    | .keyword .exportWord, _ => true
    | .name _, .symbol .assign => true
    | .name _, .symbol .openParen => !second.newlineBefore && assignsBehind 1 rest
    | _, _ => false
  | [first] => first.kind == .keyword .exportWord
  | [] => false

/-! ### Expressions over a reader for operands -/

section

variable (unary : Reader Expr)

/-- Goes on behind a left operand with the operators that bind tighter than `bound`. -/
def climb (bound : Nat) (left : Expr) (c : Cursor) : Except SyntaxError (ParsedFrom Expr c) :=
  match c.binaryOp? with
  | some (op, ⟨c₁, h₁⟩) =>
    if bound < op.precedence then do
      let ⟨operand, c₂, h₂⟩ ← unary c₁
      let ⟨right, c₃, h₃⟩ ← climb op.rightBound operand c₂
      let whole := Expr.binary op left right (left.span.through right.span)
      let ⟨e, c₄, h₄⟩ ← climb bound whole c₃
      return ⟨e, c₄, by omega⟩
    else .ok ⟨left, c, Nat.le_refl _⟩
  | none => .ok ⟨left, c, Nat.le_refl _⟩
  termination_by c.left

/-- Operands joined by the operators that bind tighter than `bound`. -/
def operation (bound : Nat) : Reader Expr := fun c => do
  let ⟨left, c₁, h₁⟩ ← unary c
  let ⟨e, c₂, h₂⟩ ← climb unary bound left c₁
  return ⟨e, c₂, by omega⟩

/-- A whole expression: an operation, or a choice between two expressions by one. -/
def expr (c : Cursor) : Except SyntaxError (Parsed Expr c) := do
  let ⟨condition, c₁, h₁⟩ ← operation unary 0 c
  match c₁.sign .question with
  | none => return ⟨condition, c₁, h₁⟩
  | some ⟨c₂, h₂⟩ =>
    let ⟨ifTrue, c₃, h₃⟩ ← expr c₂
    let ⟨c₄, h₄⟩ ← c₃.expect (.symbol .colon)
    let ⟨ifFalse, c₅, h₅⟩ ← expr c₄
    let span := condition.span.through ifFalse.span
    return ⟨.choice condition ifTrue ifFalse span, c₅, by omega⟩
  termination_by c.left

/-- Expressions with commas between them up to a closing symbol, one comma behind the last of them
if so written. -/
def items (closing : Symbol) (missing : Fault) (c : Cursor) :
    Except SyntaxError (Parsed (List Expr) c) :=
  match c.sign closing with
  | some ⟨c₁, h₁⟩ => .ok ⟨[], c₁, h₁⟩
  | none => do
    let ⟨item, c₁, h₁⟩ ← expr unary c
    match c₁.sign .comma with
    | some ⟨c₂, h₂⟩ =>
      let ⟨rest, c₃, h₃⟩ ← items closing missing c₂
      return ⟨item :: rest, c₃, by omega⟩
    | none =>
      let ⟨c₂, h₂⟩ ← c₁.close closing missing
      return ⟨[item], c₂, by omega⟩
  termination_by c.left

def arguments : Reader (List Expr) := items unary .closeParen .missingCloseParen

/-- The function of a pipe: a name with keys behind it. -/
def keys (start : Coordinate) (target : Expr) (c : Cursor) :
    Except SyntaxError (ParsedFrom Expr c) :=
  match c.sign .dot with
  | none => .ok ⟨target, c, Nat.le_refl _⟩
  | some ⟨c₁, h₁⟩ => do
    let ⟨key, c₂, h₂⟩ ← c₁.key
    let ⟨e, c₃, h₃⟩ ← keys start (.member target key (c₂.spanFrom start)) c₂
    return ⟨e, c₃, by omega⟩
  termination_by c.left

def pipeCallee : Reader Expr := fun c => do
  let ⟨(name, span), c₁, h₁⟩ ← c.name
  let ⟨e, c₂, h₂⟩ ← keys span.start (.identifier name span) c₁
  return ⟨e, c₂, by omega⟩

/-- Arguments where a parenthesis opens on the same line, none otherwise. -/
def pipeArguments (c : Cursor) : Except SyntaxError (ParsedFrom (List Expr) c) :=
  match c.current.newlineBefore, c.sign .openParen with
  | false, some ⟨c₁, h₁⟩ => do
    let ⟨args, c₂, h₂⟩ ← arguments unary c₁
    return ⟨args, c₂, by omega⟩
  | _, _ => .ok ⟨[], c, Nat.le_refl _⟩

/-- One step behind an operand: a call or an index on the same line, a key, or a pipe. -/
def suffix? (target : Expr) (c : Cursor) : Option (Except SyntaxError (Parsed Expr c)) :=
  let start := target.span.start
  match h : c.tokens with
  | [] => none
  | token :: rest =>
    let c₁ : Cursor := ⟨rest, c.stop, token.span.stop⟩
    have h₁ : c₁.left < c.left := Cursor.left_lt h
    match token.kind, token.newlineBefore with
    | .symbol .openParen, false => some do
      let ⟨args, c₂, h₂⟩ ← arguments unary c₁
      return ⟨.call target args (c₂.spanFrom start), c₂, by omega⟩
    | .symbol .openBracket, false => some do
      let ⟨index, c₂, h₂⟩ ← expr unary c₁
      let ⟨c₃, h₃⟩ ← c₂.close .closeBracket .missingCloseBracket
      return ⟨.lookup target index (c₃.spanFrom start), c₃, by omega⟩
    | .symbol .dot, _ => some do
      let ⟨key, c₂, h₂⟩ ← c₁.key
      return ⟨.member target key (c₂.spanFrom start), c₂, by omega⟩
    | .symbol .arrow, _ => some do
      let ⟨callee, c₂, h₂⟩ ← pipeCallee c₁
      let ⟨args, c₃, h₃⟩ ← pipeArguments unary c₂
      return ⟨.pipe target callee args (c₃.spanFrom start), c₃, by omega⟩
    | _, _ => none

def suffixes (target : Expr) (c : Cursor) : Except SyntaxError (ParsedFrom Expr c) :=
  match suffix? unary target c with
  | none => .ok ⟨target, c, Nat.le_refl _⟩
  | some step => do
    let ⟨e, c₁, h₁⟩ ← step
    let ⟨e', c₂, h₂⟩ ← suffixes e c₁
    return ⟨e', c₂, by omega⟩
  termination_by c.left

/-! ### Parameters, statements and bodies -/

def parameters (closing : ParameterClosing) (c : Cursor) :
    Except SyntaxError (Parsed (List (Parameter Expr)) c) := do
  let ⟨(name, span), c₁, h₁⟩ ← c.name
  let ⟨range, c₂, h₂⟩ : ParsedFrom (Option Expr) c₁ ←
    match c₁.sign .colon with
    | none => pure ⟨none, c₁, Nat.le_refl _⟩
    | some ⟨d, hd⟩ => do
      let ⟨range, d', hd'⟩ ← operation unary 0 d
      pure ⟨some range, d', by omega⟩
  match c₂.sign .comma with
  | some ⟨c₃, h₃⟩ =>
    let ⟨rest, c₄, h₄⟩ ← parameters closing c₃
    return ⟨⟨name, span, range⟩ :: rest, c₄, by omega⟩
  | none =>
    let some ⟨c₃, h₃⟩ := c₂.sign closing.symbol | .error (closing.fault c₂)
    return ⟨[⟨name, span, range⟩], c₃, by omega⟩
  termination_by c.left

/-- Parameters up to the symbol that closes them, which may come at once. -/
def parameterList (closing : ParameterClosing) (c : Cursor) :
    Except SyntaxError (Parsed (List (Parameter Expr)) c) :=
  match c.sign closing.symbol with
  | some ⟨c₁, h₁⟩ => .ok ⟨[], c₁, h₁⟩
  | none => parameters unary closing c

/-- What is defined: a function by its parameters and body, or any value. -/
def definition (name : String) (nameSpan : Span) : Reader Expr := fun c =>
  match c.sign .openParen with
  | some ⟨c₁, h₁⟩ => do
    let ⟨ps, c₂, h₂⟩ ← parameterList unary .paren c₁
    let ⟨c₃, h₃⟩ ← c₂.expect (.symbol .assign)
    let ⟨body, c₄, h₄⟩ ← expr unary c₃
    return ⟨.lambda (some name) ps body (c₄.spanFrom nameSpan.start), c₄, by omega⟩
  | none => do
    let ⟨c₁, h₁⟩ ← c.expect (.symbol .assign)
    let ⟨value, c₂, h₂⟩ ← expr unary c₁
    return ⟨value.named name, c₂, by omega⟩

def statement : Reader (Statement Expr) := fun c => do
  let start := c.current.span.start
  let ⟨exported, c₁, h₁⟩ : ParsedFrom Bool c :=
    match c.word .exportWord with
    | some ⟨d, hd⟩ => ⟨true, d, Nat.le_of_lt hd⟩
    | none => ⟨false, c, Nat.le_refl _⟩
  let ⟨(name, nameSpan), c₂, h₂⟩ ← c₁.name
  let ⟨value, c₃, h₃⟩ ← definition unary name nameSpan c₂
  return ⟨⟨name, nameSpan, value, exported, c₃.spanFrom start⟩, c₃, by omega⟩

/-- Statements and a result, up to the closing token, which is not read. -/
def body (place : Place) (c : Cursor) :
    Except SyntaxError (ParsedFrom (List (Statement Expr) × Option Expr) c) :=
  let ⟨c₁, h₁⟩ := c.skipSemicolons
  if c₁.current.kind = place.closing then .ok ⟨([], none), c₁, h₁⟩
  else if c₁.current.kind = .keyword .importWord then .error (c₁.errorHere .lateImport)
  else if startsStatement c₁.tokens then
    if place = .block ∧ c₁.current.kind = .keyword .exportWord then
      .error (c₁.errorHere .exportInBlock)
    else do
      let ⟨first, c₂, h₂⟩ ← statement unary c₁
      let ⟨c₃, h₃⟩ ← c₂.separator place.closing
      let ⟨(statements, result), c₄, h₄⟩ ← body place c₃
      return ⟨(first :: statements, result), c₄, by omega⟩
  else do
    let ⟨result, c₂, h₂⟩ ← expr unary c₁
    let ⟨c₃, h₃⟩ := c₂.skipSemicolons
    if c₃.current.kind = place.closing then
      return ⟨([], some result), c₃, by omega⟩
    else .error (c₃.unexpected [place.closing.describe])
  termination_by c.left

/-- A body that has a result; without statements it is its result. -/
def blockBody (start : Coordinate) (c : Cursor) : Except SyntaxError (ParsedFrom Expr c) := do
  let ⟨(statements, result), c₁, h₁⟩ ← body unary .block c
  let some result := result | .error (c₁.errorHere .blockWithoutResult)
  if statements.isEmpty then return ⟨result, c₁, h₁⟩
  else return ⟨.block statements result (c₁.spanFrom start), c₁, h₁⟩

/-! ### Operands -/

def array (start : Coordinate) : Reader Expr := fun c => do
  let ⟨es, c₁, h₁⟩ ← items unary .closeBracket .missingCloseBracket c
  return ⟨.list es (c₁.spanFrom start), c₁, h₁⟩

/-- A key of a dictionary is a name or a string. -/
def entryKey : Reader (String × Span) := fun c =>
  match h : c.tokens with
  | ⟨.name written, span, _⟩ :: _ => .ok (.first (written, span) h)
  | ⟨.string content, span, _⟩ :: _ => .ok (.first (content, span) h)
  | _ => .error (c.unexpected ["identifier", "string"])

def entries (c : Cursor) : Except SyntaxError (Parsed (List (Entry Expr)) c) :=
  match c.sign .closeBrace with
  | some ⟨c₁, h₁⟩ => .ok ⟨[], c₁, h₁⟩
  | none => do
    let ⟨(key, keySpan), c₁, h₁⟩ ← entryKey c
    let ⟨c₂, h₂⟩ ← c₁.expect (.symbol .colon)
    let ⟨value, c₃, h₃⟩ ← expr unary c₂
    let entry : Entry Expr := ⟨key, keySpan, value⟩
    match c₃.sign .comma with
    | some ⟨c₄, h₄⟩ =>
      let ⟨rest, c₅, h₅⟩ ← entries c₄
      return ⟨entry :: rest, c₅, by omega⟩
    | none =>
      let ⟨c₄, h₄⟩ ← c₃.close .closeBrace .missingCloseBrace
      return ⟨[entry], c₄, by omega⟩
  termination_by c.left

/-- A lambda behind its parameters. -/
def lambdaBody (start : Coordinate) (ps : List (Parameter Expr)) : Reader Expr := fun c => do
  let ⟨e, c₁, h₁⟩ ← blockBody unary c.current.span.start c
  let ⟨c₂, h₂⟩ ← c₁.close .closeBrace .missingCloseBrace
  return ⟨.lambda none ps e (c₂.spanFrom start), c₂, by omega⟩

/-- Whether a key and a colon come next. -/
def startsEntry : List Token → Bool
  | first :: second :: _ =>
    second.kind == .symbol .colon &&
      match first.kind with
      | .name _ => true
      | .string _ => true
      | _ => false
  | _ => false

/-- What begins with a brace: a lambda, a dictionary or a block. -/
def braces (start : Coordinate) : Reader Expr := fun c =>
  match c.sign .bar, c.sign .orOr, c.sign .closeBrace with
  | some ⟨c₁, h₁⟩, _, _ => do
    let ⟨ps, c₂, h₂⟩ ← parameterList unary .bar c₁
    let ⟨e, c₃, h₃⟩ ← lambdaBody unary start ps c₂
    return ⟨e, c₃, by omega⟩
  | none, some ⟨c₁, h₁⟩, _ => do
    let ⟨e, c₂, h₂⟩ ← lambdaBody unary start [] c₁
    return ⟨e, c₂, by omega⟩
  | none, none, some ⟨c₁, h₁⟩ => .ok ⟨.dict [] (c₁.spanFrom start), c₁, h₁⟩
  | none, none, none =>
    if startsEntry c.tokens then do
      let ⟨es, c₁, h₁⟩ ← entries unary c
      return ⟨.dict es (c₁.spanFrom start), c₁, h₁⟩
    else do
      let ⟨e, c₁, h₁⟩ ← blockBody unary start c
      let ⟨c₂, h₂⟩ ← c₁.close .closeBrace .missingCloseBrace
      return ⟨e.withSpan (c₂.spanFrom start), c₂, by omega⟩

/-- A choice behind the word `if`. -/
def ifThenElse (start : Coordinate) : Reader Expr := fun c => do
  let ⟨condition, c₁, h₁⟩ ← expr unary c
  let ⟨c₂, h₂⟩ ← c₁.expect (.keyword .thenWord)
  let ⟨ifTrue, c₃, h₃⟩ ← expr unary c₂
  let ⟨c₄, h₄⟩ ← c₃.expect (.keyword .elseWord)
  let ⟨ifFalse, c₅, h₅⟩ ← expr unary c₄
  return ⟨.choice condition ifTrue ifFalse (c₅.spanFrom start), c₅, by omega⟩

/-- An operand without what stands before and behind it. -/
def primary : Reader Expr := fun c =>
  match h : c.tokens with
  | [] => .error ⟨.endOfInput, .endOfInput⟩
  | token :: rest =>
    let start := token.span.start
    let c₁ : Cursor := ⟨rest, c.stop, token.span.stop⟩
    have h₁ : c₁.left < c.left := Cursor.left_lt h
    match token.kind with
    | .number written =>
      match Token.numberValue? written with
      | some value => .ok ⟨.number value token.span, c₁, h₁⟩
      | none => .error ⟨.invalidNumber written, .here start⟩
    | .string content => .ok ⟨.string content token.span, c₁, h₁⟩
    | .keyword .trueWord => .ok ⟨.bool true token.span, c₁, h₁⟩
    | .keyword .falseWord => .ok ⟨.bool false token.span, c₁, h₁⟩
    | .name written => .ok ⟨.identifier written token.span, c₁, h₁⟩
    | .symbol .openParen => do
      let ⟨inner, c₂, h₂⟩ ← expr unary c₁
      let ⟨c₃, h₃⟩ ← c₂.close .closeParen .missingCloseParen
      return ⟨inner.withSpan (c₃.spanFrom start), c₃, by omega⟩
    | .symbol .openBracket => do
      let ⟨e, c₂, h₂⟩ ← array unary start c₁
      return ⟨e, c₂, by omega⟩
    | .symbol .openBrace => do
      let ⟨e, c₂, h₂⟩ ← braces unary start c₁
      return ⟨e, c₂, by omega⟩
    | .keyword .ifWord => do
      let ⟨e, c₂, h₂⟩ ← ifThenElse unary start c₁
      return ⟨e, c₂, by omega⟩
    | _ => .error (c.unexpected ["expression"])

/-- One level of operands: operators before an operand, or an operand with what is behind it. -/
def operand : Reader Expr := fun c =>
  let start := c.current.span.start
  match c.unaryOp? with
  | some (op, ⟨c₁, h₁⟩) => do
    let ⟨e, c₂, h₂⟩ ← operation unary UnaryOp.precedence c₁
    return ⟨op.apply e ⟨start, e.span.stop⟩, c₂, by omega⟩
  | none => do
    let ⟨e, c₁, h₁⟩ ← primary unary c
    let ⟨e', c₂, h₂⟩ ← suffixes unary e c₁
    return ⟨e', c₂, by omega⟩

end

/-- Operands that nest at most so deep. -/
def unaryWithin : Nat → Reader Expr
  | 0, c => .error (c.errorHere (.tooDeep maxNesting))
  | depth + 1, c => operand (unaryWithin depth) c

def unary : Reader Expr := unaryWithin maxNesting

/-! ### Programs -/

def importLine : Reader Import := fun c => do
  let start := c.current.span.start
  let ⟨c₁, h₁⟩ ← c.expect (.keyword .importWord)
  let ⟨path, c₂, h₂⟩ : Parsed String c₁ ←
    match h : c₁.tokens with
    | ⟨.string content, _, _⟩ :: _ => pure (.first content h)
    | _ => .error (c₁.unexpected [(Token.Kind.string "").describe])
  let ⟨c₃, h₃⟩ ← c₂.expect (.keyword .asWord)
  let ⟨(name, _), c₄, h₄⟩ ← c₃.name
  return ⟨⟨path, name, c₄.spanFrom start⟩, c₄, by omega⟩

/-- Imports, each on a line of its own or with a semicolon behind it. -/
def imports (c : Cursor) : Except SyntaxError (ParsedFrom (List Import) c) :=
  let ⟨c₁, h₁⟩ := c.skipSemicolons
  match c₁.word .importWord with
  | none => .ok ⟨[], c₁, h₁⟩
  | some _ => do
    let ⟨first, c₂, h₂⟩ ← importLine c₁
    let ⟨c₃, h₃⟩ ← c₂.separator .stop
    let ⟨rest, c₄, h₄⟩ ← imports c₃
    return ⟨first :: rest, c₄, by omega⟩
  termination_by c.left

end Reader

namespace Program

/-- The program that a list of tokens spells. -/
def ofTokens (tokens : List Token) : Except SyntaxError Program := do
  let c := Cursor.ofTokens tokens
  let ⟨imports, c₁, _⟩ ← Reader.imports c
  let ⟨(statements, result), c₂, _⟩ ← Reader.body Reader.unary .program c₁
  return ⟨imports, statements, result, ⟨c.current.span.start, c₂.current.span.stop⟩⟩

end Program

/-- Why a text is no program. -/
inductive Error where
  | lexical (e : Token.LexicalError)
  | grammatical (e : SyntaxError)
  deriving DecidableEq, Repr

namespace Error

def message : Error → String
  | .lexical e => e.message
  | .grammatical e => e.message

end Error

/-- The program that a source text spells. -/
def parse (source : String) : Except Error Program :=
  match tokenize source with
  | .error e => .error (.lexical e)
  | .ok tokens =>
    match Program.ofTokens tokens with
    | .error e => .error (.grammatical e)
    | .ok program => .ok program

end Estimation.Syntax
