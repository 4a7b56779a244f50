import Estimation.Token

/-!
A reader's place among tokens. Each step of a reader returns the cursor behind what it read,
together with the fact that fewer tokens are left, so that readers can call themselves on it.
-/

namespace Estimation.Syntax

/-- What can be wrong with the order of tokens. -/
inductive Fault where
  | unexpected (found : String) (expected : List String)
  | invalidNumber (written : String)
  | missingCloseParen
  | missingCloseBracket
  | missingCloseBrace
  | endOfInput
  | parameterSeparator
  | keyAfterDot
  | notAName (found : String)
  | missingSeparator (found : String)
  | exportInBlock
  | blockWithoutResult
  | lateImport
  | tooDeep (limit : Nat)
  deriving DecidableEq, Repr

namespace Fault

def message : Fault → String
  | .unexpected found [] => s!"Unexpected token {found}"
  | .unexpected found expected =>
    s!"Unexpected token {found}, expected: " ++ ", ".intercalate expected
  | .invalidNumber written => s!"Invalid number format: '{written}'"
  | .missingCloseParen => "Missing right parenthesis ')'"
  | .missingCloseBracket => "Missing right bracket ']'"
  | .missingCloseBrace => "Missing right curly brace '\x7d'"
  | .endOfInput => "Unexpected end of input"
  | .parameterSeparator => "Expected ',' or '|' in lambda parameters"
  | .keyAfterDot => "Expected identifier after '.'"
  | .notAName found => s!"Expected identifier, found: {found}"
  | .missingSeparator found => s!"Expected ';' or a newline before {found}"
  | .exportInBlock => "Exports are only allowed at the top level"
  | .blockWithoutResult => "A block must end with an expression"
  | .lateImport => "Imports must come before any other statement"
  | .tooDeep limit => s!"Expression nested deeper than {limit} levels"

end Fault

/-- Where a fault is reported: at a token, behind the token before it, or at the end. -/
inductive Location where
  | here (place : Coordinate)
  | behind (place : Coordinate)
  | endOfInput
  deriving DecidableEq, Repr

namespace Location

def coordinate? : Location → Option Coordinate
  | .here place => some place
  | .behind place => some place
  | .endOfInput => none

def text : Location → String
  | .here place => place.text
  | .behind place => place.text ++ "(after)"
  | .endOfInput => "EOF"

end Location

structure SyntaxError where
  fault : Fault
  location : Location
  deriving DecidableEq, Repr

namespace SyntaxError

def message (e : SyntaxError) : String := s!"[{e.location.text}] {e.fault.message}"

end SyntaxError

/-- The tokens to be read, the mark of the end behind them, and the end of the token before. -/
structure Cursor where
  tokens : List Token
  stop : Token
  before : Coordinate

namespace Cursor

/-- The number of tokens to be read. -/
def left (c : Cursor) : Nat := c.tokens.length

theorem left_lt {c : Cursor} {token : Token} {rest : List Token} (h : c.tokens = token :: rest) :
    left ⟨rest, c.stop, token.span.stop⟩ < c.left := by
  rw [left, left, h]
  exact Nat.lt_succ_self _

def current (c : Cursor) : Token := c.tokens.headD c.stop

/-- A cursor before a list of tokens; where the list lacks the mark of its end, one is added. -/
def ofTokens (tokens : List Token) : Cursor :=
  let (tokens, stop) : List Token × Token :=
    match tokens.getLast? with
    | some ⟨.stop, span, newline⟩ => (tokens.dropLast, ⟨.stop, span, newline⟩)
    | last =>
      (tokens, ⟨.stop, .point ((last.map fun t => t.span.stop).getD .origin), false⟩)
  ⟨tokens, stop, (tokens.headD stop).span.start⟩

/-- The cursors that are further on than `c`. -/
def Past (c : Cursor) : Type := { d : Cursor // d.left < c.left }

/-- The cursors that are not before `c`. -/
def From (c : Cursor) : Type := { d : Cursor // d.left ≤ c.left }

/-- Reads one token of a kind. -/
def accept (kind : Token.Kind) (c : Cursor) : Option c.Past :=
  match h : c.tokens with
  | [] => none
  | token :: rest =>
    if token.kind = kind then some ⟨⟨rest, c.stop, token.span.stop⟩, left_lt h⟩ else none

/-- Reads one symbol. -/
def sign (symbol : Symbol) (c : Cursor) : Option c.Past := c.accept (.symbol symbol)

def word (keyword : Keyword) (c : Cursor) : Option c.Past := c.accept (.keyword keyword)

/-- The span from a place to the end of the token before the cursor. -/
def spanFrom (c : Cursor) (start : Coordinate) : Span := ⟨start, c.before⟩

/-- Passes over semicolons. -/
def skipSemicolons (c : Cursor) : c.From :=
  match c.sign .semicolon with
  | some d =>
    let ⟨e, he⟩ := skipSemicolons d.1
    ⟨e, Nat.le_trans he (Nat.le_of_lt d.2)⟩
  | none => ⟨c, Nat.le_refl _⟩
  termination_by c.left
  decreasing_by exact d.2

/-- A fault at the current token. -/
def errorHere (c : Cursor) (fault : Fault) : SyntaxError :=
  ⟨fault, if c.current.kind = .stop then .endOfInput else .here c.current.span.start⟩

/-- The current token is none of those expected. -/
def unexpected (c : Cursor) (expected : List String) : SyntaxError :=
  c.errorHere (.unexpected c.current.kind.shown expected)

/-- Reads a token that has to be there. -/
def expect (kind : Token.Kind) (c : Cursor) : Except SyntaxError c.Past :=
  match c.accept kind with
  | some d => .ok d
  | none => .error (c.unexpected [kind.describe])

/-- Reads a closing bracket; where it is missing, the fault is behind what should be closed. -/
def close (symbol : Symbol) (missing : Fault) (c : Cursor) : Except SyntaxError c.Past :=
  match c.sign symbol with
  | some d => .ok d
  | none => .error ⟨missing, .behind c.before⟩

end Cursor

/-- A value that was read, and the cursor behind it. -/
structure Parsed (α : Type) (c : Cursor) where
  value : α
  rest : Cursor
  further : rest.left < c.left

/-- What the first token stands for. -/
def Parsed.first {α : Type} {c : Cursor} {token : Token} {rest : List Token} (value : α)
    (h : c.tokens = token :: rest) : Parsed α c :=
  ⟨value, ⟨rest, c.stop, token.span.stop⟩, Cursor.left_lt h⟩

/-- A value, and a cursor that need not be further on. -/
structure ParsedFrom (α : Type) (c : Cursor) where
  value : α
  rest : Cursor
  notBefore : rest.left ≤ c.left

/-- A reader: it fails, or reads at least one token. -/
abbrev Reader (α : Type) := (c : Cursor) → Except SyntaxError (Parsed α c)

namespace Cursor

/-- A name with the span it has. -/
def name : Reader (String × Span) := fun c =>
  match h : c.tokens with
  | [] => .error ⟨.endOfInput, .endOfInput⟩
  | ⟨.name written, span, _⟩ :: _ => .ok (.first (written, span) h)
  | token :: _ => .error (c.errorHere (.notAName token.kind.shown))

/-- The name behind a point. -/
def key : Reader String := fun c =>
  match h : c.tokens with
  | ⟨.name written, _, _⟩ :: _ => .ok (.first written h)
  | _ => .error (c.errorHere .keyAfterDot)

/-- Statements are separated by semicolons or line breaks; the closing token needs neither. -/
def separator (closing : Token.Kind) (c : Cursor) : Except SyntaxError c.From :=
  match c.sign .semicolon with
  | some d => .ok ⟨d.1, Nat.le_of_lt d.2⟩
  | none =>
    if c.current.kind = closing ∨ c.current.newlineBefore then .ok ⟨c, Nat.le_refl _⟩
    else .error (c.errorHere (.missingSeparator c.current.kind.shown))

end Cursor

end Estimation.Syntax
