import Estimation.Text.Blank
import Estimation.Token
import Estimation.Token.Magnitude

/-!
Reading tokens from a source text. A text is gaps and lexemes in turn: a gap is blanks and
comments, a lexeme is measured by the number of its characters, so that tokens and gaps together
are the text cut at the measured places.
-/

namespace Estimation.Token

/-- What can be wrong with a text before there are tokens. -/
inductive Fault where
  | unexpectedCharacter (c : Char)
  | unterminatedString
  | unterminatedComment
  | invalidEscape (c : Char)
  | invalidNumber (written : String)
  deriving DecidableEq, Repr

namespace Fault

def message : Fault → String
  | .unexpectedCharacter c => s!"Unexpected character '{c}'"
  | .unterminatedString => "Unterminated string literal"
  | .unterminatedComment => "Unterminated block comment"
  | .invalidEscape c => s!"Invalid escape sequence '\\{c}'"
  | .invalidNumber written => s!"Invalid number format: '{written}'"

end Fault

structure LexicalError where
  fault : Fault
  place : Coordinate
  deriving DecidableEq, Repr

namespace LexicalError

def message (e : LexicalError) : String := s!"[{e.place.text}] {e.fault.message}"

end LexicalError

/-! ### Gaps -/

/-- Where a reader of gaps stands. A block comment remembers where it began. -/
inductive Inside where
  | between
  | lineComment
  | blockComment (since : Nat)

/-- The number of characters before the next lexeme, `n` of them read already. Fails with the
place of a comment that is not closed. -/
def gapFrom : Inside → Nat → List Char → Except Nat Nat
  | .blockComment since, _, [] => .error since
  | _, n, [] => .ok n
  | .between, n, '/' :: '/' :: r => gapFrom .lineComment (n + 2) r
  | .between, n, '/' :: '*' :: r => gapFrom (.blockComment n) (n + 2) r
  | .between, n, c :: r => if Text.isBlank c then gapFrom .between (n + 1) r else .ok n
  | .lineComment, n, '\n' :: r => gapFrom .between (n + 1) r
  | .lineComment, n, _ :: r => gapFrom .lineComment (n + 1) r
  | .blockComment _, n, '*' :: '/' :: r => gapFrom .between (n + 2) r
  | .blockComment since, n, _ :: r => gapFrom (.blockComment since) (n + 1) r

def gapWidth (cs : List Char) : Except Nat Nat := gapFrom .between 0 cs

/-! ### Numbers -/

def isNameStart (c : Char) : Bool := c.isAlpha || c == '_' || c == '$'

def isNamePart (c : Char) : Bool := c.isAlphanum || c == '_' || c == '$'

def digitsWidth (cs : List Char) : Nat := (cs.takeWhile Char.isDigit).length

/-- A point belongs to a number only with a digit behind it. -/
def fractionWidth : List Char → Nat
  | '.' :: r => if digitsWidth r = 0 then 0 else 1 + digitsWidth r
  | _ => 0

def signWidth : List Char → Nat
  | '+' :: _ => 1
  | '-' :: _ => 1
  | _ => 0

/-- An exponent belongs to a number only with a digit behind its mark and sign. -/
def exponentWidth : List Char → Nat
  | c :: r =>
    let digits := digitsWidth (r.drop (signWidth r))
    if (c = 'e' ∨ c = 'E') ∧ digits ≠ 0 then 1 + signWidth r + digits else 0
  | [] => 0

/-- A magnitude letter belongs to a number only where no name goes on behind it. -/
def magnitudeWidth : List Char → Nat
  | c :: r => if (magnitude? c).isSome && !r.head?.any isNamePart then 1 else 0
  | [] => 0

def numberWidth (cs : List Char) : Nat :=
  let whole := digitsWidth cs
  let mantissa := whole + fractionWidth (cs.drop whole)
  let scaled := mantissa + exponentWidth (cs.drop mantissa)
  scaled + magnitudeWidth (cs.drop scaled)

/-- A number begins with a digit, or with a point and a digit. -/
def startsNumber (cs : List Char) : Bool := 0 < digitsWidth cs + fractionWidth cs

theorem numberWidth_pos {cs : List Char} (h : startsNumber cs = true) : 0 < numberWidth cs := by
  have starts : 0 < digitsWidth cs + fractionWidth cs := by simpa [startsNumber] using h
  have mantissa : 0 < digitsWidth cs + fractionWidth (cs.drop (digitsWidth cs)) := by
    by_cases zero : digitsWidth cs = 0
    · simpa [zero] using starts
    · omega
  simp only [numberWidth]
  omega

/-! ### Strings and names -/

/-- The character that a letter behind a backslash stands for. -/
def escape? : Char → Option Char
  | 'n' => some '\n'
  | 't' => some '\t'
  | 'r' => some '\r'
  | '\\' => some '\\'
  | '"' => some '"'
  | '\'' => some '\''
  | _ => none

/-- The content of a string up to its closing quote, and the number of characters read when `n`
were read before. A fault comes with the number of characters before its place. -/
def stringBody (quote : Char) : Nat → List Char → Except (Fault × Nat) (List Char × Nat)
  | _, [] => .error (.unterminatedString, 0)
  | n, '\\' :: r =>
    match r with
    | [] => .error (.unterminatedString, 0)
    | e :: r =>
      match escape? e with
      | none => .error (.invalidEscape e, n + 2)
      | some c => do
        let (content, width) ← stringBody quote (n + 2) r
        return (c :: content, width)
  | n, c :: r =>
    if c = quote then .ok ([], n + 1)
    else do
      let (content, width) ← stringBody quote (n + 1) r
      return (c :: content, width)

theorem lt_of_stringBody {quote : Char} {n : Nat} {cs content : List Char} {width : Nat}
    (h : stringBody quote n cs = .ok (content, width)) : n < width := by
  fun_induction stringBody quote n cs generalizing content width with
  | case1 => simp at h
  | case2 => simp at h
  | case3 => simp at h
  | case4 n e r c _ ih =>
    match hr : stringBody quote (n + 2) r with
    | .error _ => simp [hr, bind, Except.bind] at h
    | .ok (rest, w) =>
      simp [hr, bind, Except.bind, pure, Except.pure] at h
      have := ih hr
      omega
  | case5 n r =>
    simp at h
    omega
  | case6 n c r _ _ ih =>
    match hr : stringBody quote (n + 1) r with
    | .error _ => simp [hr, bind, Except.bind] at h
    | .ok (rest, w) =>
      simp [hr, bind, Except.bind, pure, Except.pure] at h
      have := ih hr
      omega

/-- A name that begins with a capital goes on over points, as long as names follow them. -/
def nameWidth (qualified : Bool) : List Char → Nat
  | [] => 0
  | c :: r =>
    if isNamePart c then 1 + nameWidth qualified r
    else if c = '.' ∧ qualified ∧ r.head?.any isNameStart then 1 + nameWidth qualified r
    else 0

/-! ### Lexemes -/

/-- What a text begins with, and how many of its characters belong to it. -/
structure Lexeme where
  kind : Kind
  width : Nat
  width_pos : 0 < width

def numberLexeme (cs : List Char) (h : startsNumber cs = true) : Except (Fault × Nat) Lexeme :=
  let width := numberWidth cs
  let written := String.ofList (cs.take width)
  if (cs.drop width).head?.any isNamePart then .error (.invalidNumber written, width)
  else .ok ⟨.number written, width, numberWidth_pos h⟩

def stringLexeme (quote : Char) (r : List Char) : Except (Fault × Nat) Lexeme :=
  match h : stringBody quote 1 r with
  | .error e => .error e
  | .ok (content, width) =>
    .ok ⟨.string (String.ofList content), width, Nat.lt_of_succ_lt (lt_of_stringBody h)⟩

def nameLexeme (c : Char) (r : List Char) : Lexeme :=
  let width := 1 + nameWidth c.isUpper r
  let written := String.ofList ((c :: r).take width)
  ⟨(Keyword.ofSpelling? written).elim (.name written) .keyword, width, Nat.add_pos_left Nat.one_pos _⟩

/-- The lexeme at the beginning of a text that is not empty. -/
def lexeme (c : Char) (r : List Char) : Except (Fault × Nat) Lexeme :=
  if h : startsNumber (c :: r) then numberLexeme (c :: r) h
  else if c = '"' ∨ c = '\'' then stringLexeme c r
  else if isNameStart c then .ok (nameLexeme c r)
  else
    match Symbol.beginning? (c :: r) with
    | some sign => .ok ⟨.symbol sign, sign.spelling.length, sign.spelling_length_pos⟩
    | none => .error (.unexpectedCharacter c, 0)

/-- The tokens of a text that begins at `place`; the last one marks its end. -/
def readFrom (place : Coordinate) (cs : List Char) : Except LexicalError (List Token) :=
  match gapWidth cs with
  | .error n => .error ⟨.unterminatedComment, place.after (cs.take n)⟩
  | .ok gap =>
    let start := place.after (cs.take gap)
    let newline := (cs.take gap).contains '\n'
    match _h : cs.drop gap with
    | [] => .ok [⟨.stop, .point start, newline⟩]
    | c :: r =>
      match lexeme c r with
      | .error (fault, n) => .error ⟨fault, start.after ((c :: r).take n)⟩
      | .ok ⟨kind, width, _⟩ => do
        let stop := start.after ((c :: r).take width)
        let rest ← readFrom stop ((c :: r).drop width)
        return ⟨kind, ⟨start, stop⟩, newline⟩ :: rest
  termination_by cs.length
  decreasing_by
    have := congrArg List.length _h
    simp only [List.length_drop, List.length_cons] at *
    omega

end Token

/-- The tokens of a source text. -/
def tokenize (source : String) : Except Token.LexicalError (List Token) :=
  Token.readFrom .origin source.toList

end Estimation
