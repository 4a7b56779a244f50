import Estimation.Position

/-!
Tokens: words of the language with the place where they stand. A token's kind holds what was
written where that can vary; keywords and symbols have one spelling each.
-/

namespace Estimation

inductive Keyword where
  | ifWord
  | thenWord
  | elseWord
  | trueWord
  | falseWord
  | importWord
  | asWord
  | exportWord
  | toWord
  deriving DecidableEq, Repr

namespace Keyword

def all : List Keyword :=
  [.ifWord, .thenWord, .elseWord, .trueWord, .falseWord, .importWord, .asWord, .exportWord,
   .toWord]

def spelling : Keyword → String
  | .ifWord => "if"
  | .thenWord => "then"
  | .elseWord => "else"
  | .trueWord => "true"
  | .falseWord => "false"
  | .importWord => "import"
  | .asWord => "as"
  | .exportWord => "export"
  | .toWord => "to"

theorem mem_all (k : Keyword) : k ∈ all := by cases k <;> decide

def ofSpelling? (word : String) : Option Keyword :=
  all.find? fun k => k.spelling == word

end Keyword

inductive Symbol where
  | equalTo
  | unequalTo
  | greaterEq
  | lessEq
  | andAnd
  | orOr
  | arrow
  | greater
  | less
  | plus
  | minus
  | star
  | slash
  | caret
  | bang
  | question
  | colon
  | assign
  | comma
  | semicolon
  | dot
  | bar
  | openParen
  | closeParen
  | openBrace
  | closeBrace
  | openBracket
  | closeBracket
  deriving DecidableEq, Repr

namespace Symbol

/-- Longer spellings stand first, so that the first match is the longest. -/
def all : List Symbol :=
  [.equalTo, .unequalTo, .greaterEq, .lessEq, .andAnd, .orOr, .arrow,
   .greater, .less, .plus, .minus, .star, .slash, .caret, .bang, .question, .colon, .assign,
   .comma, .semicolon, .dot, .bar, .openParen, .closeParen, .openBrace, .closeBrace,
   .openBracket, .closeBracket]

def spelling : Symbol → List Char
  | .equalTo => ['=', '=']
  | .unequalTo => ['!', '=']
  | .greaterEq => ['>', '=']
  | .lessEq => ['<', '=']
  | .andAnd => ['&', '&']
  | .orOr => ['|', '|']
  | .arrow => ['-', '>']
  | .greater => ['>']
  | .less => ['<']
  | .plus => ['+']
  | .minus => ['-']
  | .star => ['*']
  | .slash => ['/']
  | .caret => ['^']
  | .bang => ['!']
  | .question => ['?']
  | .colon => [':']
  | .assign => ['=']
  | .comma => [',']
  | .semicolon => [';']
  | .dot => ['.']
  | .bar => ['|']
  | .openParen => ['(']
  | .closeParen => [')']
  | .openBrace => ['{']
  | .closeBrace => ['}']
  | .openBracket => ['[']
  | .closeBracket => [']']

theorem mem_all (s : Symbol) : s ∈ all := by cases s <;> decide

theorem spelling_length_pos (s : Symbol) : 0 < s.spelling.length := by cases s <;> decide

/-- The longest symbol that a text begins with. -/
def beginning? (cs : List Char) : Option Symbol :=
  all.find? fun s => s.spelling.isPrefixOf cs

end Symbol

namespace Token

inductive Kind where
  | keyword (word : Keyword)
  | symbol (sign : Symbol)
  | number (written : String)
  | string (content : String)
  | name (written : String)
  | stop
  deriving DecidableEq, Repr

namespace Kind

/-- What a token stands for: a string's content, everything else as it is written. -/
def text : Kind → String
  | .keyword word => word.spelling
  | .symbol sign => String.ofList sign.spelling
  | .number written => written
  | .string content => content
  | .name written => written
  | .stop => ""

/-- The class of a token, as diagnostics name what they expect. -/
def describe : Kind → String
  | .keyword word => s!"'{word.spelling}'"
  | .symbol sign => "'" ++ String.ofList sign.spelling ++ "'"
  | .number _ => "number"
  | .string _ => "string"
  | .name _ => "identifier"
  | .stop => "end of input"

/-- A token, as diagnostics name what they found. -/
def shown : Kind → String
  | .number written => s!"'{written}'"
  | .name written => s!"'{written}'"
  | .string content => s!"\"{content}\""
  | kind => kind.describe

end Kind

end Token

structure Token where
  kind : Token.Kind
  span : Span
  /-- Whether a line break stands between this token and the one before it. -/
  newlineBefore : Bool
  deriving DecidableEq, Repr

namespace Token

def text (token : Token) : String := token.kind.text

end Token

end Estimation
