import Estimation.Token

/-!
Names of kinds of tokens, for programs that read tokens.
-/

namespace Estimation

namespace Keyword

def title : Keyword → String
  | .ifWord => "If"
  | .thenWord => "Then"
  | .elseWord => "Else"
  | .trueWord => "True"
  | .falseWord => "False"
  | .importWord => "Import"
  | .asWord => "As"
  | .exportWord => "Export"
  | .toWord => "To"

end Keyword

namespace Symbol

def title : Symbol → String
  | .equalTo => "DoubleEqual"
  | .unequalTo => "ExclamationEqual"
  | .greaterEq => "GreaterThanEqual"
  | .lessEq => "LessThanEqual"
  | .andAnd => "AndAnd"
  | .orOr => "OrOr"
  | .arrow => "Arrow"
  | .greater => "GreaterThan"
  | .less => "LessThan"
  | .plus => "Plus"
  | .minus => "Minus"
  | .star => "Asterisk"
  | .slash => "Slash"
  | .caret => "Caret"
  | .bang => "Exclamation"
  | .question => "Question"
  | .colon => "Colon"
  | .assign => "Equal"
  | .comma => "Comma"
  | .semicolon => "Semicolon"
  | .dot => "Dot"
  | .bar => "Pipe"
  | .openParen => "LeftParenthesis"
  | .closeParen => "RightParenthesis"
  | .openBrace => "LeftCurlyBrace"
  | .closeBrace => "RightCurlyBrace"
  | .openBracket => "LeftSquareBracket"
  | .closeBracket => "RightSquareBracket"

end Symbol

namespace Token.Kind

def title : Token.Kind → String
  | .keyword word => word.title
  | .symbol sign => sign.title
  | .number _ => "Number"
  | .string _ => "String"
  | .name _ => "Identifier"
  | .stop => "Eof"

end Token.Kind

end Estimation
