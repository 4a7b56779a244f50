import Estimation.Text.Visible

/-!
Quoted text: visible characters stand for themselves, the quote and the backslash behind a
backslash, everything else as an escape.
-/

namespace Estimation.Text

def hexDigits (n : Nat) : String := String.ofList (Nat.toDigits 16 n)

/-- How a character is written between a pair of quotes. -/
def escaped (quote c : Char) : String :=
  if c = quote then String.ofList ['\\', quote]
  else match c with
    | '\x00' => "\\0"
    | '\t' => "\\t"
    | '\r' => "\\r"
    | '\n' => "\\n"
    | '\\' => "\\\\"
    | c => if isVisible c then c.toString else "\\u\x7b" ++ hexDigits c.toNat ++ "\x7d"

def quoted (s : String) : String :=
  s.foldl (fun written c => written ++ escaped '"' c) "\"" ++ "\""

def quotedChar (c : Char) : String := "'" ++ escaped '\'' c ++ "'"

/-- A list of quoted texts in brackets. -/
def quotedList (ss : List String) : String := "[" ++ ", ".intercalate (ss.map quoted) ++ "]"

end Estimation.Text
