import Estimation.Number.Notation

/-!
JSON values. A number keeps the text it was written with, and an object keeps its members in
order, repeated keys included, so that a reader of values can be strict about both. A string may
hold half of a pair of units, which stands for no character: such a value can only be passed over.
-/

namespace Estimation

inductive Json where
  | null
  | bool (b : Bool)
  | number (written : String)
  | string (s : String)
  | array (items : List Json)
  | object (members : List (String × Json))
  /-- A string that is no text, or an object with such a key. -/
  | unreadable
  deriving Inhabited

namespace Json

def ofNat (n : Nat) : Json := .number (toString n)

def ofFloat (x : Float) : Json := .number (Number.jsonText x)

def optional {α : Type} (f : α → Json) : Option α → Json
  | some a => f a
  | none => .null

/-- The first member with a key. -/
def get? (key : String) : Json → Option Json
  | .object members => (members.find? fun (k, _) => k == key).map Prod.snd
  | _ => none

def hexDigit (n : Nat) : Char := Nat.digitChar (n % 16)

/-- How a character is written inside a string. -/
def escaped (c : Char) : String :=
  match c with
  | '"' => "\\\""
  | '\\' => "\\\\"
  | '\n' => "\\n"
  | '\t' => "\\t"
  | '\r' => "\\r"
  | '\x08' => "\\b"
  | '\x0c' => "\\f"
  | c =>
    if c.toNat < 32 then String.ofList ['\\', 'u', '0', '0', hexDigit (c.toNat / 16), hexDigit c.toNat]
    else c.toString

def stringText (s : String) : String :=
  s.toList.foldl (fun written c => written ++ escaped c) "\"" ++ "\""

mutual

/-- The text of a value without blanks. What is no text is written as nothing. -/
def text : Json → String
  | .null => "null"
  | .bool b => toString b
  | .number written => written
  | .string s => stringText s
  | .array items => "[" ++ ",".intercalate (texts items) ++ "]"
  | .object members => "\x7b" ++ ",".intercalate (memberTexts members) ++ "\x7d"
  | .unreadable => "null"

def texts : List Json → List String
  | [] => []
  | item :: items => item.text :: texts items

def memberTexts : List (String × Json) → List String
  | [] => []
  | (key, value) :: members => (stringText key ++ ":" ++ value.text) :: memberTexts members

end

end Json

end Estimation
