import Estimation.Number.Binary

/-!
Reading numbers from text: digits with an optional sign, point and exponent, and the words for
infinity and for what is not a number.
-/

namespace Estimation.Number

/-- A number as its text gives it. -/
inductive Numeral where
  | decimal (coefficient : Nat) (exponent : Int)
  | infinity
  | notANumber
  deriving DecidableEq, Repr

namespace Numeral

def value : Numeral → Float
  | .decimal coefficient exponent => ofDecimal coefficient exponent
  | .infinity => .ofBits infinityBits.toUInt64
  | .notANumber => .ofBits 0x7FF8000000000000

def digitValue (c : Char) : Nat := c.toNat - '0'.toNat

def ofDigits (cs : List Char) : Nat := cs.foldl (fun n c => 10 * n + digitValue c) 0

/-- Splits off a sign; true is minus. -/
def sign : List Char → Bool × List Char
  | '-' :: r => (true, r)
  | '+' :: r => (false, r)
  | r => (false, r)

def signed (negative : Bool) (n : Nat) : Int := if negative then -n else n

/-- An exponent, or nothing where the text ends. -/
def exponent? : List Char → Option Int
  | [] => some 0
  | c :: r =>
    let (negative, digits) := sign r
    if (c = 'e' ∨ c = 'E') ∧ digits ≠ [] ∧ digits.all Char.isDigit then
      some (signed negative (ofDigits digits))
    else none

/-- A fraction behind a point, and what follows it. -/
def fraction : List Char → List Char × List Char
  | '.' :: r => (r.takeWhile Char.isDigit, r.dropWhile Char.isDigit)
  | r => ([], r)

/-- Digits on either side of a point, at least one, with an exponent or without. -/
def decimal? (cs : List Char) : Option Numeral := do
  let whole := cs.takeWhile Char.isDigit
  let (places, rest) := fraction (cs.dropWhile Char.isDigit)
  guard (whole ++ places ≠ [])
  let exponent ← exponent? rest
  return .decimal (ofDigits (whole ++ places)) (exponent - places.length)

def word? (cs : List Char) : Option Numeral :=
  match String.ofList (cs.map Char.toLower) with
  | "inf" => some .infinity
  | "infinity" => some .infinity
  | "nan" => some .notANumber
  | _ => none

end Numeral

/-- The number that a text stands for. -/
def read? (cs : List Char) : Option Float := do
  let (negative, rest) := Numeral.sign cs
  let numeral ← Numeral.decimal? rest <|> Numeral.word? rest
  return if negative then -numeral.value else numeral.value

end Estimation.Number
