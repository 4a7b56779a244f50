import Estimation.Number.Decimal

/-!
Writing numbers. Digits are laid out positionally, or scientifically with an exponent; the two
written forms are the one that the language shows and the one that JSON takes.
-/

namespace Estimation.Number

namespace Decimal

/-- Digits with a point between whole part and fraction, at least `minFraction` digits behind it,
and no point where nothing stands behind it. -/
def positional (minFraction : Nat) (d : Decimal) : String :=
  let (whole, fraction) : List Char × List Char :=
    match d.exponent with
    | .ofNat e => (d.digits ++ List.replicate e '0', [])
    | .negSucc e =>
      let places := e + 1
      let padded := List.replicate (places + 1 - d.digits.length) '0' ++ d.digits
      (padded.take (padded.length - places), padded.drop (padded.length - places))
  let filled := fraction ++ List.replicate (minFraction - fraction.length) '0'
  String.ofList (if filled.isEmpty then whole else whole ++ '.' :: filled)

/-- The first digit, a point and the others where there are any, then `e` and the exponent. -/
def scientific (exponent : Int → String) (d : Decimal) : String :=
  let mantissa :=
    match d.digits with
    | first :: second :: rest => first :: '.' :: second :: rest
    | digits => digits
  String.ofList mantissa ++ "e" ++ exponent d.scale

end Decimal

/-- An exponent with a sign in either case. -/
def signedExponent (e : Int) : String := if e < 0 then toString e else s!"+{e}"

def signText (x : Float) : String := if isNegative x then "-" else ""

/-- How the language shows a number: whole numbers below `10 ^ 15` without sign of zero, all else
positionally with the fewest digits. -/
def text (x : Float) : String :=
  if x.isNaN then "NaN"
  else if x.isInf then signText x ++ "inf"
  else if x == 0 then "0"
  else signText x ++ (shortest .up (.ofFloat x)).positional 0

/-- JSON writes the fewest digits, positionally with at least one digit of fraction from `10 ^ -5`
up to `10 ^ 16`, and has no word for what is not finite. -/
def jsonText (x : Float) : String :=
  if !x.isFinite then "null"
  else if x == 0 then signText x ++ "0.0"
  else
    let d := shortest .even (.ofFloat x)
    signText x ++
      if -5 ≤ d.scale ∧ d.scale < 16 then d.positional 1 else d.scientific signedExponent

/-- A number rounded to so many significant digits. -/
def significantText (places : Nat) (x : Float) : String :=
  if x.isNaN then "nan"
  else if x.isInf then signText x ++ "inf"
  else if x == 0 then
    signText x ++ (if places ≤ 1 then "0" else "0." ++ String.ofList (.replicate (places - 1) '0')) ++ "e0"
  else signText x ++ (rounded places (.ofFloat x)).scientific toString

/-- A number by its sixty-four bits in hexadecimal digits, so that nothing of it is lost. -/
def bitsText (x : Float) : String :=
  if x.isNaN then "nan"
  else
    let digits := Nat.toDigits 16 x.toBits.toNat
    String.ofList (List.replicate (16 - digits.length) '0' ++ digits)

end Estimation.Number
