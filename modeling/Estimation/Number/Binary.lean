/-!
Binary floating-point numbers as exact fractions: what a finite number is, and which number is
nearest to a fraction.
-/

namespace Estimation.Number

/-- The value `significand * 2 ^ exponent`. -/
structure Binary where
  significand : Nat
  exponent : Int
  deriving DecidableEq, Repr

namespace Binary

/-- The least exponent of a number's last binary place. -/
def minExponent : Int := -1074

/-- The magnitude of a finite number. -/
def ofFloat (x : Float) : Binary :=
  let bits := x.toBits.toNat
  let field : Nat := (bits >>> 52) % (1 <<< 11)
  let fraction : Nat := bits % (1 <<< 52)
  if field = 0 then ⟨fraction, minExponent⟩ else ⟨(1 <<< 52) + fraction, (field : Int) - 1 + minExponent⟩

/-- A number is a power of two with a neighbour below that is closer than the one above. -/
def narrowBelow (b : Binary) : Bool := b.significand = 1 <<< 52 && minExponent < b.exponent

end Binary

def isNegative (x : Float) : Bool := 1 <<< 63 ≤ x.toBits.toNat

/-- `n * base ^ e` as numerator and denominator. -/
def scaled (n base : Nat) : Int → Nat × Nat
  | .ofNat e => (n * base.pow e, 1)
  | .negSucc e => (n, base.pow (e + 1))

/-- The whole number that a magnitude is, without what is behind its point. -/
def Binary.whole (b : Binary) : Nat :=
  let (num, den) := scaled b.significand 2 b.exponent
  num / den

/-- Whether nothing is behind the point. -/
def Binary.isWhole (b : Binary) : Bool :=
  let (num, den) := scaled b.significand 2 b.exponent
  num % den = 0

/-- The whole number that a finite number is, without what is behind its point. -/
def integral (x : Float) : Int :=
  if isNegative x then -(Binary.ofFloat x).whole else (Binary.ofFloat x).whole

/-- The natural number nearest to a fraction, the even one of two. -/
def roundHalfEven (num den : Nat) : Nat :=
  let quotient := num / den
  let twice := 2 * (num % den)
  if twice < den ∨ (twice = den ∧ quotient % 2 = 0) then quotient else quotient + 1

/-- The exponent of the greatest power of two that is not above a positive fraction. -/
def binaryScale (num den : Nat) : Int :=
  let guess : Int := num.log2 - den.log2
  let (low, unit) := scaled den 2 guess
  if num * unit < low then guess - 1 else guess

/-- The bits of infinity. -/
def infinityBits : Nat := 0x7FF0000000000000

/-- The number nearest to a fraction, the one with an even significand of two; infinity where
that lies beyond the greatest number. -/
def nearest (num den : Nat) : Float :=
  if num = 0 then 0
  else
    let exponent := max (binaryScale num den - 52) Binary.minExponent
    let (numScale, denScale) := scaled 1 2 (-exponent)
    let significand := roundHalfEven (num * numScale) (den * denScale)
    let bits := ((exponent - Binary.minExponent).toNat <<< 52) + significand
    .ofBits (min bits infinityBits).toUInt64

/-- The number nearest to a whole number. -/
def ofInteger (k : Int) : Float :=
  let magnitude := nearest k.natAbs 1
  if k < 0 then -magnitude else magnitude

/-- The number nearest to `coefficient * 10 ^ exponent`. Beyond the first two bounds the answer is
known without the power. -/
def ofDecimal (coefficient : Nat) (exponent : Int) : Float :=
  if coefficient = 0 then 0
  else if 400 < exponent then .ofBits infinityBits.toUInt64
  else if exponent < 0 ∧ coefficient.log2 + 1100 < 3 * exponent.natAbs then 0
  else
    let (num, den) := scaled coefficient 10 exponent
    nearest num den

end Estimation.Number
