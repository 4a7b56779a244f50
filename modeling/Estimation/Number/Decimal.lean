import Estimation.Number.Binary

/-!
Decimal digits of a number, by exact arithmetic on the fraction that it is: the fewest digits that
read back as the number, and its value rounded to a given number of digits.
-/

namespace Estimation.Number

/-- The value `coefficient * 10 ^ exponent`. -/
structure Decimal where
  coefficient : Nat
  exponent : Int
  deriving DecidableEq, Repr

namespace Decimal

def digits (d : Decimal) : List Char := (toString d.coefficient).toList

/-- The exponent of the first digit. -/
def scale (d : Decimal) : Int := d.exponent + d.digits.length - 1

/-- Moves zeros at the end of the coefficient into the exponent. `places` bounds their number. -/
def stripZeros (d : Decimal) : Nat → Decimal
  | 0 => d
  | places + 1 =>
    if d.coefficient ≠ 0 ∧ d.coefficient % 10 = 0 then
      stripZeros ⟨d.coefficient / 10, d.exponent + 1⟩ places
    else d

end Decimal

/-- What is chosen of two decimals that are equally near. -/
inductive Tie where
  | up
  | even
  deriving DecidableEq, Repr

/-- The exponent of the first decimal digit of a positive fraction. `places` bounds how far the
estimate from the binary scale is below it. -/
def decimalScale (num den : Nat) : Int :=
  climb ((binaryScale num den * 30102 / 100000) - 1) 4
where
  climb (k : Int) : Nat → Int
    | 0 => k
    | places + 1 =>
      let (low, unit) := scaled den 10 (k + 1)
      if low ≤ num * unit then climb (k + 1) places else k

/-- The ends of the interval that reads back as a number, and its value, as numerators over one
denominator. -/
structure Interval where
  low : Nat
  value : Nat
  high : Nat
  den : Nat
  closed : Bool

namespace Interval

def of (b : Binary) : Interval :=
  let (unit, den) := scaled 1 2 (b.exponent - 2)
  { low := (4 * b.significand - if b.narrowBelow then 1 else 2) * unit
    value := 4 * b.significand * unit
    high := (4 * b.significand + 2) * unit
    den
    closed := b.significand % 2 = 0 }

def Contains (i : Interval) (d : Decimal) : Prop :=
  let (num, unit) := scaled d.coefficient 10 d.exponent
  let low := i.low * unit
  let high := i.high * unit
  if i.closed then low ≤ num * i.den ∧ num * i.den ≤ high
  else low < num * i.den ∧ num * i.den < high

instance (i : Interval) (d : Decimal) : Decidable (i.Contains d) := by
  unfold Contains
  exact inferInstance

/-- The multiple of `10 ^ exponent` that lies in the interval and is nearest to its value. -/
def onGrid? (tie : Tie) (i : Interval) (exponent : Int) : Option Decimal :=
  let (unitNum, unitDen) := scaled 1 10 exponent
  let num := i.value * unitDen
  let den := i.den * unitNum
  let below := num / den
  let twice := 2 * (num % den)
  let lower : Decimal := ⟨below, exponent⟩
  let upper : Decimal := ⟨below + 1, exponent⟩
  match decide (i.Contains lower), decide (i.Contains upper) with
  | false, false => none
  | true, false => some lower
  | false, true => some upper
  | true, true =>
    if twice < den then some lower
    else if den < twice then some upper
    else if tie = .even ∧ below % 2 = 0 then some lower
    else some upper

end Interval

/-- The fewest digits that read back as a positive number, nearest to it of those. Seventeen
digits suffice for every number; beyond them the exact value is given. -/
def shortest (tie : Tie) (b : Binary) : Decimal :=
  let i := Interval.of b
  let scale := decimalScale i.value i.den
  let found := (List.range 17).findSome? fun (n : Nat) => i.onGrid? tie (scale - n)
  (found.getD (exact b)).stripZeros 400
where
  exact (b : Binary) : Decimal :=
    match b.exponent with
    | .ofNat e => ⟨b.significand <<< e, 0⟩
    | .negSucc e => ⟨b.significand * Nat.pow 5 (e + 1), .negSucc e⟩

/-- The value rounded to `places` digits, a half to the even neighbour. -/
def rounded (places : Nat) (b : Binary) : Decimal :=
  let (num, den) := scaled b.significand 2 b.exponent
  let scale := decimalScale num den
  let exponent := scale - (places - 1 : Nat)
  let (unitNum, unitDen) := scaled 1 10 exponent
  let coefficient := roundHalfEven (num * unitDen) (den * unitNum)
  if coefficient = Nat.pow 10 places then ⟨Nat.pow 10 (places - 1), exponent + 1⟩ else ⟨coefficient, exponent⟩

end Estimation.Number
