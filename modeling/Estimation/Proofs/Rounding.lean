import Mathlib.Algebra.Order.Field.Basic
import Mathlib.Algebra.Order.Field.Power
import Mathlib.Data.Nat.Log
import Mathlib.Tactic.FieldSimp
import Mathlib.Tactic.Linarith
import Estimation.Proofs.Doubles

/-!
Whole numbers among the finite numbers: which ones they are, and how others are rounded. A whole number
up to `2 ^ 53` is one of them; above, only a multiple of a power of two is, and what lies between two of
these goes to the nearer one.
-/

namespace Estimation.Number

variable {x y : Float}

/-! ### Values -/

def Binary.value (b : Binary) : ℚ := b.significand * 2 ^ b.exponent

/-- What a finite number is worth. -/
def value (x : Float) : ℚ := if isNegative x then -(Binary.ofFloat x).value else (Binary.ofFloat x).value

section

variable {num more den : ℕ}

end

/-! ### Rounding whole numbers -/

/-- The last binary place of the numbers that are as large as a whole number, where it is above the
point. -/
def places (n : ℕ) : ℕ := n.log2 - 52

end Estimation.Number
