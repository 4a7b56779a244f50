import Mathlib.Order.Compare
import Mathlib.Tactic.Ring
import Mathlib.Tactic.NormNum
import Estimation.Number.Binary

/-!
What finite numbers are worth. A finite number is a whole number of units, each the least positive
number; numbers are in the order of their units.
-/

namespace Estimation.Number

open Float.Model
open Float.Model.UnpackedFloat (Sign packComponents unpackExponent unpackMantissa unpackSign)

/-! ### Parts of a number -/

/-- A finite number in parts: it has all places that it can have. -/
inductive Canonical : UnpackedFloat → Prop
  | zero (s : Sign) : Canonical (.zero s)
  | finite {s : Sign} {m : Nat} {e : Int} {h : 0 < m} : m < 2 ^ 53 → -1074 ≤ e → e ≤ 971 →
      2 ^ 52 ≤ m ∨ e = -1074 → Canonical (.finite s m e h)

section

variable (v : BitVec 64)

end

section

variable {v : BitVec 64}

end

section

variable {s : Sign} {field : BitVec 11} {fraction : BitVec 52}

end

variable {x y : Float}

end Estimation.Number
