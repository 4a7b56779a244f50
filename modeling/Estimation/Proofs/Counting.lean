import Mathlib.Data.List.Basic
import Estimation.Library.Lists
import Estimation.Proofs.Rounding

/-!
Lists of whole numbers, counted up from one bound to another. The numbers in such a list are made from
whole numbers, and grow from one to the next as long as no two of these are made into the same number.
-/

namespace Estimation

open List Number

namespace Library

variable {β : Type} {args : List (ValueOf β)} {x low high : Float} {a b k : ℤ} {index count : ℕ}

/-! ### Bounds -/

section

variable (hmin : -2 ^ 63 ≤ a) (hmax : a + count ≤ 2 ^ 63)

include hmin hmax

end

end Library

namespace Counting

def edge : Float := 9007199254740992

end Counting

end Estimation
