import Estimation.Number.Numeral

/-!
Magnitude letters: a letter behind a number stands for a power of a thousand.
-/

namespace Estimation.Token

def magnitude? : Char → Option Float
  | 'k' => some 1e3
  | 'M' => some 1e6
  | 'B' => some 1e9
  | 'T' => some 1e12
  | _ => none

/-- The value of a number as it is written, with a magnitude letter or without. -/
def numberValue? (written : String) : Option Float :=
  let cs := written.toList
  match cs.getLast?.bind magnitude? with
  | some magnitude => (Number.read? cs.dropLast).map (· * magnitude)
  | none => Number.read? cs

end Estimation.Token
