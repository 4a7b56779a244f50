import Estimation.Value

/-!
The parts of code: the pieces that it is made of, the pieces of these, and so on.
-/

namespace Estimation.Code

open List

/-- The code that code is made of. -/
def pieces : Code → List Code
  | .value _ _ => []
  | .read _ _ => []
  | .block statements result _ => statements ++ [result]
  | .program statements result _ _ => statements ++ result.toList
  | .assign _ right _ => [right]
  | .list items _ => items
  | .dict entries _ => entries.flatMap fun e => [e.1, e.2]
  | .choice condition ifTrue ifFalse _ => [condition, ifTrue, ifFalse]
  | .lambda _ parameters _ body _ => parameters.filterMap CodeParameter.range ++ [body]
  | .call callee args _ => callee :: args

/-- Code that stands somewhere in other code, also in the bodies and the ranges of its lambdas. -/
inductive PartOf (code : Code) : Code → Prop
  | self : PartOf code code
  | piece {c d} : PartOf code c → c ∈ d.pieces → PartOf code d

namespace PartOf

variable {c d e : Code}

theorem trans (h : c.PartOf d) (h' : d.PartOf e) : c.PartOf e := by
  induction h' with
  | self => exact h
  | piece _ hpiece ih => exact .piece ih hpiece

theorem of_mem (h : c ∈ d.pieces) : c.PartOf d := .piece .self h

end PartOf

end Estimation.Code
