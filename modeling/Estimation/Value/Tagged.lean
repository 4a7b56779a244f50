import Estimation.Syntax.Json
import Estimation.Value

/-!
Values and code as JSON that keeps kinds of values apart, for tools that look into runs. Numbers are
given by their bits, or to so many digits where the last bits are of no interest.
-/

namespace Estimation

namespace Number

/-- A number by its bits, or rounded to so many significant digits. -/
def json (digits : Option Nat) (x : Float) : Json :=
  match digits with
  | some places => .string (significantText places x)
  | none => .string (bitsText x)

end Number

namespace Samples

/-- Of many samples only some are given. -/
def tagged (digits : Option Nat) (s : Samples) : Json :=
  let given := if s.size ≤ 16 then s.toList else s.toList.take 8
  .object [("dist", .object [("len", .ofNat s.size), ("mean", Number.json digits s.mean),
    ("stdev", Number.json digits s.stdev), ("samples", .array (given.map (Number.json digits))),
    ("text", .string s.text)])]

end Samples

open Syntax (node spanJson)

namespace Lambda

def textOnly (f : Lambda) : Json := .object [("lambda", .string f.text)]

end Lambda

mutual

def Value.tagged (digits : Option Nat) : Value → Json
  | .void => .null
  | .bool b => .bool b
  | .string s => .string s
  | .number x => .object [("n", Number.json digits x)]
  | .list items => .array (taggedItems digits items)
  | .dict entries => .object [("d", .object (taggedEntries digits entries))]
  | .samples s => s.tagged digits
  | .lambda f => Lambda.tagged digits f

def Lambda.tagged (digits : Option Nat) : Lambda → Json
  | .native f =>
    .object [("lambda", .string (LambdaOf.native f : Lambda).text), ("name", .string f.name),
      ("params", .optional .ofNat f.arity.count?)]
  | .closure identity name parameters captures body span =>
    let f : Lambda := .closure identity name parameters captures body span
    .object [("lambda", .string f.text), ("name", .string f.name),
      ("params", .ofNat parameters.length), ("at", spanJson span),
      ("captures", .array (taggedCaptures digits captures))]

def taggedItems (digits : Option Nat) : List Value → List Json
  | [] => []
  | v :: vs => v.tagged digits :: taggedItems digits vs

def taggedEntries (digits : Option Nat) : List (String × Value) → List (String × Json)
  | [] => []
  | (key, v) :: rest => (key, v.tagged digits) :: taggedEntries digits rest

/-- Of functions that are captured only the text is given. -/
def taggedCaptures (digits : Option Nat) : List Value → List Json
  | [] => []
  | .lambda f :: vs => Lambda.textOnly f :: taggedCaptures digits vs
  | v :: vs => v.tagged digits :: taggedCaptures digits vs

end

namespace Bindings

def tagged (digits : Option Nat) (values : Bindings Value) : Json :=
  .object (taggedEntries digits values)

end Bindings

namespace Variable

def json : Variable → Json
  | .slot n => .array [.string "Slot", .ofNat n]
  | .capture n => .array [.string "Capture", .ofNat n]

end Variable

namespace TopBinding

def json (b : TopBinding) : Json :=
  .array [.string b.name, .ofNat b.slot, .bool b.exported, spanJson b.span]

end TopBinding

namespace Code

mutual

def json : Code → Json
  | .value v span => node "Value" span [("v", Value.tagged none v)]
  | .read (.slot n) span => node "StackRef" span [("i", .ofNat n)]
  | .read (.capture n) span => node "CaptureRef" span [("i", .ofNat n)]
  | .block statements result span =>
    node "Block" span [("statements", .array (jsons statements)), ("result", json result)]
  | .program statements result bindings span =>
    node "Program" span [("statements", .array (jsons statements)),
      ("result", optionalJson result), ("bindings", .array (bindings.map TopBinding.json))]
  | .assign name right span => node "Assign" span [("name", .string name), ("right", json right)]
  | .list items span => node "Array" span [("items", .array (jsons items))]
  | .dict entries span => node "Dict" span [("entries", .array (entryJsons entries))]
  | .choice condition ifTrue ifFalse span =>
    node "Ternary" span [("condition", json condition), ("if_true", json ifTrue),
      ("if_false", json ifFalse)]
  | .lambda name parameters captures body span =>
    node "Lambda" span [("name", .optional .string name),
      ("params", .array (parameterJsons parameters)),
      ("captures", .array (captures.map Variable.json)), ("body", json body)]
  | .call callee args span => node "Call" span [("callee", json callee), ("args", .array (jsons args))]

def jsons : List Code → List Json
  | [] => []
  | code :: codes => json code :: jsons codes

def entryJson : Code × Code → Json
  | (key, right) => .array [json key, json right]

def entryJsons : List (Code × Code) → List Json
  | [] => []
  | entry :: entries => entryJson entry :: entryJsons entries

def parameterJson : CodeParameter Code → Json
  | ⟨name, range⟩ => .array [.string name, optionalJson range]

def parameterJsons : List (CodeParameter Code) → List Json
  | [] => []
  | p :: ps => parameterJson p :: parameterJsons ps

def optionalJson : Option Code → Json
  | none => .null
  | some code => json code

end

end Code

end Estimation
