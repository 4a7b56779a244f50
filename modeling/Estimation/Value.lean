import Estimation.Samples
import Estimation.Json
import Estimation.Text.Quoted

/-!
Values, and the code that closures run. Code has no names left to look up: a variable is a slot of
the running call or a value that its closure captured, and everything global stands in the code as
a value. What a value is otherwise does not depend on what closures run.
-/

namespace Estimation

/-- What tells closures apart: which run made them, and how many that run had made before. -/
structure Identity where
  origin : Nat
  serial : Nat
  deriving DecidableEq, Repr

/-- Where code finds a variable: in a slot of the running call, or among the captured values. -/
inductive Variable where
  | slot (n : Nat)
  | capture (n : Nat)
  deriving DecidableEq, Repr

/-- A parameter of a closure, with the numbers that it takes where they are given. -/
structure Parameter where
  name : String
  range : Option Range

/-- A parameter of a lambda in code, with the code for its range. -/
structure CodeParameter (γ : Type) where
  name : String
  range : Option γ

/-- A name that a program defines: the slot of its last definition. -/
structure TopBinding where
  name : String
  slot : Nat
  exported : Bool
  span : Span
  deriving DecidableEq, Repr

/-- What stands under names, in the order of the names. -/
abbrev Bindings (α : Type) : Type := List (String × α)

namespace Bindings

variable {α : Type}

def get? (name : String) : Bindings α → Option α
  | [] => none
  | (n, v) :: rest => if n = name then some v else get? name rest

/-- Puts a value under a name, in its place in the order and instead of one that is there. -/
def insert (name : String) (value : α) : Bindings α → Bindings α
  | [] => [(name, value)]
  | (n, v) :: rest =>
    if name < n then (name, value) :: (n, v) :: rest
    else if name = n then (name, value) :: rest
    else (n, v) :: insert name value rest

def ofList (entries : List (String × α)) : Bindings α :=
  entries.foldl (fun map (name, value) => insert name value map) []

/-- Entries of `more` go before those of `base` with the same name. -/
def merge (base more : Bindings α) : Bindings α :=
  more.foldl (fun map (name, value) => insert name value map) base

end Bindings

mutual

/-- Values whose closures have bodies of a type `β`. -/
inductive ValueOf (β : Type) where
  | void
  | number (x : Float)
  | string (s : String)
  | bool (b : Bool)
  | list (items : List (ValueOf β))
  /-- Entries are in order of their keys. -/
  | dict (entries : List (String × ValueOf β))
  | lambda (f : LambdaOf β)
  | samples (s : Samples)

inductive LambdaOf (β : Type) where
  | closure (identity : Identity) (name : Option String) (parameters : List Parameter)
      (captures : List (ValueOf β)) (body : β) (span : Span)
  | native (f : Native)

end

inductive Code where
  | value (v : ValueOf Code) (span : Span)
  | read (source : Variable) (span : Span)
  | block (statements : List Code) (result : Code) (span : Span)
  | program (statements : List Code) (result : Option Code) (bindings : List TopBinding) (span : Span)
  /-- The value goes on top of the slots. -/
  | assign (name : String) (right : Code) (span : Span)
  | list (items : List Code) (span : Span)
  | dict (entries : List (Code × Code)) (span : Span)
  | choice (condition ifTrue ifFalse : Code) (span : Span)
  /-- Captured values are taken where the lambda stands, in the order of their sources. -/
  | lambda (name : Option String) (parameters : List (CodeParameter Code))
      (captures : List Variable) (body : Code) (span : Span)
  | call (callee : Code) (args : List Code) (span : Span)

abbrev Value : Type := ValueOf Code

abbrev Lambda : Type := LambdaOf Code

instance {β : Type} : Inhabited (ValueOf β) := ⟨.void⟩

namespace Code

def span : Code → Span
  | .value _ span => span
  | .read _ span => span
  | .block _ _ span => span
  | .program _ _ _ span => span
  | .assign _ _ span => span
  | .list _ span => span
  | .dict _ span => span
  | .choice _ _ _ span => span
  | .lambda _ _ _ _ span => span
  | .call _ _ span => span

end Code

namespace Parameter

def text (p : Parameter) : String :=
  match p.range with
  | some range => s!"{p.name}: {range.text}"
  | none => p.name

end Parameter

namespace LambdaOf

variable {β : Type}

def name : LambdaOf β → String
  | .closure _ name _ _ _ _ => name.getD "<anonymous>"
  | .native f => f.name

/-- The number of arguments, if only one is accepted. -/
def parameterCount? : LambdaOf β → Option Nat
  | .closure _ _ parameters _ _ _ => some parameters.length
  | .native f => f.arity.count?

def text : LambdaOf β → String
  | .closure _ _ parameters _ _ _ =>
    "(" ++ ", ".intercalate (parameters.map Parameter.text) ++ ") => internal code"
  | .native f => s!"Builtin({f.name})"

/-- Closures are the same only if they were made at once, native functions if they have one name. -/
def same : LambdaOf β → LambdaOf β → Bool
  | .closure i _ _ _ _ _, .closure j _ _ _ _ _ => i = j
  | .native f, .native g => f = g
  | _, _ => false

end LambdaOf

namespace Lambda

@[match_pattern]
abbrev native (f : Native) : Lambda := LambdaOf.native f

end Lambda

namespace ValueOf

variable {β : Type}

def typeName : ValueOf β → String
  | .void => "Void"
  | .number _ => "Number"
  | .string _ => "String"
  | .bool _ => "Bool"
  | .list _ => "List"
  | .dict _ => "Dict"
  | .lambda _ => "Lambda"
  | .samples _ => "Distribution"

mutual

/-- How a value is shown. -/
def text : ValueOf β → String
  | .void => "()"
  | .number x => Number.text x
  | .string s => Text.quoted s
  | .bool b => toString b
  | .list items => "[" ++ ", ".intercalate (texts items) ++ "]"
  | .dict entries => "\x7b" ++ ", ".intercalate (entryTexts entries) ++ "\x7d"
  | .lambda f => f.text
  | .samples s => s.text

def texts : List (ValueOf β) → List String
  | [] => []
  | v :: vs => v.text :: texts vs

def entryTexts : List (String × ValueOf β) → List String
  | [] => []
  | (key, v) :: rest => s!"{key}: {v.text}" :: entryTexts rest

end

/-- A string as its content, every other value as it is shown. -/
def plainText : ValueOf β → String
  | .string s => s
  | v => v.text

mutual

/-- Values are equal by content, numbers as numbers, functions by identity. -/
def equal : ValueOf β → ValueOf β → Bool
  | .void, .void => true
  | .number x, .number y => x == y
  | .string s, .string t => s == t
  | .bool a, .bool b => a == b
  | .list xs, .list ys => equalAll xs ys
  | .dict xs, .dict ys => equalEntries xs ys
  | .lambda f, .lambda g => f.same g
  | .samples s, .samples t => s.equal t
  | _, _ => false

def equalAll : List (ValueOf β) → List (ValueOf β) → Bool
  | [], [] => true
  | x :: xs, y :: ys => equal x y && equalAll xs ys
  | _, _ => false

def equalEntries : List (String × ValueOf β) → List (String × ValueOf β) → Bool
  | [], [] => true
  | (k, x) :: xs, (l, y) :: ys => k == l && equal x y && equalEntries xs ys
  | _, _ => false

end

mutual

/-- A value as JSON: functions by their text, sets of samples by their summary. -/
def json : ValueOf β → Json
  | .void => .null
  | .number x => .ofFloat x
  | .string s => .string s
  | .bool b => .bool b
  | .list items => .array (jsons items)
  | .dict entries => .object (entryJsons entries)
  | .lambda f => .string f.text
  | .samples s =>
    .object [("type", .string "SampleSet"), ("mean", .ofFloat s.mean), ("stdev", .ofFloat s.stdev),
      ("sampleCount", .ofNat s.size)]

def jsons : List (ValueOf β) → List Json
  | [] => []
  | v :: vs => v.json :: jsons vs

def entryJsons : List (String × ValueOf β) → List (String × Json)
  | [] => []
  | (key, v) :: rest => (key, v.json) :: entryJsons rest

end

end ValueOf

end Estimation
