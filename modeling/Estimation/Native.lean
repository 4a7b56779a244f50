import Estimation.Syntax

/-!
The functions and constants of the standard library: their names, how many arguments they take, and
which of them the operators call.
-/

namespace Estimation

inductive Arity where
  | exactly (n : Nat)
  | between (low high : Nat)
  | any
  deriving DecidableEq, Repr

namespace Arity

def Accepts : Arity → Nat → Prop
  | .exactly n, count => count = n
  | .between low high, count => low ≤ count ∧ count ≤ high
  | .any, _ => True

instance (arity : Arity) (count : Nat) : Decidable (arity.Accepts count) := by
  cases arity <;> (unfold Accepts; exact inferInstance)

def text : Arity → String
  | .exactly n => toString n
  | .between low high => s!"{low}-{high}"
  | .any => "any number of"

/-- The only count that is accepted, if there is just one. -/
def count? : Arity → Option Nat
  | .exactly n => some n
  | _ => none

end Arity

inductive Native where
  | add
  | subtract
  | multiply
  | divide
  | power
  | negate
  | equal
  | unequal
  | smaller
  | smallerEq
  | larger
  | largerEq
  | both
  | either
  | not
  | atIndex
  | typeOf
  | toText
  | throw
  | listLength
  | listMap
  | listFilter
  | listReduce
  | listUpTo
  | listMake
  | listFirst
  | listLast
  | listReverse
  | listSum
  | listConcat
  | dictKeys
  | dictValues
  | dictHas
  | dictSet
  | dictMerge
  | sqrt
  | abs
  | floor
  | ceil
  | round
  | exp
  | log
  | log10
  | min
  | max
  | normal
  | lognormal
  | uniform
  | pointMass
  | spread
  | samplesOfList
  | mean
  | stdev
  | sample
  | sampleMany
  | quantile
  | samplesToList
  deriving DecidableEq, Repr

namespace Native

def all : List Native :=
  [.add, .subtract, .multiply, .divide, .power, .negate, .equal, .unequal, .smaller, .smallerEq,
   .larger, .largerEq, .both, .either, .not, .atIndex, .typeOf, .toText, .throw, .listLength,
   .listMap, .listFilter, .listReduce, .listUpTo, .listMake, .listFirst, .listLast, .listReverse,
   .listSum, .listConcat, .dictKeys, .dictValues, .dictHas, .dictSet, .dictMerge, .sqrt, .abs,
   .floor, .ceil, .round, .exp, .log, .log10, .min, .max, .normal, .lognormal, .uniform,
   .pointMass, .spread, .samplesOfList, .mean, .stdev, .sample, .sampleMany, .quantile,
   .samplesToList]

theorem mem_all (f : Native) : f ∈ all := by cases f <;> decide

def name : Native → String
  | .add => "add"
  | .subtract => "subtract"
  | .multiply => "multiply"
  | .divide => "divide"
  | .power => "pow"
  | .negate => "unaryMinus"
  | .equal => "equal"
  | .unequal => "unequal"
  | .smaller => "smaller"
  | .smallerEq => "smallerEq"
  | .larger => "larger"
  | .largerEq => "largerEq"
  | .both => "and"
  | .either => "or"
  | .not => "not"
  | .atIndex => "$_atIndex_$"
  | .typeOf => "typeOf"
  | .toText => "toString"
  | .throw => "throw"
  | .listLength => "List.length"
  | .listMap => "List.map"
  | .listFilter => "List.filter"
  | .listReduce => "List.reduce"
  | .listUpTo => "List.upTo"
  | .listMake => "List.make"
  | .listFirst => "List.first"
  | .listLast => "List.last"
  | .listReverse => "List.reverse"
  | .listSum => "List.sum"
  | .listConcat => "List.concat"
  | .dictKeys => "Dict.keys"
  | .dictValues => "Dict.values"
  | .dictHas => "Dict.has"
  | .dictSet => "Dict.set"
  | .dictMerge => "Dict.merge"
  | .sqrt => "Math.sqrt"
  | .abs => "Math.abs"
  | .floor => "Math.floor"
  | .ceil => "Math.ceil"
  | .round => "Math.round"
  | .exp => "Math.exp"
  | .log => "Math.log"
  | .log10 => "Math.log10"
  | .min => "Math.min"
  | .max => "Math.max"
  | .normal => "normal"
  | .lognormal => "lognormal"
  | .uniform => "uniform"
  | .pointMass => "pointMass"
  | .spread => "to"
  | .samplesOfList => "SampleSet.fromList"
  | .mean => "mean"
  | .stdev => "stdev"
  | .sample => "sample"
  | .sampleMany => "sampleN"
  | .quantile => "quantile"
  | .samplesToList => "SampleSet.toList"

def arity : Native → Arity
  | .negate => .exactly 1
  | .not => .exactly 1
  | .typeOf => .exactly 1
  | .toText => .exactly 1
  | .throw => .between 0 1
  | .listLength => .exactly 1
  | .listReduce => .exactly 3
  | .listFirst => .exactly 1
  | .listLast => .exactly 1
  | .listReverse => .exactly 1
  | .listSum => .exactly 1
  | .dictKeys => .exactly 1
  | .dictValues => .exactly 1
  | .dictSet => .exactly 3
  | .sqrt => .exactly 1
  | .abs => .exactly 1
  | .floor => .exactly 1
  | .ceil => .exactly 1
  | .round => .exactly 1
  | .exp => .exactly 1
  | .log => .exactly 1
  | .log10 => .exactly 1
  | .min => .between 1 2
  | .max => .between 1 2
  | .pointMass => .exactly 1
  | .samplesOfList => .exactly 1
  | .mean => .exactly 1
  | .stdev => .exactly 1
  | .sample => .exactly 1
  | .samplesToList => .exactly 1
  | _ => .exactly 2

def ofName? (name : String) : Option Native := all.find? fun f => f.name == name

/-- The function that an operator between operands calls. -/
def ofBinary : Syntax.BinaryOp → Native
  | .add => .add
  | .subtract => .subtract
  | .multiply => .multiply
  | .divide => .divide
  | .power => .power
  | .equal => .equal
  | .unequal => .unequal
  | .smaller => .smaller
  | .smallerEq => .smallerEq
  | .larger => .larger
  | .largerEq => .largerEq
  | .both => .both
  | .either => .either
  | .spread => .spread

/-- The function that an operator before an operand calls. -/
def ofUnary : Syntax.UnaryOp → Native
  | .minus => .negate
  | .not => .not

end Native

/-- Numbers that have a name in the standard library. -/
inductive Constant where
  | pi
  | e
  deriving DecidableEq, Repr

namespace Constant

def all : List Constant := [.pi, .e]

def name : Constant → String
  | .pi => "Math.pi"
  | .e => "Math.e"

def value : Constant → Float
  | .pi => 3.14159265358979323846
  | .e => 2.71828182845904523536

def ofName? (name : String) : Option Constant := all.find? fun c => c.name == name

end Constant

end Estimation
