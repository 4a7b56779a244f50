import Estimation.Library.Arguments
import Estimation.Machine

/-!
Distributions: made by drawing as many samples as the environment says, and asked for their mean,
spread, quantiles and samples.
-/

namespace Estimation.Library

variable {β : Type}

/-- A step without random numbers. -/
def orStop {α : Type} (r : Result α) : Draw α := fun random => (r, random)

def drawUnit : Draw Float := fun random =>
  let (x, random) := random.unit
  (.ok x, random)

def drawBelow (n : Nat) : Draw Nat := fun random =>
  let (k, random) := random.below n
  (.ok k, random)

/-- `left` more samples behind `done`, the last of which comes first. -/
def drawFrom (sample : Draw Float) (done : List Float) : Nat → Draw (List Float)
  | 0 => return done.reverse
  | left + 1 => do
    let x ← sample
    drawFrom sample (x :: done) left

def generate (environment : Environment) (sample : Draw Float) : Draw (ValueOf β) := do
  let xs ← drawFrom sample [] environment.sampleCount
  return .samples (← orStop (Samples.ofList xs))

def twoPi : Float := 2 * Constant.pi.value

/-- A standard normal number from two that are spread evenly. -/
def standardNormal : Draw Float := do
  let u := 1 - (← drawUnit)
  let v ← drawUnit
  return (-2 * u.log).sqrt * (twoPi * v).cos

/-- Ninety-five of a hundred standard normal numbers are below it, so ninety are between its
negative and itself. -/
def upperQuantile : Float := 1.6448536269514722

def nonNegative (what : String) (x : Float) : Result Float :=
  if x < 0 then .error (.outOfDomain (.negative what x)) else .ok x

def normalSample (mean stdev : Float) : Draw Float := do
  return mean + stdev * (← standardNormal)

def lognormalSample (mu sigma : Float) : Draw Float := do
  return (mu + sigma * (← standardNormal)).exp

def normal (environment : Environment) (args : List (ValueOf β)) : Draw (ValueOf β) := do
  let mean ← orStop (number args 0)
  let stdev ← orStop (number args 1)
  let stdev ← orStop (nonNegative "Standard deviation" stdev)
  generate environment (normalSample mean stdev)

def lognormal (environment : Environment) (args : List (ValueOf β)) : Draw (ValueOf β) := do
  let mu ← orStop (number args 0)
  let sigma ← orStop (number args 1)
  let sigma ← orStop (nonNegative "Sigma" sigma)
  generate environment (lognormalSample mu sigma)

def uniform (environment : Environment) (args : List (ValueOf β)) : Draw (ValueOf β) := do
  let low ← orStop (number args 0)
  let high ← orStop (number args 1)
  if high < low then orStop (.error (.outOfDomain (.highBelowLow low high)))
  else generate environment do return low + (high - low) * (← drawUnit)

def pointMass (environment : Environment) (args : List (ValueOf β)) : Draw (ValueOf β) := do
  let x ← orStop (number args 0)
  generate environment (return x)

/-- The bounds take in ninety of a hundred samples; between positive bounds the logarithms are
normal. -/
def spread (environment : Environment) (args : List (ValueOf β)) : Draw (ValueOf β) := do
  let low ← orStop (number args 0)
  let high ← orStop (number args 1)
  if high ≤ low then orStop (.error (.outOfDomain .lowNotBelowHigh))
  else if 0 < low then
    let logLow := low.log
    let logHigh := high.log
    generate environment
      (lognormalSample ((logLow + logHigh) / 2) ((logHigh - logLow) / (2 * upperQuantile)))
  else
    generate environment (normalSample ((low + high) / 2) ((high - low) / (2 * upperQuantile)))

def sample (args : List (ValueOf β)) : Draw (ValueOf β) := do
  let s ← orStop (samples args 0)
  return .number (s.toList.getD (← drawBelow s.size) 0)

def sampleMany (args : List (ValueOf β)) : Draw (ValueOf β) := do
  let s ← orStop (samples args 0)
  let count ← orStop (integer args 1)
  if count < 0 then orStop (.error (.badArgument (.negativeCount count)))
  else
    let xs := s.toList.toArray
    let picked ← drawFrom (do return xs.getD (← drawBelow s.size) 0) [] count.toNat
    return .list (picked.map .number)

/-! ### Without random numbers -/

def samplesOfList (args : List (ValueOf β)) : Result (ValueOf β) := do
  let xs ← (← list args 0).mapM asNumber
  return .samples (← Samples.ofList xs)

def mean (args : List (ValueOf β)) : Result (ValueOf β) := do
  return .number (← samples args 0).mean

def stdev (args : List (ValueOf β)) : Result (ValueOf β) := do
  return .number (← samples args 0).stdev

def quantile (args : List (ValueOf β)) : Result (ValueOf β) := do
  let s ← samples args 0
  return .number (← s.quantile (← number args 1))

def samplesToList (args : List (ValueOf β)) : Result (ValueOf β) := do
  return .list ((← samples args 0).toList.map .number)

end Estimation.Library
