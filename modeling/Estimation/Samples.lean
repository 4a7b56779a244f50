import Estimation.Failure

/-!
Sets of samples: how the language holds a distribution. A set has at least one sample, and every
sample is a number, so that its mean, spread and quantiles make sense.
-/

namespace Estimation

structure Samples where
  toList : List Float
  toList_ne_nil : toList ≠ []
  areNumbers : toList.all (fun x => !x.isNaN) = true

namespace Samples

def ofList (xs : List Float) : Except Failure Samples :=
  if nonempty : xs = [] then .error (.outOfDomain .noSamples)
  else if numbers : xs.all (fun x => !x.isNaN) = true then .ok ⟨xs, nonempty, numbers⟩
  else .error (.outOfDomain .notANumberAmongSamples)

def size (s : Samples) : Nat := s.toList.length

theorem size_pos (s : Samples) : 0 < s.size := List.length_pos_iff.2 s.toList_ne_nil

/-- Sums start from negative zero, which no addend changes the sign of. -/
def sum (xs : List Float) : Float := xs.foldl (· + ·) (-0.0)

def mean (s : Samples) : Float := sum s.toList / .ofNat s.size

/-- The standard deviation of the samples as a whole population. -/
def stdev (s : Samples) : Float :=
  let mean := s.mean
  (sum (s.toList.map fun x => (x - mean) * (x - mean)) / .ofNat s.size).sqrt

/-- A key for the total order of numbers: negative numbers come before positive ones, the greater
their magnitude the earlier. -/
def orderKey (x : Float) : Nat :=
  let bits := x.toBits.toNat
  if 1 <<< 63 ≤ bits then (1 <<< 64) - 1 - bits else (1 <<< 63) + bits

def sorted (s : Samples) : List Float :=
  s.toList.mergeSort fun x y => orderKey x ≤ orderKey y

/-- The value below which a share `p` of the samples lies, between two samples in proportion. -/
def quantile (s : Samples) (p : Float) : Except Failure Float :=
  if 0 ≤ p ∧ p ≤ 1 then
    let position := p * .ofNat (s.size - 1)
    let lower := position.floor.toUInt64.toNat
    let upper := position.ceil.toUInt64.toNat
    let weight := position - .ofNat lower
    let sorted := s.sorted
    .ok (sorted.getD lower 0 * (1 - weight) + sorted.getD upper 0 * weight)
  else .error (.outOfDomain (.quantile p))

def map (f : Float → Float) (s : Samples) : Except Failure Samples := ofList (s.toList.map f)

/-- Sample by sample, as far as the shorter set goes. -/
def zipWith (f : Float → Float → Float) (s t : Samples) : Except Failure Samples :=
  ofList (List.zipWith f s.toList t.toList)

def equal (s t : Samples) : Bool := s.toList == t.toList

/-- Three places, a half away from zero. -/
def roundedText (x : Float) : String := Number.text ((x * 1000).round / 1000)

def text (s : Samples) : String :=
  s!"Sample Set Distribution(mean: {roundedText s.mean}, stdev: {roundedText s.stdev})"

end Samples

end Estimation
