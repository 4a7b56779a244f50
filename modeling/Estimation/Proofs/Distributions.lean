import Estimation.Proofs.Chains
import Estimation.Proofs.Completeness
import Estimation.Proofs.Drawing

/-!
Distributions in a run. That a set has samples, and only numbers, is part of what a set is, so it cannot get
lost in closures, lists or external values. What has to be shown is that the library makes do with it: each
use of a set meets a sample, and each way to make one from others, or by drawing, ends with a set or fails.
-/

namespace Estimation

open List

/-- What the library relies on in a set: a draw from it is one of its samples, its sorted samples have a
last place, and sums over it are divided by something. -/
structure Samples.Usable (s : Samples) : Prop where
  nonempty : s.toList ≠ []
  numbers : ∀ x ∈ s.toList, x.isNaN = false
  sample : ∀ args : List Value, Library.samples args 0 = .ok s →
    Library.Draws (fun _ => False) (fun v => ∃ x ∈ s.toList, v = .number x) (Library.sample args)
  sampleMany : ∀ args : List Value, Library.samples args 0 = .ok s →
    ∀ count, Library.integer args 1 = .ok count → 0 ≤ count →
      Library.Draws (fun _ => False)
        (fun v => ∃ xs : List Float,
          v = .list (xs.map .number) ∧ xs.length = count.toNat ∧ ∀ x ∈ xs, x ∈ s.toList)
        (Library.sampleMany args)
  last : s.size - 1 < s.sorted.length
  divisor : s.size ≠ 0

theorem Samples.usable (s : Samples) : s.Usable where
  nonempty := s.toList_ne_nil
  numbers := s.numbers
  sample _ hs := Library.sample_draws hs
  sampleMany _ hs _ hcount hnonneg := Library.sampleMany_draws hs hcount hnonneg
  last := by
    have hlength : s.sorted.length = s.size := length_mergeSort _
    rw [hlength]
    exact Nat.sub_one_lt (Nat.ne_of_gt s.size_pos)
  divisor := Nat.ne_of_gt s.size_pos

/-- All sets somewhere in a value are usable. -/
def ValueOf.Usable (v : Value) : Prop := ∀ s : Samples, (ValueOf.samples s).Within v → s.Usable

theorem ValueOf.usable (v : Value) : v.Usable := fun s _ => s.usable

/-- All sets in what a program leaves are usable. -/
structure Outcome.Usable (o : Outcome) : Prop where
  result : o.result.Usable
  bindings : ∀ e ∈ o.bindings, e.2.Usable
  exports : ∀ e ∈ o.exports, e.2.Usable

namespace Native

/-- The functions that draw the samples of a set. -/
def drawers : List Native := [.normal, .lognormal, .uniform, .pointMass, .spread]

/-- A function that draws a set draws as many samples as the environment says, or fails; so where it says
none, the function fails. -/
theorem drawers_run (run : Run) {g : Native} (hg : g ∈ drawers) (call : Library.Callback Code)
    (frames : List Frame) (span : Span) (args : List Value) (m : Machine) :
    Meets (fun _ => True) (Library.SetOf run.environment.sampleCount) (g.run run call frames span args m).1 := by
  have hdraws : ∀ d : Draw Value, Library.Draws (fun _ => True) (Library.SetOf run.environment.sampleCount) d →
      Meets (fun _ => True) (Library.SetOf run.environment.sampleCount) (Eval.draw frames span d m).1 :=
    fun _ hd => hd.run frames span m
  simp only [drawers, mem_cons, not_mem_nil, or_false] at hg
  rcases hg with rfl | rfl | rfl | rfl | rfl
  · exact hdraws _ (Library.normal_draws _)
  · exact hdraws _ (Library.lognormal_draws _)
  · exact hdraws _ (Library.uniform_draws _)
  · exact hdraws _ (Library.pointMass_draws _)
  · exact hdraws _ (Library.spread_draws _)

example (call : Library.Callback Code) (m : Machine) :
    (Native.run ⟨0, { Environment.default with sampleCount := 0 }, .default⟩ call [] default .pointMass
      [.number 1] m).1 = .error ⟨.outOfDomain .noSamples, traceFrom [] default⟩ := rfl

end Native

/-! ### Runs -/

namespace Point

open Evaluation

def machine : Point → Machine
  | code _ _ m => m
  | call _ _ _ _ _ m => m
  | body _ _ _ _ m => m
  | native _ _ _ m => m

/-- What a point comes to, if it ends well, and the machine there. -/
def ending (run : Run) : Point → Except RunError Value × Machine
  | code scene c m => scene.eval run c m
  | call calls site argSpans f args m =>
    caller run calls (calls.map Activation.frame) site argSpans f args m
  | body calls captures c args m =>
    runCode .code run (caller run calls) (calls.map Activation.frame) captures c args m
  | native calls site rest m => rest.play (callback run calls site) (calls.map Activation.frame) site m

/-- A value is at hand at a point: in a slot, there or in the end, among the active calls, among what was
captured or passed, in the code, or as what the point comes to. -/
inductive Has (run : Run) : Point → Value → Prop
  | slot {p v} : v ∈ p.machine.stack → Has run p v
  | active {p a} : a ∈ p.calls → Has run p (.lambda a.function)
  | captured {scene c m v} : v ∈ scene.captures → Has run (.code scene c m) v
  | constant {scene c m v place} : (Code.value v place).PartOf c → Has run (.code scene c m) v
  | callee {calls site argSpans f args m} : Has run (.call calls site argSpans f args m) (.lambda f)
  | argument {calls site argSpans f args m v} : v ∈ args → Has run (.call calls site argSpans f args m) v
  | bodyArgument {calls captures c args m v} : v ∈ args → Has run (.body calls captures c args m) v
  | callback {calls site f args next m} : Has run (.native calls site (.call f args next) m) (.lambda f)
  | callbackArgument {calls site f args next m v} : v ∈ args →
      Has run (.native calls site (.call f args next) m) v
  | result {p v} : (p.ending run).1 = .ok v → Has run p v
  | left {p v} : v ∈ (p.ending run).2.stack → Has run p v

end Point

namespace Evaluation

/-- Every set that a run comes across is usable, at each of its points and in what it leaves, and so is every
set that a function takes an argument for, also where the argument is a number. A set that is drawn has as
many samples as the environment says, one that is made from a list has its items, and where sets are
combined, nothing is in the way but what is no number. -/
theorem distributions_usable (run : Run) (code : Code) :
    (∀ p, Relation.ReflTransGen (Next run) (.start run code) p → ∀ v, p.Has run v → v.Usable) ∧
    (∀ o, runFresh run code = .ok o → o.Usable) ∧
    (∀ (args : List Value) i s, Library.samples args i = .ok s →
      s.Usable ∧ (args[i]? = some (.samples s) ∨ ∃ x, args[i]? = some (.number x) ∧ s.toList = [x])) ∧
    (∀ g ∈ Native.drawers, ∀ call frames span (args : List Value) m v,
      (g.run run call frames span args m).1 = .ok v →
        ∃ s, v = .samples s ∧ s.size = run.environment.sampleCount ∧ 0 < run.environment.sampleCount) ∧
    (∀ (args : List Value) v, Library.samplesOfList args = .ok v ↔
      ∃ s : Samples, v = .samples s ∧ args[0]? = some (.list (s.toList.map .number))) ∧
    ∀ s t : Samples,
      (∀ f : Float → Float → Float,
        (∃ u, s.zipWith f t = .ok u) ↔ ∀ p ∈ s.toList.zip t.toList, (f p.1 p.2).isNaN = false) ∧
      ∀ f : Float → Float, (∃ u, s.map f = .ok u) ↔ ∀ x ∈ s.toList, (f x).isNaN = false := by
  refine ⟨fun _ _ v _ => v.usable, fun o _ => ⟨o.result.usable, fun e _ => e.2.usable, fun e _ => e.2.usable⟩,
    ?taken, ?drawn, fun _ _ => Library.samplesOfList_eq_ok, fun s t => ?combined⟩
  case taken =>
    intro args i s hs
    have hargs : Meets _ _ (Library.samples args i) := Library.samples_meets i
    rw [hs] at hargs
    exact ⟨s.usable, hargs⟩
  case drawn =>
    intro g hg call frames span args m v hv
    have hset := Native.drawers_run run hg call frames span args m
    rw [hv] at hset
    obtain ⟨s, rfl, hsize⟩ := hset
    exact ⟨s, rfl, hsize, hsize ▸ s.size_pos⟩
  case combined => exact ⟨fun f => s.exists_zipWith f t, fun f => s.exists_map f⟩

end Evaluation

end Estimation
