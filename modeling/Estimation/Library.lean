import Estimation.Library.Operators
import Estimation.Library.Lists
import Estimation.Library.Dicts
import Estimation.Library.Mathematics
import Estimation.Library.Distributions

/-!
The standard library: what each of its functions does with its arguments.
-/

namespace Estimation

/-- What a native function does with its arguments, by steps that can fail, draw random numbers and
call functions. -/
def Native.steps {β : Type} {M : Type → Type} [Monad M] (environment : Environment)
    (call : LambdaOf β → List (ValueOf β) → M (ValueOf β)) (fail : {α : Type} → Failure → M α)
    (result : Library.Result (ValueOf β) → M (ValueOf β))
    (draw : Draw (ValueOf β) → M (ValueOf β)) (f : Native) (args : List (ValueOf β)) :
    M (ValueOf β) :=
  match f with
  | .add => result (Library.add args)
  | .subtract => result (Library.arithmetic (· - ·) args)
  | .multiply => result (Library.arithmetic (· * ·) args)
  | .divide => result (Library.arithmetic (· / ·) args)
  | .power => result (Library.arithmetic Float.pow args)
  | .negate => result (Library.negate args)
  | .equal => result do return .bool (← Library.equal args)
  | .unequal => result do return .bool (!(← Library.equal args))
  | .smaller => result (Library.comparison (· == .lt) args)
  | .smallerEq => result (Library.comparison (· != .gt) args)
  | .larger => result (Library.comparison (· == .gt) args)
  | .largerEq => result (Library.comparison (· != .lt) args)
  | .both => result (Library.both args)
  | .either => result (Library.either args)
  | .not => result (Library.not args)
  | .atIndex => result (Library.atIndex args)
  | .typeOf => result (Library.typeOf args)
  | .toText => result (Library.toText args)
  | .throw => result (Library.throw args)
  | .listLength => result (Library.listLength args)
  | .listMap => Library.listMap call fail args
  | .listFilter => Library.listFilter call fail args
  | .listReduce => Library.listReduce call fail args
  | .listUpTo => result (Library.listUpTo args)
  | .listMake => Library.listMake call fail args
  | .listFirst => result (Library.listFirst args)
  | .listLast => result (Library.listLast args)
  | .listReverse => result (Library.listReverse args)
  | .listSum => result (Library.listSum args)
  | .listConcat => result (Library.listConcat args)
  | .dictKeys => result (Library.dictKeys args)
  | .dictValues => result (Library.dictValues args)
  | .dictHas => result (Library.dictHas args)
  | .dictSet => result (Library.dictSet args)
  | .dictMerge => result (Library.dictMerge args)
  | .sqrt => result (Library.squareRoot args)
  | .abs => result (Library.function Float.abs args)
  | .floor => result (Library.function Float.floor args)
  | .ceil => result (Library.function Float.ceil args)
  | .round => result (Library.function Float.round args)
  | .exp => result (Library.function Float.exp args)
  | .log => result (Library.logarithm Float.log args)
  | .log10 => result (Library.logarithm Float.log10 args)
  | .min => result (Library.extremum Library.lesser args)
  | .max => result (Library.extremum Library.greater args)
  | .normal => draw (Library.normal environment args)
  | .lognormal => draw (Library.lognormal environment args)
  | .uniform => draw (Library.uniform environment args)
  | .pointMass => draw (Library.pointMass environment args)
  | .spread => draw (Library.spread environment args)
  | .samplesOfList => result (Library.samplesOfList args)
  | .mean => result (Library.mean args)
  | .stdev => result (Library.stdev args)
  | .sample => draw (Library.sample args)
  | .sampleMany => draw (Library.sampleMany args)
  | .quantile => result (Library.quantile args)
  | .samplesToList => result (Library.samplesToList args)

/-- Runs a native function that is the innermost of the active calls, called at `span`. What it
calls is called from there too. -/
def Native.run {β : Type} (run : Run) (call : Library.Callback β) (frames : List Frame)
    (span : Span) (f : Native) (args : List (ValueOf β)) : Eval β (ValueOf β) :=
  f.steps run.environment call (Eval.fail frames span) (Eval.ofExcept frames span)
    (Eval.draw frames span) args

end Estimation
