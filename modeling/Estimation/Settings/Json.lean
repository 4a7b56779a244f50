import Estimation.Json
import Estimation.Settings

/-!
Settings as JSON. A group of settings is an object of some of its fields, or an array of the first
of them; fields that are missing have their usual values, and unknown ones do not matter.
-/

namespace Estimation

namespace Json

/-- The fields of a group by their names, or nothing if a field is repeated or there are too many
of them. -/
def fields? (names : List String) : Json → Option (List (Option Json))
  | .object members =>
    names.mapM fun name =>
      match members.filter fun (key, _) => key == name with
      | [] => some none
      | [(_, value)] => some (some value)
      | _ => none
  | .array items =>
    if items.length ≤ names.length then
      some (items.map some ++ List.replicate (names.length - items.length) none)
    else none
  | _ => none

/-- A whole number of sixty-four bits, written without point and exponent. -/
def natural? : Json → Option Nat
  | .number written => do
    guard (written.toList.all Char.isDigit)
    let n ← written.toNat?
    guard (n < 1 <<< 64)
    return n
  | _ => none

def bool? : Json → Option Bool
  | .bool b => some b
  | _ => none

def string? : Json → Option String
  | .string s => some s
  | _ => none

/-- A value that may be null. -/
def nullable? {α : Type} (read : Json → Option α) : Json → Option (Option α)
  | .null => some none
  | j => (read j).map some

/-- A field that is missing has a usual value. -/
def fieldOr? {α : Type} (usual : α) (read : Json → Option α) : Option Json → Option α
  | none => some usual
  | some j => read j

end Json

namespace Environment

def fieldNames : List String := ["sampleCount", "xyPointLength", "seed", "profile"]

def ofJson? (j : Json) : Option Environment := do
  let [samples, points, seed, profile] ← j.fields? fieldNames | none
  return {
    sampleCount := ← Json.fieldOr? default.sampleCount Json.natural? samples
    pointLength := ← Json.fieldOr? default.pointLength Json.natural? points
    seed := ← Json.fieldOr? default.seed (Json.nullable? Json.string?) seed
    profile := ← Json.fieldOr? default.profile Json.bool? profile }

def json (e : Environment) : Json :=
  .object [("sampleCount", .ofNat e.sampleCount), ("xyPointLength", .ofNat e.pointLength),
    ("seed", .optional .string e.seed), ("profile", .bool e.profile)]

end Environment

namespace Limits

def ofJson? (j : Json) : Option Limits := do
  let [depth, size] ← j.fields? ["maxCallDepth", "maxStackSize"] | none
  return {
    callDepth := ← Json.fieldOr? default.callDepth Json.natural? depth
    stackSize := ← Json.fieldOr? default.stackSize Json.natural? size }

def json (l : Limits) : Json :=
  .object [("maxCallDepth", .ofNat l.callDepth), ("maxStackSize", .ofNat l.stackSize)]

end Limits

namespace RunnerKind

/-- In settings, a kind is written as its name, or as an object with nothing under its name. -/
def ofJson? : Json → Option RunnerKind
  | .string "embedded" => some .embedded
  | .string "thread" => some .thread
  | .object [("embedded", .null)] => some .embedded
  | .object [("thread", .null)] => some .thread
  | _ => none

end RunnerKind

namespace RunnerSettings

def ofJson? (j : Json) : Option RunnerSettings := do
  let [kind, threads, timeout] ← j.fields? ["kind", "threads", "timeoutMs"] | none
  return {
    kind := ← Json.fieldOr? default.kind RunnerKind.ofJson? kind
    threads := ← Json.fieldOr? default.threads Json.natural? threads
    timeout := ← Json.fieldOr? default.timeout (Json.nullable? Json.natural?) timeout }

def json (r : RunnerSettings) : Json :=
  .object [("kind", .string r.kind.name), ("threads", .ofNat r.threads),
    ("timeoutMs", .optional .ofNat r.timeout)]

end RunnerSettings

namespace RunSettings

def ofJson? (j : Json) : Option RunSettings := do
  let [environment, limits, runner, logEvents] ←
    j.fields? ["environment", "limits", "runner", "logEvents"] | none
  return {
    environment := ← Json.fieldOr? .default Environment.ofJson? environment
    limits := ← Json.fieldOr? .default Limits.ofJson? limits
    runner := ← Json.fieldOr? .default RunnerSettings.ofJson? runner
    logEvents := ← Json.fieldOr? false Json.bool? logEvents }

def json (s : RunSettings) : Json :=
  .object [("environment", s.environment.json), ("limits", s.limits.json),
    ("runner", s.runner.json), ("logEvents", .bool s.logEvents)]

end RunSettings

end Estimation
