import Estimation.Command
import Estimation.Files

/-!
The command line program: arguments, files and output.
-/

namespace Estimation.Command

def usageText : String :=
  "\n".intercalate [
    "Usage: gauge run [OPTIONS] [FILE]",
    "",
    "Options:",
    "  -e, --eval <CODE>          Run this code instead of a file",
    "      --config <PATH>        JSON configuration file",
    "      --sample-count <N>     Samples of a distribution [env: SAMPLE_COUNT]",
    "      --seed <SEED>          Seed of the random numbers",
    "      --profile              Print the statements that were run",
    "  -q, --quiet                Print nothing on success",
    "  -b, --show-bindings        Print both the result and the bindings",
    "  -t, --time                 Print the execution time",
    "      --runner <NAME>        embedded or thread",
    "      --runner-threads <N>   Threads of the thread runner",
    "      --timeout-ms <MS>      Time that a module may take",
    "      --log-events           Print loads and outputs",
    "      --log-level <LEVEL>    silent, error, warn, info, debug, trace",
    "      --log-format <FORMAT>  pretty, compact, json"]

/-- What the system says about a file that it does not give. -/
def systemFault : IO.Error → ReadFault
  | .noFileOrDirectory _ _ _ => .missing
  | .inappropriateType _ 21 _ => .isDirectory
  | .inappropriateType _ _ _ => .notDirectory
  | .permissionDenied _ _ _ => .denied
  | .invalidArgument _ _ _ => .longName
  | e => .other (toString e)

/-- The text of a file, or what the system says about it. -/
def readSystemFile (path : String) : IO (Except ReadFault String) := do
  if let some fault := Files.pathFault? path then return .error fault
  try
    match String.fromUTF8? (← IO.FS.readBinFile path) with
    | some text => return .ok text
    | none => return .error .notUnicode
  catch e => return .error (systemFault e)

def perform (request : Request) : IO Nat := do
  match request with
  | .version =>
    IO.println versionText
    return 0
  | .help =>
    IO.println usageText
    return 0
  | .usage =>
    IO.eprintln usageText
    return 2
  | .run o =>
    let start ← IO.monoMsNow
    let answer ← run readSystemFile o
    let time := s!"{(← IO.monoMsNow) - start}ms"
    for line in answer.output do IO.println line
    for line in answer.errors do IO.eprintln (line.render time)
    return answer.exitCode

end Estimation.Command

def main (args : List String) : IO UInt32 := do
  let request := Estimation.Command.Request.ofArguments (← IO.getEnv "SAMPLE_COUNT") args
  return (← Estimation.Command.perform request).toUInt32
