import Estimation.Module.Error
import Estimation.Text.Quoted

/-!
Kinds of errors for programs that read reports: the name of a kind, and the kind in full with what
the error is about.
-/

namespace Estimation

/-- A kind of error. -/
structure ErrorKind where
  name : String
  /-- What the error is about, if the kind does not say it all. -/
  details : String
  deriving DecidableEq, Repr

namespace ErrorKind

def plain (name : String) : ErrorKind := ⟨name, ""⟩

/-- A kind with one thing that it is about. -/
def about (name shown : String) : ErrorKind := ⟨name, s!"({shown})"⟩

/-- A kind with things that it is about, under names. -/
def record (name : String) (fields : List (String × String)) : ErrorKind :=
  ⟨name, " \x7b " ++ ", ".intercalate (fields.map fun (key, shown) => s!"{key}: {shown}") ++ " \x7d"⟩

def text (kind : ErrorKind) : String := kind.name ++ kind.details

end ErrorKind

open Text

namespace Token.Fault

def kind : Token.Fault → ErrorKind
  | .unexpectedCharacter c => .about "UnexpectedChar" (quotedChar c)
  | .unterminatedString => .plain "UnterminatedString"
  | .unterminatedComment => .plain "UnterminatedComment"
  | .invalidEscape c => .about "InvalidEscape" (quotedChar c)
  | .invalidNumber written => .about "InvalidNumber" (quoted written)

end Token.Fault

namespace Syntax.Fault

def kind : Syntax.Fault → ErrorKind
  | .unexpected found expected =>
    .record "UnexpectedToken" [("found", quoted found), ("expected", quotedList expected)]
  | .invalidNumber written => .about "InvalidNumberFormat" (quoted written)
  | .missingCloseParen => .plain "MissingRightParen"
  | .missingCloseBracket => .plain "MissingRightBracket"
  | .missingCloseBrace => .plain "MissingRightCurly"
  | .endOfInput => .plain "UnexpectedEndOfInput"
  | .parameterSeparator => .plain "ExpectedCommaOrPipeInLambda"
  | .keyAfterDot => .plain "ExpectedIdentifierAfterDot"
  | .notAName found => .record "ExpectedIdentifier" [("found", quoted found)]
  | .missingSeparator found => .record "MissingSeparator" [("found", quoted found)]
  | .exportInBlock => .plain "ExportInBlock"
  | .blockWithoutResult => .plain "BlockWithoutResult"
  | .lateImport => .plain "ImportAfterStatement"
  | .tooDeep limit => .about "NestingTooDeep" s!"{limit}"

end Syntax.Fault

namespace Failure

def kind : Failure → ErrorKind
  | .arity expected got => .record "Arity" [("expected", quoted expected.text), ("got", s!"{got}")]
  | .wrongType expected got =>
    .record "ExpectedType" [("expected", quoted expected), ("got", quoted got)]
  | .notAFunction shown => .about "NotAFunction" (quoted shown)
  | .outOfDomain cause => .about "Domain" (quoted cause.message)
  | .outOfRange index range =>
    .record "ArgumentDomain" [("index", s!"{index}"), ("message", quoted range.text)]
  | .badArgument cause => .about "Argument" (quoted cause.message)
  | .callDepth limit => .about "CallDepth" s!"{limit}"
  | .stackSize limit => .about "StackOverflow" s!"{limit}"
  | .thrown message => .about "Throw" (quoted message)
  | .noAccess cause => .about "Other" (quoted cause.message)
  | .malformed cause => .about "Internal" (quoted cause.message)

end Failure

namespace SourceError

def kind : SourceError → ErrorKind
  | .syntactic (.lexical e) => e.fault.kind
  | .syntactic (.grammatical e) => e.fault.kind
  | .unbound e => .about "UndefinedName" (quoted e.name)

end SourceError

namespace GraphError

def kind : GraphError → ErrorKind
  | .cycle chain => .record "Cycle" [("chain", quotedList chain)]
  | .unknownModule hash => .about "UnknownModule" (quoted hash)
  | .unknownHead name => .about "UnknownHead" (quoted name)
  | .stalled name => .about "Stalled" (quoted name)

end GraphError

namespace ModuleError

/-- Failed imports are all of one kind. -/
def kind : ModuleError → ErrorKind
  | .source e => e.kind
  | .run e => e.failure.kind
  | .notLoaded _ _ => .plain "ImportError"
  | .failedImport _ _ => .plain "ImportError"
  | .graph e => e.kind
  | .internal _ => .plain "InternalError"

end ModuleError

namespace ProjectError

def kind : ProjectError → ErrorKind
  | .graph e => e.kind
  | .module e => e.kind
  | .config _ => .plain "ConfigError"
  | .io _ => .plain "IoError"

end ProjectError

end Estimation
