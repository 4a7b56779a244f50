import Estimation.Digest
import Estimation.Settings.Json

/-!
Identities of outputs. An output is known by what it depends on: its module, the environment, and
what became of each import.
-/

namespace Estimation

/-- The identity of an output, as hexadecimal digits. -/
structure OutputId where
  text : String
  deriving DecidableEq, Repr

namespace OutputId

/-- Enough of the digits for people to tell outputs apart. -/
def short (id : OutputId) : String := String.ofList (id.text.toList.take 12)

end OutputId

/-- What became of an import, as far as an output depends on it. -/
inductive ImportKey where
  | output (id : OutputId)
  | unresolved (specifier : String)
  | cyclic (specifier : String)
  deriving DecidableEq, Repr

namespace ImportKey

def parts : ImportKey → List String
  | .output id => ["output", id.text]
  | .unresolved specifier => ["unresolved", specifier]
  | .cyclic specifier => ["cycle", specifier]

end ImportKey

/-- All that an output depends on. -/
structure OutputKey where
  name : String
  moduleHash : String
  environmentHash : String
  imports : List ImportKey
  deriving DecidableEq, Repr

namespace OutputKey

def parts (key : OutputKey) : List String :=
  key.name :: key.moduleHash :: key.environmentHash :: key.imports.flatMap ImportKey.parts

def littleEndian : Nat → Nat → List UInt8
  | 0, _ => []
  | width + 1, n => (n % 256).toUInt8 :: littleEndian width (n / 256)

/-- The bytes of a text behind how many they are, so that texts in a row stay apart. -/
def framed (part : String) : List UInt8 :=
  littleEndian 8 part.utf8ByteSize ++ part.toUTF8.data.toList

def id (key : OutputKey) : OutputId := ⟨Digest.hexText (Digest.sha256 (key.parts.flatMap framed))⟩

end OutputKey

namespace Environment

def hash (e : Environment) : String := Digest.ofText e.json.text

end Environment

end Estimation
