/-!
SHA-256 digests. A message is padded to whole blocks, and each block is worked into eight words.
-/

namespace Estimation.Digest

/-- The words between blocks. -/
structure Words where
  a : UInt32
  b : UInt32
  c : UInt32
  d : UInt32
  e : UInt32
  f : UInt32
  g : UInt32
  h : UInt32
  deriving DecidableEq, Repr

namespace Words

def initial : Words :=
  ⟨0x6a09e667, 0xbb67ae85, 0x3c6ef372, 0xa54ff53a, 0x510e527f, 0x9b05688c, 0x1f83d9ab, 0x5be0cd19⟩

def add (x y : Words) : Words :=
  ⟨x.a + y.a, x.b + y.b, x.c + y.c, x.d + y.d, x.e + y.e, x.f + y.f, x.g + y.g, x.h + y.h⟩

def toList (w : Words) : List UInt32 := [w.a, w.b, w.c, w.d, w.e, w.f, w.g, w.h]

end Words

/-- One constant for each of the sixty-four rounds. -/
def roundConstants : List UInt32 :=
  [0x428a2f98, 0x71374491, 0xb5c0fbcf, 0xe9b5dba5, 0x3956c25b, 0x59f111f1, 0x923f82a4, 0xab1c5ed5,
   0xd807aa98, 0x12835b01, 0x243185be, 0x550c7dc3, 0x72be5d74, 0x80deb1fe, 0x9bdc06a7, 0xc19bf174,
   0xe49b69c1, 0xefbe4786, 0x0fc19dc6, 0x240ca1cc, 0x2de92c6f, 0x4a7484aa, 0x5cb0a9dc, 0x76f988da,
   0x983e5152, 0xa831c66d, 0xb00327c8, 0xbf597fc7, 0xc6e00bf3, 0xd5a79147, 0x06ca6351, 0x14292967,
   0x27b70a85, 0x2e1b2138, 0x4d2c6dfc, 0x53380d13, 0x650a7354, 0x766a0abb, 0x81c2c92e, 0x92722c85,
   0xa2bfe8a1, 0xa81a664b, 0xc24b8b70, 0xc76c51a3, 0xd192e819, 0xd6990624, 0xf40e3585, 0x106aa070,
   0x19a4c116, 0x1e376c08, 0x2748774c, 0x34b0bcb5, 0x391c0cb3, 0x4ed8aa4a, 0x5b9cca4f, 0x682e6ff3,
   0x748f82ee, 0x78a5636f, 0x84c87814, 0x8cc70208, 0x90befffa, 0xa4506ceb, 0xbef9a3f7, 0xc67178f2]

def rotateRight (x : UInt32) (n : UInt32) : UInt32 := (x >>> n) ||| (x <<< (32 - n))

def mixLow (x : UInt32) : UInt32 := rotateRight x 7 ^^^ rotateRight x 18 ^^^ (x >>> 3)

def mixHigh (x : UInt32) : UInt32 := rotateRight x 17 ^^^ rotateRight x 19 ^^^ (x >>> 10)

/-- The words of a block go on with mixtures of those before them; `recent` holds the last
sixteen, newest first. -/
def schedule (recent : List UInt32) : Nat → List UInt32
  | 0 => []
  | count + 1 =>
    let word := mixHigh (recent.getD 1 0) + recent.getD 6 0 + mixLow (recent.getD 14 0) + recent.getD 15 0
    word :: schedule (word :: recent.take 15) count

def round (w : Words) (constant word : UInt32) : Words :=
  let mixE := rotateRight w.e 6 ^^^ rotateRight w.e 11 ^^^ rotateRight w.e 25
  let choice := (w.e &&& w.f) ^^^ (~~~w.e &&& w.g)
  let first := w.h + mixE + choice + constant + word
  let mixA := rotateRight w.a 2 ^^^ rotateRight w.a 13 ^^^ rotateRight w.a 22
  let majority := (w.a &&& w.b) ^^^ (w.a &&& w.c) ^^^ (w.b &&& w.c)
  ⟨first + mixA + majority, w.a, w.b, w.c, w.d + first, w.e, w.f, w.g⟩

/-- Works a block of sixteen words into the words so far. -/
def absorb (w : Words) (block : List UInt32) : Words :=
  let words := block ++ schedule block.reverse 48
  w.add ((roundConstants.zip words).foldl (fun w (constant, word) => round w constant word) w)

/-- Four bytes to a word, high byte first. -/
def toWords : List UInt8 → List UInt32
  | a :: b :: c :: d :: rest =>
    ((a.toUInt32 <<< 24) ||| (b.toUInt32 <<< 16) ||| (c.toUInt32 <<< 8) ||| d.toUInt32) :: toWords rest
  | _ => []

def bigEndian : Nat → Nat → List UInt8
  | 0, _ => []
  | width + 1, n => (n / 256 ^ width % 256).toUInt8 :: bigEndian width n

/-- A one bit, zeros up to the last eight bytes of a block, and the length in bits. -/
def pad (message : List UInt8) : List UInt8 :=
  let zeros := (119 - message.length % 64) % 64
  message ++ 0x80 :: (List.replicate zeros 0 ++ bigEndian 8 (8 * message.length))

def absorbAll (w : Words) (words : List UInt32) : Words :=
  match _h : words with
  | [] => w
  | _ :: _ => absorbAll (absorb w (words.take 16)) (words.drop 16)
  termination_by words.length
  decreasing_by
    rw [List.length_drop, _h, List.length_cons]
    omega

/-- The digest of a message, thirty-two bytes. -/
def sha256 (message : List UInt8) : List UInt8 :=
  (absorbAll .initial (toWords (pad message))).toList.flatMap fun word => bigEndian 4 word.toNat

def hexText (bytes : List UInt8) : String :=
  String.ofList (bytes.flatMap fun b => [Nat.digitChar (b.toNat / 16), Nat.digitChar (b.toNat % 16)])

/-- The digest of a text's bytes, in hexadecimal digits. -/
def ofText (s : String) : String := hexText (sha256 s.toUTF8.data.toList)

end Estimation.Digest
