import Estimation.Digest

/-!
Random numbers from a seed. The numbers are the words of a ChaCha key stream of twelve rounds, whose
key is the digest of the seed; the same seed gives the same numbers.
-/

namespace Estimation

/-- The key, the number of the next block, and the words of blocks before it that are not used. -/
structure Random where
  key : List UInt32
  block : Nat
  pending : List UInt64
  deriving DecidableEq, Repr

namespace Random

/-! ### The key stream -/

def rotateLeft (x : UInt32) (n : UInt32) : UInt32 := (x <<< n) ||| (x >>> (32 - n))

/-- One quarter of a round, on four of the sixteen words. -/
def quarter : UInt32 × UInt32 × UInt32 × UInt32 → UInt32 × UInt32 × UInt32 × UInt32
  | (a, b, c, d) =>
    let a := a + b
    let d := rotateLeft (d ^^^ a) 16
    let c := c + d
    let b := rotateLeft (b ^^^ c) 12
    let a := a + b
    let d := rotateLeft (d ^^^ a) 8
    let c := c + d
    let b := rotateLeft (b ^^^ c) 7
    (a, b, c, d)

/-- A round along the columns, and one along the diagonals. -/
def doubleRound : List UInt32 → List UInt32
  | [a0, a1, a2, a3, b0, b1, b2, b3, c0, c1, c2, c3, d0, d1, d2, d3] =>
    let (a0, b0, c0, d0) := quarter (a0, b0, c0, d0)
    let (a1, b1, c1, d1) := quarter (a1, b1, c1, d1)
    let (a2, b2, c2, d2) := quarter (a2, b2, c2, d2)
    let (a3, b3, c3, d3) := quarter (a3, b3, c3, d3)
    let (a0, b1, c2, d3) := quarter (a0, b1, c2, d3)
    let (a1, b2, c3, d0) := quarter (a1, b2, c3, d0)
    let (a2, b3, c0, d1) := quarter (a2, b3, c0, d1)
    let (a3, b0, c1, d2) := quarter (a3, b0, c1, d2)
    [a0, a1, a2, a3, b0, b1, b2, b3, c0, c1, c2, c3, d0, d1, d2, d3]
  | words => words

/-- The words that a block is made from: a constant, the key, and the block's number. -/
def blockStart (key : List UInt32) (block : Nat) : List UInt32 :=
  [0x61707865, 0x3320646e, 0x79622d32, 0x6b206574] ++ key ++
    [block.toUInt32, (block.shiftRight 32).toUInt32, 0, 0]

/-- Two words of a block make one of the stream, the lower first. -/
def pairs : List UInt32 → List UInt64
  | low :: high :: rest => (low.toUInt64 ||| (high.toUInt64 <<< 32)) :: pairs rest
  | _ => []

def blockWords (key : List UInt32) (block : Nat) : List UInt64 :=
  let start := blockStart key block
  let mixed := (List.range 6).foldl (fun words _ => doubleRound words) start
  pairs (List.zipWith (· + ·) mixed start)

/-! ### Drawing -/

def littleEndian : List UInt8 → List UInt32
  | a :: b :: c :: d :: rest =>
    (a.toUInt32 ||| (b.toUInt32 <<< 8) ||| (c.toUInt32 <<< 16) ||| (d.toUInt32 <<< 24)) ::
      littleEndian rest
  | _ => []

def ofSeed (seed : String) : Random :=
  ⟨littleEndian (Digest.sha256 seed.toUTF8.toList), 0, []⟩

/-- The next word of the stream. -/
def word (r : Random) : UInt64 × Random :=
  match r.pending with
  | w :: rest => (w, { r with pending := rest })
  | [] =>
    match blockWords r.key r.block with
    | w :: rest => (w, { r with block := r.block + 1, pending := rest })
    | [] => (0, { r with block := r.block + 1 })

/-- A number from zero up to one, from the upper bits of a word. -/
def unit (r : Random) : Float × Random :=
  let (w, r) := r.word
  ((w >>> 11).toFloat * .ofBits 0x3CA0000000000000, r)

/-- The greatest multiple of a power of two times `n` that fits a word, less one: products whose
lower half is not above it are spread evenly. -/
def evenZone (n : Nat) : Nat := (n <<< (63 - n.log2)) - 1

/-- Draws words until one is spread evenly below `n`; every word is so with a chance above one
half. -/
def belowWithin (n : Nat) : Nat → Random → Nat × Random
  | 0, r => (0, r)
  | attempts + 1, r =>
    let (w, r) := r.word
    let product := w.toNat * n
    if product % (1 <<< 64) ≤ evenZone n then (product >>> 64, r) else belowWithin n attempts r

/-- A whole number below `n`. -/
def below (n : Nat) (r : Random) : Nat × Random := belowWithin n 1024 r

end Random

end Estimation
