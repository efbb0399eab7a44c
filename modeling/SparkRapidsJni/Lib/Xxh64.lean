import SparkRapidsJni.Lib.Bytes

/-!
# XXH64

The 64-bit hash of the xxHash family, on a list of bytes. The input is consumed front to back: stripes
of 32 bytes go through four accumulators, what is left in lanes of 8 bytes, then in a lane of 4 bytes,
then byte by byte. All arithmetic is modulo `2 ^ 64`, and all words are little endian.
-/

namespace SparkRapids.Xxh64

def prime1 : BitVec 64 := 0x9E3779B185EBCA87
def prime2 : BitVec 64 := 0xC2B2AE3D27D4EB4F
def prime3 : BitVec 64 := 0x165667B19E3779F9
def prime4 : BitVec 64 := 0x85EBCA77C2B2AE63
def prime5 : BitVec 64 := 0x27D4EB2F165667C5

/-- The 32-bit lane in front. -/
def lane32 (input : List Byte) : BitVec 32 := Bytes.word input 0

/-- The 64-bit lane in front. -/
def lane64 (input : List Byte) : BitVec 64 := Bytes.word input 4 ++ Bytes.word input 0

/-- A lane goes into an accumulator. -/
def round (acc lane : BitVec 64) : BitVec 64 := (acc + lane * prime2).rotateLeft 31 * prime1

/-- An accumulator goes into the hash. -/
def mergeAccumulator (acc accN : BitVec 64) : BitVec 64 := (acc ^^^ round 0 accN) * prime1 + prime4

/-- The accumulators. -/
structure Accumulators where
  acc1 : BitVec 64
  acc2 : BitVec 64
  acc3 : BitVec 64
  acc4 : BitVec 64

def initialAccumulators (seed : BitVec 64) : Accumulators where
  acc1 := seed + prime1 + prime2
  acc2 := seed + prime2
  acc3 := seed
  acc4 := seed - prime1

/-- A stripe of four lanes. -/
def stripe (a : Accumulators) (input : List Byte) : Accumulators where
  acc1 := round a.acc1 (lane64 input)
  acc2 := round a.acc2 (lane64 (input.drop 8))
  acc3 := round a.acc3 (lane64 (input.drop 16))
  acc4 := round a.acc4 (lane64 (input.drop 24))

/-- The first `n` stripes. -/
def stripes : ℕ → Accumulators → List Byte → Accumulators
  | 0, a, _ => a
  | n + 1, a, input => stripes n (stripe a input) (input.drop 32)

def convergence (a : Accumulators) : BitVec 64 :=
  let acc := a.acc1.rotateLeft 1 + a.acc2.rotateLeft 7 + a.acc3.rotateLeft 12 + a.acc4.rotateLeft 18
  let acc := mergeAccumulator acc a.acc1
  let acc := mergeAccumulator acc a.acc2
  let acc := mergeAccumulator acc a.acc3
  mergeAccumulator acc a.acc4

/-- The first `n` lanes of 8 bytes. -/
@[grind] def lanes64 : ℕ → BitVec 64 → List Byte → BitVec 64
  | 0, acc, _ => acc
  | n + 1, acc, input =>
    lanes64 n ((acc ^^^ round 0 (lane64 input)).rotateLeft 27 * prime1 + prime4) (input.drop 8)

/-- A lane of 4 bytes, if there is one. -/
def oneLane32 (acc : BitVec 64) (input : List Byte) : BitVec 64 :=
  if 4 ≤ input.length then
    (acc ^^^ (lane32 input).zeroExtend 64 * prime1).rotateLeft 23 * prime2 + prime3
  else acc

/-- The bytes that are left. -/
def tailBytes (acc : BitVec 64) (input : List Byte) : BitVec 64 :=
  input.foldl (fun acc b => (acc ^^^ b.zeroExtend 64 * prime5).rotateLeft 11 * prime1) acc

/-- Fewer than 32 bytes at the end. -/
def consumeRemaining (acc : BitVec 64) (input : List Byte) : BitVec 64 :=
  let acc := lanes64 (input.length / 8) acc input
  let input := input.drop (8 * (input.length / 8))
  let acc := oneLane32 acc input
  let input := if 4 ≤ input.length then input.drop 4 else input
  tailBytes acc input

def avalanche (acc : BitVec 64) : BitVec 64 :=
  let acc := (acc ^^^ acc >>> 33) * prime2
  let acc := (acc ^^^ acc >>> 29) * prime3
  acc ^^^ acc >>> 32

/-- The hash. -/
def hash (seed : BitVec 64) (input : List Byte) : BitVec 64 :=
  let acc :=
    if 32 ≤ input.length then
      convergence (stripes (input.length / 32) (initialAccumulators seed) input)
    else seed + prime5
  let acc := acc + BitVec.ofNat 64 input.length
  avalanche (consumeRemaining acc (input.drop (32 * (input.length / 32))))

-- the empty input, and the three bytes of `abc`
example : hash 0 [] = 0xEF46DB3751D8E999 := by decide

example : hash 0 [0x61, 0x62, 0x63] = 0x44BC2CF5AD770999 := by decide

end SparkRapids.Xxh64
