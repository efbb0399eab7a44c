import SparkRapidsJni.Lib.Bytes

/-!
# MurmurHash3 as Spark computes it

`MurmurHash3_32` hashes the bytes of a value, four at a time and then one by one: the bytes that are
left over are extended with their sign, which is not how MurmurHash3 treats them elsewhere.
-/

namespace SparkRapids.Murmur

open Bytes

/-- `rotate_bits_left` -/
def rotateBitsLeft (x : BitVec 32) (r : Nat) : BitVec 32 := x.rotateLeft r

/-- `fmix32` -/
def fmix32 (h : BitVec 32) : BitVec 32 :=
  let h := h ^^^ (h >>> 16)
  let h := h * 0x85ebca6b
  let h := h ^^^ (h >>> 13)
  let h := h * 0xc2b2ae35
  h ^^^ (h >>> 16)

/-- `getblock32` -/
def getblock32 (data : List Byte) (offset : Nat) : BitVec 32 := word data offset

/-- A round of the hash, for four bytes or one. -/
def round (h k1 : BitVec 32) : BitVec 32 :=
  let k1 := k1 * 0xcc9e2d51
  let k1 := rotateBitsLeft k1 15
  let k1 := k1 * 0x1b873593
  let h := h ^^^ k1
  let h := rotateBitsLeft h 13
  h * 5 + 0xe6546b64

/-- `compute_remaining_bytes` -/
def computeRemainingBytes (data : List Byte) (tailOffset : Nat) (h : BitVec 32) : BitVec 32 :=
  (data.drop tailOffset).foldl (fun h b => round h (b.signExtend 32)) h

/-- `compute_bytes` -/
def computeBytes (seed : BitVec 32) (data : List Byte) : BitVec 32 :=
  let nblocks := data.length / 4
  let tailOffset := nblocks * 4
  -- all four-byte chunks
  let h := (List.range nblocks).foldl (fun h i => round h (getblock32 data (i * 4))) seed
  let h := computeRemainingBytes data tailOffset h
  -- finalize
  fmix32 (h ^^^ BitVec.ofNat 32 data.length)

/-- The bytes of an `int64_t` in memory. -/
def int64Bytes (x : BitVec 64) : List Byte :=
  wordBytes (x.extractLsb' 0 32) ++ wordBytes (x.extractLsb' 32 32)

/-- `MurmurHash3_32<int64_t>(seed)(key)` -/
def hashInt64 (seed : BitVec 32) (key : BitVec 64) : BitVec 32 := computeBytes seed (int64Bytes key)

-- `hash(42L)` of Spark, with its seed 42
example : (hashInt64 42 42).toInt = 1316951768 := by decide +kernel

end SparkRapids.Murmur
