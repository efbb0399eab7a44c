import SparkRapidsJni.Hash.Murmur
import SparkRapidsJni.Lib.Checks
import SparkRapidsJni.Lib.Threads

/-!
# Bloom filters

A bloom filter is a buffer of bytes: a header of three 32-bit integers and the words of the bits. The
kernels see the same bytes as 32-bit words of the (little-endian) device, and turn the index of a bit
so that the bytes are big-endian 64-bit longs.

Sizes are `int`s as in the source, and an access outside of the buffer is a fault of its own.
-/

namespace SparkRapids.BloomFilter

open Bytes Checks

/-- How a call fails: by a `CUDF_EXPECTS`, by an allocation, or by an access outside of a buffer. -/
inductive Fault
  | expects (message : String)
  | allocation
  | outOfBounds
  deriving DecidableEq, Repr

/-! ### Hashes -/

/-- `cudf::word_index` and `cudf::intra_word_index` -/
def wordIndex (index : Nat) : Nat := index / 32

def intraWordIndex (index : Nat) : Nat := index % 32

/-- `gpu_get_hash_mask`: the index of a word and a mask in it. -/
def getHashMask (h bloomFilterBits : BitVec 32) : Nat × BitVec 32 :=
  let index := ((if h.slt 0 then ~~~h else h).srem bloomFilterBits).toNat
  -- word-swizzle within 64 bit long
  let wordIndex := wordIndex index ^^^ 0x1
  -- byte swizzle within the 32 bit word
  let bitIndex := intraWordIndex index ^^^ 0x18
  (wordIndex, (1 : BitVec 32) <<< bitIndex)

/-- The hash of a value for `idx`, as both kernels combine it. -/
def combinedHash (el : BitVec 64) (idx : Nat) : BitVec 32 :=
  let h1 := Murmur.hashInt64 0 el
  let h2 := Murmur.hashInt64 h1 el
  h1 + BitVec.ofNat 32 idx * h2

/-- The values that `idx` takes in the loops of the kernels. -/
def hashIndices (numHashes : BitVec 32) : List Nat := List.range' 1 numHashes.toInt.toNat

/-! ### Headers -/

/-- `bloom_filter_header` -/
structure BloomFilterHeader where
  version : BitVec 32
  numHashes : BitVec 32
  numLongs : BitVec 32
  deriving DecidableEq, Repr

/-- `bloom_filter_header_size` -/
def bloomFilterHeaderSize : Nat := 12

/-- `bswap_32` -/
def bswap32 (x : BitVec 32) : BitVec 32 := word (wordBytesBE x) 0

/-- `byte_swap_header` -/
def byteSwapHeader (header : BloomFilterHeader) : BloomFilterHeader :=
  ⟨bswap32 header.version, bswap32 header.numHashes, bswap32 header.numLongs⟩

/-- The bytes of a header in memory. -/
def headerBytes (header : BloomFilterHeader) : List Byte :=
  wordBytes header.version ++ wordBytes header.numHashes ++ wordBytes header.numLongs

/-- The header that is in memory from `o` on. -/
def headerAt (buf : List Byte) (o : Nat) : BloomFilterHeader :=
  ⟨word buf o, word buf (o + 4), word buf (o + 8)⟩

/-- `pack_bloom_filter_header` -/
def packBloomFilterHeader (buf : List Byte) (header : BloomFilterHeader) : List Byte :=
  overwrite buf 0 (headerBytes (byteSwapHeader header))

/-- `cudf::num_bitmask_words` -/
def numBitmaskWords (numberOfBits : Nat) : Nat := (numberOfBits + 31) / 32

/-- What `unpack_bloom_filter` returns. -/
structure Unpacked where
  header : BloomFilterHeader
  /-- the size of the buffer of words, which starts behind the header -/
  bufferSize : Nat
  bloomFilterBits : BitVec 32

/-- `unpack_bloom_filter` -/
def unpackBloomFilter (bloomFilter : List Byte) : Except Fault Unpacked := do
  expects (bloomFilter.length ≥ bloomFilterHeaderSize)
    (.expects "Encountered truncated bloom filter")
  let header := byteSwapHeader (headerAt bloomFilter 0)
  let bloomFilterBits := header.numLongs * 64
  let words := (header.numLongs.signExtend 64 * 2).toNat
  expects (header.version = 1) (.expects "Unexpected bloom filter version")
  expects (0 < bloomFilterBits.toInt) (.expects "Invalid empty bloom filter size")
  expects (words = numBitmaskWords bloomFilterBits.toNat)
    (.expects "Bloom filter bit/length mismatch")
  return ⟨header, words, bloomFilterBits⟩

/-! ### Creation -/

/-- `get_bloom_filter_stride`: the sizes of the bits and of the whole buffer, as `int`s. -/
def getBloomFilterStride (bloomFilterLongs : BitVec 32) : BitVec 32 × BitVec 32 :=
  let bloomFilterSize : BitVec 64 := bloomFilterLongs.signExtend 64 * 8
  let bufSize : BitVec 64 := BitVec.ofNat 64 bloomFilterHeaderSize + bloomFilterSize
  (bloomFilterSize.truncate 32, bufSize.truncate 32)

/-- A new buffer, with what happens to be in its memory. -/
def deviceBuffer (garbage : Nat → Byte) (size : Nat) : List Byte := (List.range size).map garbage

/-- `bloom_filter_create` -/
def bloomFilterCreate (garbage : Nat → Byte) (numHashes bloomFilterLongs : BitVec 32) :
    Except Fault (List Byte) :=
  let (bloomFilterSize, bufSize) := getBloomFilterStride bloomFilterLongs
  -- a negative size is a `size_t` that cannot be allocated
  if bufSize.slt 0 || bloomFilterSize.slt 0 then .error .allocation
  else
    let buf := deviceBuffer garbage bufSize.toNat
    let buf := packBloomFilterHeader buf ⟨1, numHashes, bloomFilterLongs⟩
    -- memset the bloom filter bits to 0
    .ok (overwrite buf bloomFilterHeaderSize (List.replicate bloomFilterSize.toNat 0))

/-! ### Insertion -/

/-- The address of a word of the bits. -/
def wordAddress (wordIndex : Nat) : Nat := bloomFilterHeaderSize + 4 * wordIndex

/-- `atomicOr(bloom_filter + word_index, mask)`, if the word is in the buffer. -/
def atomicOr (memory : List Byte) (op : Nat × BitVec 32) : Option (List Byte) :=
  if wordAddress op.1 + 4 ≤ memory.length then
    some (overwrite memory (wordAddress op.1) (wordBytes (word memory (wordAddress op.1) ||| op.2)))
  else none

/-- A row of a column of `int64_t`, with what happens to be the data of a null. -/
structure Row where
  isValid : Bool
  data : BitVec 64

/-- The atomic operations of a thread of `gpu_bloom_filter_put`: none for a row that is null. -/
def putOps (numHashes bloomFilterBits : BitVec 32) (row : Row) : List (Nat × BitVec 32) :=
  if !row.isValid then []
  else (hashIndices numHashes).map fun idx =>
    getHashMask (combinedHash row.data idx) bloomFilterBits

/-- `bloom_filter_put` up to the launch of the kernel, which has a thread for each row. -/
def launchPut (bloomFilter : List Byte) (input : List Row) :
    Except Fault (Threads (List Byte) (Nat × BitVec 32)) := do
  let unpacked ← unpackBloomFilter bloomFilter
  expects (bloomFilter.length = unpacked.bufferSize * 4 + bloomFilterHeaderSize)
    (.expects "Encountered invalid/mismatched bloom filter buffer data")
  return ⟨bloomFilter, input.map (putOps unpacked.header.numHashes unpacked.bloomFilterBits)⟩

/-- The states that the kernel is in while it runs. -/
def PutReaches (bloomFilter : List Byte) (input : List Row)
    (s : Threads (List Byte) (Nat × BitVec 32)) : Prop :=
  ∃ start, launchPut bloomFilter input = .ok start ∧ (Threads.lts atomicOr start).Reachable s

/-- `bloom_filter_put` leaves the filter behind, for some order of the atomic operations. -/
def BloomFilterPut (bloomFilter : List Byte) (input : List Row)
    (bloomFilter' : List Byte) : Prop :=
  ∃ s, PutReaches bloomFilter input s ∧ s.Done ∧ s.memory = bloomFilter'

/-! ### Probing -/

/-- A word of memory, if it is in the buffer. -/
def readWord (memory : List Byte) (address : Nat) : Except Fault (BitVec 32) :=
  if address + 4 ≤ memory.length then .ok (word memory address) else .error .outOfBounds

/-- The loop of `bloom_probe_functor::operator()` over the hashes that are left. -/
def probeLoop (bloomFilter : List Byte) (bloomFilterBits : BitVec 32) (input : BitVec 64) :
    List Nat → Except Fault Bool
  | [] => .ok true
  | idx :: indices => do
    let (wordIndex, mask) := getHashMask (combinedHash input idx) bloomFilterBits
    let bits ← readWord bloomFilter (wordAddress wordIndex)
    if bits &&& mask = 0 then return false
    else probeLoop bloomFilter bloomFilterBits input indices

/-- `bloom_filter_probe`: the results, null or not, to which the null mask of the input is put. -/
def bloomFilterProbe (input : List Row) (bloomFilter : List Byte) : Except Fault (List Bool) := do
  let unpacked ← unpackBloomFilter bloomFilter
  expects (bloomFilter.length = unpacked.bufferSize * 4 + bloomFilterHeaderSize)
    (.expects "Encountered invalid/mismatched bloom filter buffer data")
  input.mapM fun row => probeLoop bloomFilter unpacked.bloomFilterBits row.data
    (hashIndices unpacked.header.numHashes)

/-! ### Merging -/

/-- A word of the merged filter: the words of all filters at its place. -/
def mergeWord (child : List Byte) (numBuffers stride wordIndex : Nat) :
    Except Fault (BitVec 32) := do
  let out ← readWord child (wordAddress wordIndex)
  (List.range' 1 (numBuffers - 1)).foldlM (fun out idx => do
    let bits ← readWord child (bloomFilterHeaderSize + idx * stride + 4 * wordIndex)
    return out ||| bits) out

/-- `bloom_filter_merge`, for the bytes of `numBuffers` filters one after another. -/
def bloomFilterMerge (garbage : Nat → Byte) (child : List Byte) (numBuffers : Nat) :
    Except Fault (List Byte) := do
  let unpacked ← unpackBloomFilter child
  let header := unpacked.header
  expects (child.length = (unpacked.bufferSize * 4 + bloomFilterHeaderSize) * numBuffers)
    (.expects "Encountered invalid/mismatched bloom filter buffer data")
  let bufSize := (getBloomFilterStride header.numLongs).2.toNat
  -- validate all the bloom filters are the same
  expects ((List.range' 1 (numBuffers - 1)).all fun i =>
    headerAt child (bufSize * i) = byteSwapHeader header) (.expects "Mismatch of bloom filter parameters")
  let buf := packBloomFilterHeader (deviceBuffer garbage bufSize) header
  -- bitwise-or all the bloom filters together
  let numWords := (header.numLongs * 2).toNat
  let words ← (List.range numWords).mapM (mergeWord child numBuffers bufSize)
  return overwrite buf bloomFilterHeaderSize (wordsBytes words)

end SparkRapids.BloomFilter
