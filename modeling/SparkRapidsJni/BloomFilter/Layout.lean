import SparkRapidsJni.BloomFilter.Filter

/-!
# The layout of a bloom filter

`Layout` says what the bytes of a filter are for a set of values: the header, and in the big-endian
longs behind it the bits at the indices of the hashes. The bytes are known by it (`Layout.unique`).

In the kernels the two swizzles put the bit of an index to its place in the long (`opPlace_eq`), so
that an atomic operation sets the bit of its index and nothing else (`exists_atomicOr`).
-/

namespace SparkRapids.BloomFilter

open Bytes Checks

/-! ### What the bytes are -/

/-- The index of the bit for a hash, as Spark computes it. -/
def bitIndex (numLongs : BitVec 32) (x : BitVec 64) (k : Nat) : Nat :=
  (if (combinedHash x k).toInt < 0 then ~~~combinedHash x k else combinedHash x k).toNat %
    (64 * numLongs.toNat)

/-- The indices of the bits that are set for the values `S`. -/
def Sets (numHashes numLongs : BitVec 32) (S : Set (BitVec 64)) (i : Nat) : Prop :=
  ∃ x ∈ S, ∃ k : Nat, 1 ≤ k ∧ (k : Int) ≤ numHashes.toInt ∧ bitIndex numLongs x k = i

/-- A filter of `numLongs` longs for `numHashes` hashes and the values `S`. -/
structure Layout (numHashes numLongs : BitVec 32) (S : Set (BitVec 64)) (filter : List Byte) :
    Prop where
  length : filter.length = 12 + 8 * numLongs.toNat
  header : filter.take 12 = wordBytesBE 1 ++ wordBytesBE numHashes ++ wordBytesBE numLongs
  long : ∀ w < numLongs.toNat, ∀ j < 64, (longBE filter (12 + 8 * w)).getLsbD j = true ↔
    Sets numHashes numLongs S (64 * w + j)

/-! ### Places of bits -/

/-- The place of a bit in memory, from the end of the header on. -/
def bitPlace (i : Nat) : Nat := 64 * (i / 64) + (8 * (7 - i % 64 / 8) + i % 8)

theorem bitPlace_bitPlace (i : Nat) : bitPlace (bitPlace i) = i := by
  unfold bitPlace
  omega

theorem bitPlace_inj {i j : Nat} : bitPlace i = bitPlace j ↔ i = j :=
  ⟨fun h => by rw [← bitPlace_bitPlace i, h, bitPlace_bitPlace], fun h => by rw [h]⟩

theorem bitPlace_lt {i n : Nat} (h : i < 64 * n) : bitPlace i < 64 * n := by
  unfold bitPlace
  omega

theorem getLsbD_long {filter : List Byte} {w j : Nat} (hj : j < 64) :
    (longBE filter (12 + 8 * w)).getLsbD j = bit filter (96 + bitPlace (64 * w + j)) := by
  rw [getLsbD_longBE hj]
  congr 1
  unfold bitPlace
  omega

theorem xor_one_eq (n : Nat) : n ^^^ 1 = 2 * (n / 2) + (1 - n % 2) := by
  have hdiv : (n ^^^ 1) / 2 = n / 2 := by
    rw [Nat.xor_div_two]
    simp
  have hmod := (Nat.xor_mod_two_eq_one (a := n) (b := 1))
  omega

/-- The word-swizzle and the byte swizzle. -/
theorem opPlace_eq (i : Nat) : 32 * (i / 32 ^^^ 1) + (i % 32 ^^^ 24) = bitPlace i := by
  have hbyte : ∀ b < 32, b ^^^ 24 = 8 * (3 - b / 8) + b % 8 := by decide
  have hlt := Nat.mod_lt i (show 0 < 32 by decide)
  rw [xor_one_eq, hbyte _ hlt]
  unfold bitPlace
  omega

variable {numHashes numLongs : BitVec 32} {S : Set (BitVec 64)} {filter filter' : List Byte}

/-- The bits in the order of memory. -/
theorem Layout.bit_iff (h : Layout numHashes numLongs S filter) {i : Nat}
    (hi : i < 64 * numLongs.toNat) :
    bit filter (96 + bitPlace i) = true ↔ Sets numHashes numLongs S i := by
  have hlong := h.long (i / 64) (by omega) (i % 64) (by omega)
  rwa [getLsbD_long (by omega), Nat.div_add_mod] at hlong

theorem layout_of_bits (hlen : filter.length = 12 + 8 * numLongs.toNat)
    (hheader : filter.take 12 = wordBytesBE 1 ++ wordBytesBE numHashes ++ wordBytesBE numLongs)
    (hbits : ∀ i < 64 * numLongs.toNat,
      bit filter (96 + bitPlace i) = true ↔ Sets numHashes numLongs S i) :
    Layout numHashes numLongs S filter where
  length := hlen
  header := hheader
  long w hw j hj := by
    rw [getLsbD_long hj]
    exact hbits _ (by omega)

/-- The bytes are known by the layout. -/
theorem Layout.unique (h : Layout numHashes numLongs S filter)
    (h' : Layout numHashes numLongs S filter') : filter = filter' := by
  refine ext_bit (h.length.trans h'.length.symm) fun i hi => ?_
  rw [h.length] at hi
  by_cases hlt : i < 96
  · -- the bits of the header
    have htake : ∀ buf : List Byte, bit buf i = bit (buf.take 12) i := by
      intro buf
      have hslice := @bit_slice buf 0 12 i
      rw [decide_eq_true (by omega), Bool.true_and, Nat.mul_zero, Nat.zero_add] at hslice
      exact hslice.symm
    rw [htake filter, htake filter', h.header, h'.header]
  · have hplace : bitPlace (i - 96) < 64 * numLongs.toNat := bitPlace_lt (by omega)
    have hbit := (h.bit_iff hplace).trans (h'.bit_iff hplace).symm
    rw [bitPlace_bitPlace, show 96 + (i - 96) = i by omega] at hbit
    exact Bool.eq_iff_iff.2 hbit

/-! ### Headers -/

theorem wordBytes_bswap32 (x : BitVec 32) : wordBytes (bswap32 x) = wordBytesBE x :=
  wordBytes_word rfl

theorem bswap32_bswap32 (x : BitVec 32) : bswap32 (bswap32 x) = x := by
  show word (wordBytes (bswap32 x)).reverse 0 = x
  rw [wordBytes_bswap32, wordBytesBE, List.reverse_reverse, word_wordBytes]

theorem headerBytes_byteSwapHeader (header : BloomFilterHeader) :
    headerBytes (byteSwapHeader header) = wordBytesBE header.version ++
      wordBytesBE header.numHashes ++ wordBytesBE header.numLongs := by
  unfold headerBytes byteSwapHeader
  rw [wordBytes_bswap32, wordBytes_bswap32, wordBytes_bswap32]

theorem byteSwapHeader_byteSwapHeader (header : BloomFilterHeader) :
    byteSwapHeader (byteSwapHeader header) = header := by
  unfold byteSwapHeader
  rw [bswap32_bswap32, bswap32_bswap32, bswap32_bswap32]

/-- The words of a header that is at `o`. -/
theorem headerAt_eq {buf : List Byte} {o : Nat} {header : BloomFilterHeader}
    (h : slice buf o 12 = headerBytes header) : headerAt buf o = header := by
  have hword : ∀ k < 3, word buf (o + 4 * k) = word (headerBytes header) (4 * k) := by
    intro k hk
    refine word_congr fun i hi => ?_
    rw [← h, getD_slice, if_pos (by omega), Nat.add_assoc]
  obtain ⟨version, numHashes, numLongs⟩ := header
  have hv : word (headerBytes ⟨version, numHashes, numLongs⟩) 0 = version := word_wordBytes version
  have hn : word (headerBytes ⟨version, numHashes, numLongs⟩) 4 = numHashes :=
    word_wordBytes numHashes
  have hl : word (headerBytes ⟨version, numHashes, numLongs⟩) 8 = numLongs := word_wordBytes numLongs
  unfold headerAt
  rw [show word buf o = _ from hword 0 (by decide), hword 1 (by decide), hword 2 (by decide)]
  rw [show word _ (4 * 0) = version from hv, show word _ (4 * 1) = numHashes from hn,
    show word _ (4 * 2) = numLongs from hl]

/-- The number of longs of which the bits are counted by an `int`. -/
def ValidLongs (numLongs : BitVec 32) : Prop := 0 < numLongs.toNat ∧ 64 * numLongs.toNat < 2 ^ 31

theorem toNat_signExtend (numLongs : BitVec 32) : (numLongs.signExtend 64).toNat =
    if 2 * numLongs.toNat < 2 ^ 32 then numLongs.toNat else numLongs.toNat + 2 ^ 64 - 2 ^ 32 := by
  have hlt := numLongs.isLt
  have hint := BitVec.toInt_eq_toNat_cond numLongs
  have hsign := BitVec.toInt_signExtend_of_le (x := numLongs) (show 32 ≤ 64 by decide)
  have hnat := BitVec.toInt_eq_toNat_cond (numLongs.signExtend 64)
  have hlt64 := (numLongs.signExtend 64).isLt
  split_ifs at * <;> omega

/-- The checks of `unpack_bloom_filter` on the size. -/
theorem validLongs_iff : ValidLongs numLongs ↔ 0 < (numLongs * 64).toInt ∧
    (numLongs.signExtend 64 * 2).toNat = numBitmaskWords (numLongs * 64).toNat := by
  have hbits : (numLongs * 64).toNat = numLongs.toNat * 64 % 2 ^ 32 := BitVec.toNat_mul ..
  have hlt := numLongs.isLt
  have hbitsInt := BitVec.toInt_eq_toNat_cond (numLongs * 64)
  -- the sign of the number of longs is extended
  have hext : (numLongs.signExtend 64 * 2).toNat =
      (if 2 * numLongs.toNat < 2 ^ 32 then numLongs.toNat else numLongs.toNat + 2 ^ 64 - 2 ^ 32) * 2 %
        2 ^ 64 := by
    rw [BitVec.toNat_mul, toNat_signExtend]
    rfl
  rw [hext]
  unfold ValidLongs numBitmaskWords
  rw [hbitsInt, hbits]
  split_ifs <;> omega

theorem ValidLongs.toNat_mul (h : ValidLongs numLongs) :
    (numLongs * 64).toNat = 64 * numLongs.toNat := by
  have hbits : (numLongs * 64).toNat = numLongs.toNat * 64 % 2 ^ 32 := BitVec.toNat_mul ..
  obtain ⟨-, hlt⟩ := h
  omega

/-- What `unpack_bloom_filter` finds in a filter of the size. -/
theorem unpackBloomFilter_eq {version : BitVec 32} (hlen : 12 ≤ filter.length)
    (hheader : filter.take 12 = wordBytesBE version ++ wordBytesBE numHashes ++ wordBytesBE numLongs)
    (u : Unpacked) : unpackBloomFilter filter = .ok u ↔ version = 1 ∧ ValidLongs numLongs ∧
      u = ⟨⟨version, numHashes, numLongs⟩, 2 * numLongs.toNat, numLongs * 64⟩ := by
  have hat : byteSwapHeader (headerAt filter 0) = ⟨version, numHashes, numLongs⟩ := by
    have hslice : slice filter 0 12 =
        headerBytes (byteSwapHeader ⟨version, numHashes, numLongs⟩) := by
      rw [headerBytes_byteSwapHeader]
      exact hheader
    rw [headerAt_eq hslice, byteSwapHeader_byteSwapHeader]
  unfold unpackBloomFilter
  dsimp only
  rw [hat]
  simp only [expects_bind_eq_ok_iff, decide_eq_true_eq]
  rw [and_iff_right (show filter.length ≥ bloomFilterHeaderSize from hlen)]
  refine and_congr_right fun _ => ?_
  rw [← and_assoc, ← validLongs_iff]
  refine and_congr_right fun hvalid => ?_
  have hwords : (numLongs.signExtend 64 * 2).toNat = 2 * numLongs.toNat := by
    rw [(validLongs_iff.1 hvalid).2, hvalid.toNat_mul, numBitmaskWords]
    omega
  rw [hwords]
  exact ⟨fun h => (Except.ok.inj h).symm, fun h => congrArg Except.ok h.symm⟩

/-! ### Operations on bits -/

/-- The remainder of two `int`s that are not negative. -/
theorem toNat_srem {x y : BitVec 32} (hx : x.msb = false) (hy : y.msb = false) :
    (x.srem y).toNat = x.toNat % y.toNat := by
  rw [BitVec.srem_eq, hx, hy]
  exact BitVec.toNat_umod

theorem ValidLongs.msb (h : ValidLongs numLongs) : (numLongs * 64).msb = false := by
  have hmul := h.toNat_mul
  have hlt := h.2
  rw [BitVec.msb_eq_decide, decide_eq_false]
  omega

/-- The word and the mask of an index. -/
def bitOp (i : Nat) : Nat × BitVec 32 := (i / 32 ^^^ 1, (1 : BitVec 32) <<< (i % 32 ^^^ 24))

theorem getHashMask_eq (h : ValidLongs numLongs) (x : BitVec 64) (k : Nat) :
    getHashMask (combinedHash x k) (numLongs * 64) = bitOp (bitIndex numLongs x k) := by
  have hslt : (combinedHash x k).slt 0 = true ↔ (combinedHash x k).toInt < 0 := by
    rw [BitVec.slt_iff_toInt_lt, BitVec.ofNat_eq_ofNat, BitVec.toInt_zero]
  have hmsb : (if (combinedHash x k).slt 0 then ~~~combinedHash x k else combinedHash x k).msb =
      false := by
    have hsign : (combinedHash x k).slt 0 = (combinedHash x k).msb := BitVec.slt_zero_eq_msb
    rw [hsign]
    cases hm : (combinedHash x k).msb with
    | true => rw [if_pos rfl, BitVec.msb_not, hm]; rfl
    | false => rw [if_neg Bool.false_ne_true, hm]
  unfold getHashMask bitIndex bitOp
  dsimp only
  rw [toNat_srem hmsb h.msb, h.toNat_mul]
  simp only [hslt]
  rfl

theorem bitIndex_lt (h : ValidLongs numLongs) (x : BitVec 64) (k : Nat) :
    bitIndex numLongs x k < 64 * numLongs.toNat :=
  Nat.mod_lt _ (Nat.mul_pos (by decide) h.1)

theorem getLsbD_mask {b j : Nat} (hb : b < 32) :
    ((1 : BitVec 32) <<< b).getLsbD j = true ↔ j = b := by
  rw [BitVec.getLsbD_shiftLeft]
  simp only [BitVec.ofNat_eq_ofNat, BitVec.getLsbD_one, Bool.and_eq_true, decide_eq_true_eq,
    Bool.not_eq_true', decide_eq_false_iff_not]
  omega

theorem swizzle_lt (i : Nat) : i % 32 ^^^ 24 < 32 :=
  (by decide : ∀ b < 32, b ^^^ 24 < 32) _ (Nat.mod_lt _ (by decide))

/-- The word of an index is in the buffer. -/
theorem wordAddress_le {i : Nat} (hlen : filter.length = 12 + 8 * numLongs.toNat)
    (hi : i < 64 * numLongs.toNat) : wordAddress (bitOp i).1 + 4 ≤ filter.length := by
  unfold wordAddress bloomFilterHeaderSize bitOp
  dsimp only
  rw [xor_one_eq, hlen]
  omega

theorem bitOp_address (i : Nat) : 8 * wordAddress (bitOp i).1 + (i % 32 ^^^ 24) = 96 + bitPlace i := by
  have hplace := opPlace_eq i
  unfold wordAddress bloomFilterHeaderSize bitOp
  omega

/-- An atomic operation sets the bit of its index. -/
theorem exists_atomicOr {i : Nat} (hlen : filter.length = 12 + 8 * numLongs.toNat)
    (hi : i < 64 * numLongs.toNat) : ∃ filter', atomicOr filter (bitOp i) = some filter' ∧
      filter'.length = filter.length ∧
      ∀ n, bit filter' n = true ↔ bit filter n = true ∨ n = 96 + bitPlace i := by
  have hle := wordAddress_le hlen hi
  have hswizzle := swizzle_lt i
  have haddress := bitOp_address i
  refine ⟨_, if_pos hle, length_overwrite (by rw [length_wordBytes]; exact hle), fun n => ?_⟩
  rw [bit_overwrite (by rw [length_wordBytes]; exact hle), length_wordBytes]
  split_ifs with hn
  · -- a bit of the word
    rw [bit_wordBytes _ (by omega), BitVec.getLsbD_or, Bool.or_eq_true, getLsbD_word (by omega),
      Nat.add_sub_cancel' hn.1]
    refine or_congr Iff.rfl ((getLsbD_mask hswizzle).trans ?_)
    omega
  · exact ⟨Or.inl, fun h => h.resolve_right (by omega)⟩

/-- A bit is tested in the word that it is in. -/
theorem word_and_mask (i : Nat) : word filter (wordAddress (bitOp i).1) &&& (bitOp i).2 = 0 ↔
    bit filter (96 + bitPlace i) = false := by
  have hswizzle := swizzle_lt i
  have hbit : bit filter (96 + bitPlace i) =
      (word filter (wordAddress (bitOp i).1)).getLsbD (i % 32 ^^^ 24) := by
    rw [getLsbD_word hswizzle, bitOp_address]
  have hmask : (bitOp i).2.getLsbD (i % 32 ^^^ 24) = true := (getLsbD_mask hswizzle).2 rfl
  rw [hbit]
  constructor
  · intro h
    have hget := congrArg (fun v : BitVec 32 => v.getLsbD (i % 32 ^^^ 24)) h
    simp only [BitVec.getLsbD_and, hmask, Bool.and_true] at hget
    rw [hget]
    simp
  · intro h
    refine BitVec.eq_of_getLsbD_eq fun j hj => ?_
    rw [BitVec.getLsbD_and]
    by_cases hj' : j = i % 32 ^^^ 24
    · rw [hj', h]
      simp
    · have hclear : (bitOp i).2.getLsbD j = false :=
        Bool.eq_false_iff.2 (mt (getLsbD_mask hswizzle).1 hj')
      rw [hclear]
      simp

end SparkRapids.BloomFilter
