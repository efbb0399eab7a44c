import SparkRapidsJni.BloomFilter.Layout

/-!
# Filters that are created and put into

A new filter has the layout of no values, if it can be unpacked (`layout_create`). The kernel of
`bloom_filter_put` adds the values of a column to it, in whatever order its atomic operations are
applied (`layout_put`).
-/

namespace SparkRapids.BloomFilter

open Bytes Checks

variable {hashes numLongs : BitVec 32} {S : Set (BitVec 64)} {filter filter' : List Byte}
  {garbage : Nat → Byte}

/-! ### Creation -/

/-- A header and the bytes behind it fill a buffer. -/
theorem overwrite_header {buf header body : List Byte} (hheader : header.length = 12)
    (hbuf : buf.length = 12 + body.length) :
    overwrite (overwrite buf 0 header) 12 body = header ++ body := by
  unfold overwrite
  rw [List.take_zero, List.nil_append, hheader, Nat.zero_add,
    List.take_append_of_le_length (by omega), List.take_of_length_le (by omega),
    List.drop_eq_nil_of_le, List.append_nil]
  rw [List.length_append, List.length_drop]
  omega

theorem length_headerBytes (header : BloomFilterHeader) : (headerBytes header).length = 12 := rfl

/-- A buffer of a header and the bytes of the longs. -/
theorem layout_append {body : List Byte} (hlen : body.length = 8 * numLongs.toNat)
    (hbits : ∀ i < 64 * numLongs.toNat,
      bit body (bitPlace i) = true ↔ Sets hashes numLongs S i) :
    Layout hashes numLongs S
      (headerBytes (byteSwapHeader ⟨1, hashes, numLongs⟩) ++ body) := by
  have hheader := length_headerBytes (byteSwapHeader ⟨1, hashes, numLongs⟩)
  apply layout_of_bits
  · rw [List.length_append, hheader, hlen]
  · rw [List.take_append_of_le_length hheader.ge, List.take_of_length_le hheader.le,
      headerBytes_byteSwapHeader]
  · intro i hi
    rw [bit_append_right (by omega), hheader]
    simpa using hbits i hi

theorem length_deviceBuffer (garbage : Nat → Byte) (size : Nat) :
    (deviceBuffer garbage size).length = size := by
  simp [deviceBuffer]

/-- The sizes of a buffer that can be allocated. -/
theorem stride_of_nonneg (hsize : ¬(getBloomFilterStride numLongs).1.slt 0) :
    (getBloomFilterStride numLongs).2.toNat = 12 + (getBloomFilterStride numLongs).1.toNat := by
  rw [BitVec.slt_iff_toInt_lt, BitVec.ofNat_eq_ofNat, BitVec.toInt_zero, not_lt] at hsize
  have hsum : (getBloomFilterStride numLongs).2.toNat =
      (12 + (getBloomFilterStride numLongs).1.toNat) % 2 ^ 32 := by
    show ((BitVec.ofNat 64 12 + numLongs.signExtend 64 * 8).truncate 32).toNat =
      (12 + ((numLongs.signExtend 64 * 8).truncate 32).toNat) % 2 ^ 32
    simp only [BitVec.truncate_eq_setWidth, BitVec.toNat_setWidth, BitVec.toNat_add,
      BitVec.toNat_ofNat]
    omega
  have hcond := BitVec.toInt_eq_toNat_cond (getBloomFilterStride numLongs).1
  have hlt := (getBloomFilterStride numLongs).1.isLt
  split_ifs at hcond <;> omega

theorem ValidLongs.stride (h : ValidLongs numLongs) :
    (getBloomFilterStride numLongs).1.toNat = 8 * numLongs.toNat ∧
      (getBloomFilterStride numLongs).2.toNat = 12 + 8 * numLongs.toNat := by
  obtain ⟨hpos, hlt⟩ := h
  have hext : (numLongs.signExtend 64).toNat = numLongs.toNat :=
    (toNat_signExtend numLongs).trans (if_pos (by omega))
  have hsize : (getBloomFilterStride numLongs).1.toNat =
      (numLongs.signExtend 64).toNat * 8 % 2 ^ 64 % 2 ^ 32 := by
    show ((numLongs.signExtend 64 * 8).truncate 32).toNat = _
    rw [BitVec.truncate_eq_setWidth, BitVec.toNat_setWidth, BitVec.toNat_mul]
    rfl
  have hbuf : (getBloomFilterStride numLongs).2.toNat =
      (12 + (numLongs.signExtend 64).toNat * 8 % 2 ^ 64) % 2 ^ 64 % 2 ^ 32 := by
    show ((BitVec.ofNat 64 12 + numLongs.signExtend 64 * 8).truncate 32).toNat = _
    rw [BitVec.truncate_eq_setWidth, BitVec.toNat_setWidth, BitVec.toNat_add, BitVec.toNat_mul]
    rfl
  rw [hsize, hbuf, hext]
  omega

theorem bit_replicate_zero (n i : Nat) : bit (List.replicate n 0) i = false := by
  unfold bit
  rw [List.getD_eq_getElem?_getD, List.getElem?_replicate]
  split_ifs <;> simp

/-- A new filter that can be unpacked has no bits set. -/
theorem layout_create {u : Unpacked} (h : bloomFilterCreate garbage hashes numLongs = .ok filter)
    (hunpack : unpackBloomFilter filter = .ok u) :
    ValidLongs numLongs ∧ Layout hashes numLongs ∅ filter := by
  unfold bloomFilterCreate at h
  dsimp only at h
  split_ifs at h with hneg
  obtain ⟨-, hsize⟩ := not_or.1 (by rwa [Bool.or_eq_true] at hneg)
  have hstride := stride_of_nonneg hsize
  have hfilter : filter = headerBytes (byteSwapHeader ⟨1, hashes, numLongs⟩) ++
      List.replicate (getBloomFilterStride numLongs).1.toNat 0 := by
    rw [← Except.ok.inj h]
    apply overwrite_header (length_headerBytes _)
    rw [length_deviceBuffer, List.length_replicate, hstride]
  have hheader := length_headerBytes (byteSwapHeader ⟨1, hashes, numLongs⟩)
  have hvalid : ValidLongs numLongs := by
    refine ((@unpackBloomFilter_eq hashes numLongs filter 1 ?_ ?_ u).1 hunpack).2.1
    · rw [hfilter, List.length_append, hheader]
      omega
    · rw [hfilter, List.take_append_of_le_length hheader.ge, List.take_of_length_le hheader.le,
        headerBytes_byteSwapHeader]
  refine ⟨hvalid, ?_⟩
  rw [hfilter]
  apply layout_append
  · rw [List.length_replicate, hvalid.stride.1]
  · intro i _
    rw [bit_replicate_zero]
    exact iff_of_false Bool.false_ne_true fun ⟨x, hx, _⟩ => hx

/-! ### Insertion -/

/-- The values of a column that are inserted. -/
def inserted (input : List Row) : Set (BitVec 64) :=
  {x | ∃ row ∈ input, row.isValid = true ∧ row.data = x}

theorem Layout.unpack (h : Layout hashes numLongs S filter) (hvalid : ValidLongs numLongs) :
    unpackBloomFilter filter =
      .ok ⟨⟨1, hashes, numLongs⟩, 2 * numLongs.toNat, numLongs * 64⟩ := by
  have hlen := h.length
  exact (unpackBloomFilter_eq (by omega) h.header _).2 ⟨rfl, hvalid, rfl⟩

/-- The checks of `bloom_filter_put` and `bloom_filter_probe` pass. -/
theorem Layout.expects_size (h : Layout hashes numLongs S filter) :
    filter.length = 2 * numLongs.toNat * 4 + bloomFilterHeaderSize := by
  have hlen := h.length
  unfold bloomFilterHeaderSize
  omega

theorem Layout.launchPut (h : Layout hashes numLongs S filter) (hvalid : ValidLongs numLongs)
    (input : List Row) : BloomFilter.launchPut filter input =
      .ok ⟨filter, input.map (putOps hashes (numLongs * 64))⟩ := by
  unfold BloomFilter.launchPut
  rw [h.unpack hvalid]
  exact expects_bind_eq_ok_iff.2 ⟨decide_eq_true h.expects_size, rfl⟩

theorem mem_hashIndices {k : Nat} :
    k ∈ hashIndices hashes ↔ 1 ≤ k ∧ (k : Int) ≤ hashes.toInt := by
  unfold hashIndices
  rw [List.mem_range'_1]
  omega

/-- The atomic operations of the kernel. -/
theorem mem_ops (hvalid : ValidLongs numLongs) {input : List Row} {op : Nat × BitVec 32} :
    op ∈ (input.map (putOps hashes (numLongs * 64))).flatten ↔
      ∃ i, Sets hashes numLongs (inserted input) i ∧ op = bitOp i := by
  simp only [List.mem_flatten, List.mem_map]
  constructor
  · rintro ⟨ops, ⟨row, hrow, rfl⟩, hop⟩
    unfold putOps at hop
    split_ifs at hop with hnull
    · exact absurd hop List.not_mem_nil
    · obtain ⟨k, hk, rfl⟩ := List.mem_map.1 hop
      obtain ⟨hpos, hle⟩ := mem_hashIndices.1 hk
      rw [getHashMask_eq hvalid]
      exact ⟨_, ⟨row.data, ⟨row, hrow, by simpa using hnull, rfl⟩, k, hpos, hle, rfl⟩, rfl⟩
  · rintro ⟨i, ⟨x, ⟨row, hrow, hvalid', rfl⟩, k, hpos, hle, rfl⟩, rfl⟩
    refine ⟨_, ⟨row, hrow, rfl⟩, ?_⟩
    unfold putOps
    rw [if_neg (by simp [hvalid'])]
    exact List.mem_map.2 ⟨k, mem_hashIndices.2 ⟨hpos, hle⟩, getHashMask_eq hvalid _ _⟩

theorem Sets.lt (hvalid : ValidLongs numLongs) {i : Nat} (h : Sets hashes numLongs S i) :
    i < 64 * numLongs.toNat := by
  obtain ⟨x, -, k, -, -, rfl⟩ := h
  exact bitIndex_lt hvalid x k

theorem bitOp_inj {i j : Nat} (h : bitOp i = bitOp j) : i = j := by
  have hplace := (bitOp_address i).symm
  obtain ⟨hword, hmask⟩ := Prod.mk.inj h
  -- the masks have their only bit in common
  have hbit : i % 32 ^^^ 24 = j % 32 ^^^ 24 := by
    have hget := (getLsbD_mask (j := i % 32 ^^^ 24) (swizzle_lt i)).2 rfl
    rw [hmask] at hget
    exact (getLsbD_mask (swizzle_lt j)).1 hget
  rw [h, hbit, bitOp_address] at hplace
  exact bitPlace_inj.1 (by omega)

/-- Atomic operations set their bits in any order. -/
theorem bits_of_ops {memory memory' : List Byte} {ops : List (Nat × BitVec 32)}
    (hlen : memory.length = 12 + 8 * numLongs.toNat)
    (hops : ∀ op ∈ ops, ∃ i < 64 * numLongs.toNat, op = bitOp i)
    (h : ops.foldlM atomicOr memory = some memory') : memory'.length = memory.length ∧
      ∀ n, bit memory' n = true ↔ bit memory n = true ∨
        ∃ i, bitOp i ∈ ops ∧ n = 96 + bitPlace i := by
  induction ops generalizing memory with
  | nil =>
    obtain rfl := Option.some.inj h
    exact ⟨rfl, fun n => ⟨Or.inl, fun h => h.resolve_right (by simp)⟩⟩
  | cons op ops ih =>
    obtain ⟨i, hi, rfl⟩ := hops op (List.mem_cons_self ..)
    obtain ⟨memory₁, hatomic, hlength1, hbits1⟩ := exists_atomicOr hlen hi
    rw [List.foldlM_cons, hatomic] at h
    obtain ⟨hlength', hbits'⟩ := ih (by rw [hlength1, hlen])
      (fun op hop => hops op (List.mem_cons_of_mem _ hop)) h
    refine ⟨hlength'.trans hlength1, fun n => ?_⟩
    rw [hbits', hbits1, or_assoc]
    refine or_congr_right ?_
    constructor
    · rintro (hn | ⟨j, hj, hn⟩)
      · exact ⟨i, List.mem_cons_self .., hn⟩
      · exact ⟨j, List.mem_cons_of_mem _ hj, hn⟩
    · rintro ⟨j, hj, hn⟩
      rcases List.mem_cons.1 hj with heq | hj
      · exact Or.inl (by rw [hn, bitOp_inj heq])
      · exact Or.inr ⟨j, hj, hn⟩

theorem sets_union {T : Set (BitVec 64)} {i : Nat} : Sets hashes numLongs (S ∪ T) i ↔
    Sets hashes numLongs S i ∨ Sets hashes numLongs T i := by
  constructor
  · rintro ⟨x, hx | hx, h⟩
    · exact Or.inl ⟨x, hx, h⟩
    · exact Or.inr ⟨x, hx, h⟩
  · rintro (⟨x, hx, h⟩ | ⟨x, hx, h⟩)
    · exact ⟨x, Or.inl hx, h⟩
    · exact ⟨x, Or.inr hx, h⟩

/-- In the states of the kernel the memory has the bits of the operations that were applied. -/
theorem exists_applied (h : Layout hashes numLongs S filter) (hvalid : ValidLongs numLongs)
    {input : List Row} {s : Threads (List Byte) (Nat × BitVec 32)} (hs : PutReaches filter input s) :
    ∃ applied, (applied ++ s.pending.flatten).Perm
        (input.map (putOps hashes (numLongs * 64))).flatten ∧
      s.memory.length = filter.length ∧ ∀ n, bit s.memory n = true ↔ bit filter n = true ∨
        ∃ i, bitOp i ∈ applied ∧ n = 96 + bitPlace i := by
  obtain ⟨start, hstart, hreach⟩ := hs
  rw [h.launchPut hvalid] at hstart
  obtain rfl := Except.ok.inj hstart
  obtain ⟨applied, hperm, hfold⟩ := Threads.exists_perm hreach
  refine ⟨applied, hperm, bits_of_ops h.length (fun op hop => ?_) hfold⟩
  obtain ⟨i, hi, rfl⟩ := (mem_ops hvalid).1 (hperm.subset (List.mem_append_left _ hop))
  exact ⟨i, hi.lt hvalid, rfl⟩

/-- Whatever the order of the atomic operations is, the filter has the bits of the values. -/
theorem layout_put (h : Layout hashes numLongs S filter) (hvalid : ValidLongs numLongs)
    {input : List Row} (hput : BloomFilterPut filter input filter') :
    Layout hashes numLongs (S ∪ inserted input) filter' := by
  obtain ⟨s, hs, hdone, rfl⟩ := hput
  obtain ⟨applied, hperm, hlen, hbits⟩ := exists_applied h hvalid hs
  rw [hdone.flatten, List.append_nil] at hperm
  have hops : ∀ i, bitOp i ∈ applied ↔ Sets hashes numLongs (inserted input) i := by
    intro i
    rw [hperm.mem_iff, mem_ops hvalid]
    exact ⟨fun ⟨j, hj, heq⟩ => bitOp_inj heq ▸ hj, fun hi => ⟨i, hi, rfl⟩⟩
  simp only [hops] at hbits
  apply layout_of_bits
  · rw [hlen, h.length]
  · -- the header keeps its bits
    rw [← h.header]
    refine ext_bit (by rw [List.length_take, List.length_take, hlen]) fun n hn => ?_
    rw [List.length_take] at hn
    have hslice : ∀ buf : List Byte, bit (buf.take 12) n = bit buf n := by
      intro buf
      have h := @bit_slice buf 0 12 n
      rwa [decide_eq_true (by omega), Bool.true_and, Nat.mul_zero, Nat.zero_add] at h
    rw [hslice, hslice, Bool.eq_iff_iff, hbits]
    refine or_iff_left ?_
    rintro ⟨i, -, hi⟩
    omega
  · intro i hi
    rw [hbits, h.bit_iff hi, sets_union]
    refine or_congr_right ⟨?_, fun hi => ⟨i, hi, rfl⟩⟩
    rintro ⟨j, hj, hplace⟩
    rwa [bitPlace_inj.1 (Nat.add_left_cancel hplace)]

end SparkRapids.BloomFilter
