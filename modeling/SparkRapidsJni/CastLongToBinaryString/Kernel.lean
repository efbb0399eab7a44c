import SparkRapidsJni.Cudf.Strings
import SparkRapidsJni.Lib.AsciiNumerals
import SparkRapidsJni.Lib.Threads

/-!
# `cast_long_to_binary_string.cu`

A row has 32 threads, and each of them writes two bits of the number: bit `i` is the character `i` from the
end, as far as the text is long. Where a row has its threads, they write the numeral of the number to base 2
(`map_bitChar_eq`), each character once (`existsUnique_thread`).

The threads to launch are `strings_count * 32`, and this product wraps around from `2 ^ 26` rows on. So the
text of a row is written exactly if there are offsets for all texts, and the threads that are launched include
the row's own (`LongColumn.exact_iff_enoughThreads`).
-/

namespace SparkRapids.CastLongToBinaryString

open PrefixSums Ascii Numerals Cudf

/-! ### The code -/

/-- A column of `INT64`. -/
structure LongColumn where
  element : ℕ → Int64
  isValid : ℕ → Bool
  size : ℕ
  size_lt : size < 2 ^ 31

/-- `grid_1d`: the number of blocks for a number of threads, or none if there is no such grid. -/
structure Grid1d where
  numBlocks : ℤ → ℕ → Option ℕ
  numBlocks_pos : ∀ {n : ℤ} {blockSize : ℕ}, 0 < n → 0 < blockSize →
    numBlocks n blockSize = some ((n.toNat + blockSize - 1) / blockSize)

def blockSize : ℕ := 256

def numThreadsPerRow : ℕ := 32

def numBitsPerThread : ℕ := 64 / numThreadsPerRow

/-- A bit of the value, as a character. -/
def bitChar (value : BitVec 64) (bitIndex : ℕ) : Byte :=
  chr '0' + ((value &&& (1#64 <<< bitIndex)) >>> bitIndex).setWidth 8

section Kernels

variable (input : LongColumn)

/-- `compute_output_size_kernel`, for one thread. -/
def computeOutputSize (tid : ℕ) : ℕ :=
  if !input.isValid tid then 0 else max 1 (64 - (input.element tid).toBitVec.clz.toNat)

/-- `long_to_binary_string_kernel`: what a thread writes, in its order. -/
def writesOf (offsets : ℕ → ℤ) (tid : ℕ) : List (ℤ × Byte) :=
  let rowIdx := tid / numThreadsPerRow
  if input.size ≤ rowIdx then []
  else
    let strLen := offsets (rowIdx + 1) - offsets rowIdx
    if strLen = 0 then []
    else
      let value := (input.element rowIdx).toBitVec
      let laneIdx := tid % numThreadsPerRow
      let firstBitIndex := laneIdx * numBitsPerThread
      let bits : List ℕ := (List.range' firstBitIndex numBitsPerThread).takeWhile fun (bitIndex : ℕ) =>
        decide ((bitIndex : ℤ) < strLen)
      bits.map fun (bitIndex : ℕ) => (offsets rowIdx + (strLen - 1 - bitIndex), bitChar value bitIndex)

/-- The blocks of the second kernel. -/
def newGrid (grid : Grid1d) : Option ℕ :=
  grid.numBlocks (toSizeType (input.size * numThreadsPerRow)) blockSize

/-- The threads of a number of blocks. -/
def threads (numBlocks : ℕ) : List ℕ := List.range (numBlocks * blockSize)

end Kernels

/-- A strings column that may have nulls. -/
structure StringsColumn extends Strings where
  isValid : ℕ → Bool
  size : ℕ

/-- `long_to_binary_string`, which returns a column or throws (`none`). The first kernel has a thread for
each row. The characters may be anything before they are written, and the threads of the second kernel write
in any order. -/
def LongToBinaryString [MakeOffsets] (grid : Grid1d) (input : LongColumn) (result : Option StringsColumn) :
    Prop :=
  if input.size = 0 then
    result = some { chars := fun _ => 0, offsets := fun _ => 0, isValid := input.isValid, size := 0 }
  else
    match MakeOffsets.makeOffsets (fun tid => computeOutputSize input tid) input.size, newGrid input grid with
    | some offsets, some numBlocks => ∃ (chars : ℤ → Byte) (s : Threads (ℤ → Byte) (ℤ × Byte)),
      (Threads.lts Threads.write ⟨chars, if 0 < offsets input.size then
        (threads numBlocks).map (writesOf input offsets) else []⟩).Reachable s ∧ s.Done ∧
      result = some { chars := s.memory, offsets, isValid := input.isValid, size := input.size }
    | _, _ => result = none

/-! ### What should be written -/

/-- The two's complement of a number to base 2, without leading zeros. -/
def binaryText (value : Int64) : List Byte := (writeDigits 2 value.toBitVec.toNat).map figure

namespace LongColumn

variable (grid : Grid1d) (input : LongColumn)

/-- A column comes back. It is null where the input is, and the text of another row is that of its number,
which is read back. Each character is written by one thread. -/
structure Exact [MakeOffsets] : Prop where
  returns : ∃ strings, LongToBinaryString grid input (some strings)
  size : ∀ strings, LongToBinaryString grid input (some strings) → strings.size = input.size
  validity : ∀ strings, LongToBinaryString grid input (some strings) → ∀ k < input.size,
    strings.isValid k = input.isValid k
  text : ∀ strings, LongToBinaryString grid input (some strings) → ∀ k < input.size,
    input.isValid k = true → strings.str k = binaryText (input.element k)
  read : ∀ strings, LongToBinaryString grid input (some strings) → ∀ k < input.size,
    input.isValid k = true →
      (readDigits 2 ((strings.str k).map digit) : ℤ) = (input.element k).toInt % 2 ^ 64
  once : ∀ strings, LongToBinaryString grid input (some strings) →
    ∀ numBlocks, newGrid input grid = some numBlocks → ∀ k < input.size, input.isValid k = true →
    ∀ i < (binaryText (input.element k)).length, ∃! tid, tid ∈ threads numBlocks ∧
      strings.offsets k + i ∈ (writesOf input strings.offsets tid).map Prod.fst

/-- The threads of each row that is not null are launched. -/
def EnoughThreads : Prop := input.size ≠ 0 → ∃ numBlocks, newGrid input grid = some numBlocks ∧
  ∀ k < input.size, input.isValid k = true → (k + 1) * numThreadsPerRow ≤ numBlocks * blockSize

/-- The characters of all texts are few enough for a strings column. -/
def TextsFit : Prop := total (fun k =>
  if input.isValid k then ((binaryText (input.element k)).length : ℤ) else 0) input.size < 2 ^ 31 - 1

end LongColumn

/-! ### The text of a number -/

section Text

variable {v : BitVec 64} {i : ℕ}

theorem bitChar_eq (v : BitVec 64) (hi : i < 64) : bitChar v i = figure (v.toNat / 2 ^ i % 2) := by
  have hbit : v.toNat / 2 ^ i % 2 = (v.getLsbD i).toNat := by
    rw [← BitVec.testBit_toNat, Nat.testBit_eq_decide_div_mod_eq]
    rcases Nat.mod_two_eq_zero_or_one (v.toNat / 2 ^ i) with h | h <;> simp [h]
  have hone : BitVec.twoPow 64 i >>> i = 1#64 := by
    apply BitVec.eq_of_toNat_eq
    rw [BitVec.toNat_ushiftRight, BitVec.toNat_twoPow_of_lt hi, Nat.shiftRight_eq_div_pow,
      Nat.div_self (Nat.two_pow_pos i)]
    rfl
  rw [hbit, bitChar, ← BitVec.twoPow_eq, BitVec.and_twoPow]
  cases v.getLsbD i with
  | true =>
    rw [if_pos rfl, hone]
    rfl
  | false =>
    rw [if_neg Bool.false_ne_true, BitVec.zero_ushiftRight]
    rfl

/-- `max(1, 64 - __clzll(value))` is the number of digits. -/
theorem length_writeDigits (v : BitVec 64) :
    (writeDigits 2 v.toNat).length = max 1 (64 - v.clz.toNat) := by
  by_cases hv : v = 0#64
  · rw [BitVec.clz_eq_iff_eq_zero.mpr hv, hv]
    rfl
  · have hne : v.toNat ≠ 0 := fun h => hv (BitVec.eq_of_toNat_eq h)
    have hle := BitVec.two_pow_sub_clz_le_toNat_of_ne_zero (by norm_num) hv
    have hlt := BitVec.toNat_lt_two_pow_sub_clz (x := v)
    have hclz : v.clz.toNat < 64 := by
      by_contra hge
      rw [Nat.sub_eq_zero_of_le (not_lt.mp hge), pow_zero] at hlt
      omega
    rw [show 64 - v.clz.toNat = 64 - 1 - v.clz.toNat + 1 by omega] at hlt ⊢
    rw [writeDigits_of_pos hne, List.length_reverse, Nat.length_digits 2 _ (by norm_num) hne,
      Nat.log_eq_of_pow_le_of_lt_pow hle hlt]
    omega

theorem length_writeDigits_le (v : BitVec 64) : (writeDigits 2 v.toNat).length ≤ 64 := by
  rw [length_writeDigits]
  omega

/-- The digit `i` from the end. -/
theorem getElem_writeDigits (n : ℕ) {c : ℕ} (hc : c < (writeDigits 2 n).length) :
    (writeDigits 2 n)[c] = n / 2 ^ ((writeDigits 2 n).length - 1 - c) % 2 := by
  by_cases hn : n = 0
  · subst hn
    simp [writeDigits]
  · have hlen : (writeDigits 2 n).length = (Nat.digits 2 n).length := by
      rw [writeDigits_of_pos hn, List.length_reverse]
    simp only [writeDigits_of_pos hn, List.length_reverse, List.getElem_reverse]
    rw [← Nat.getD_digits n _ le_rfl, List.getD_eq_getElem _ _ (by omega)]

/-- The characters of the bits are the numeral, from its first digit on. -/
theorem map_bitChar_eq (v : BitVec 64) : ((List.range (writeDigits 2 v.toNat).length).map fun c =>
    bitChar v ((writeDigits 2 v.toNat).length - 1 - c)) = (writeDigits 2 v.toNat).map figure := by
  refine List.ext_getElem (by simp) fun c hc hc' => ?_
  have hle := length_writeDigits_le v
  rw [List.length_map] at hc'
  rw [List.getElem_map, List.getElem_range, List.getElem_map, getElem_writeDigits _ hc',
    bitChar_eq v (by omega)]

/-- The numeral is read back. -/
theorem readDigits_binaryText (value : Int64) :
    (readDigits 2 ((binaryText value).map digit) : ℤ) = value.toInt % 2 ^ 64 := by
  have hdigits : (binaryText value).map digit = writeDigits 2 value.toBitVec.toNat := by
    rw [binaryText, List.map_map]
    refine (List.map_congr_left fun d hd => ?_).trans (List.map_id _)
    exact digit_figure (lt_of_lt_of_le (writeDigits_lt le_rfl hd) (by norm_num))
  rw [hdigits, readDigits_writeDigits, Int64.toInt, BitVec.toInt_eq_toNat_bmod,
    show (2 ^ 64 : ℤ) = (2 ^ 64 : ℕ) from rfl, Int.bmod_emod]
  exact (Int.emod_eq_of_lt (Int.natCast_nonneg _) (Int.ofNat_lt.mpr value.toBitVec.isLt)).symm

end Text

/-! ### The threads -/

section Launch

variable {input : LongColumn} {grid : Grid1d} {offsets : ℕ → ℤ} {k i tid numBlocks : ℕ}

theorem mem_takeWhile_range' {x first n m : ℕ} :
    x ∈ (List.range' first n).takeWhile (· < m) ↔ first ≤ x ∧ x < first + n ∧ x < m := by
  induction n generalizing first with
  | zero =>
    simp only [List.range'_zero, List.takeWhile_nil, List.not_mem_nil, false_iff]
    omega
  | succ n ih =>
    rw [List.range'_succ, List.takeWhile_cons]
    split_ifs with hlt
    · rw [List.mem_cons, ih]
      rw [decide_eq_true_iff] at hlt
      omega
    · simp only [List.not_mem_nil, false_iff]
      rw [decide_eq_true_iff] at hlt
      omega

variable (input offsets) in
/-- The offsets are the sums of the sizes. -/
def AreOffsets : Prop := ∀ k ≤ input.size, offsets k = exclusiveScan (computeOutputSize input) k

section

variable (hoff : AreOffsets input offsets)
include hoff

/-- What a thread writes: the bits of its row that are its own. -/
theorem mem_writesOf {a : ℤ} {c : Byte} :
    (a, c) ∈ writesOf input offsets tid ↔
    tid / 32 < input.size ∧ ∃ bit < computeOutputSize input (tid / 32), bit / 2 = tid % 32 ∧
      a = (exclusiveScan (computeOutputSize input) (tid / 32) +
        (computeOutputSize input (tid / 32) - 1 - bit) : ℕ) ∧
      c = bitChar (input.element (tid / 32)).toBitVec bit := by
  dsimp only [writesOf]
  have hrows : tid / numThreadsPerRow = tid / 32 := rfl
  have hlanes : tid % numThreadsPerRow * numBitsPerThread = tid % 32 * 2 := rfl
  by_cases hrow : input.size ≤ tid / numThreadsPerRow
  · rw [if_pos hrow]
    simp only [List.not_mem_nil, false_iff]
    omega
  have hlen : offsets (tid / 32 + 1) - offsets (tid / 32) = computeOutputSize input (tid / 32) := by
    rw [hoff _ (by omega), hoff _ (by omega), exclusiveScan_succ]
    omega
  rw [if_neg hrow, hrows, hlanes, hlen]
  by_cases hzero : (computeOutputSize input (tid / 32) : ℤ) = 0
  · rw [if_pos hzero]
    simp only [List.not_mem_nil, false_iff]
    omega
  simp only [if_neg hzero, Nat.cast_lt, List.mem_map, mem_takeWhile_range', Prod.mk.injEq,
    hoff (tid / 32) (by omega)]
  rw [show numBitsPerThread = 2 from rfl]
  constructor
  · rintro ⟨bit, ⟨hfirst, hlast, hbit⟩, rfl, rfl⟩
    exact ⟨by omega, bit, hbit, by omega, by omega, rfl⟩
  · rintro ⟨-, bit, hbit, hlane, rfl, rfl⟩
    exact ⟨bit, ⟨by omega, by omega, hbit⟩, by omega, rfl⟩

/-- The thread and the bit of a character. -/
theorem thread_eq (hk : k < input.size) {c : Byte} (hi : i < computeOutputSize input k)
    (h : (offsets k + i, c) ∈ writesOf input offsets tid) :
    tid = k * 32 + (computeOutputSize input k - 1 - i) / 2 ∧
      c = bitChar (input.element k).toBitVec (computeOutputSize input k - 1 - i) := by
  obtain ⟨-, bit, hbit, hlane, haddress, rfl⟩ := (mem_writesOf hoff).mp h
  rw [hoff k hk.le, ← Nat.cast_add, Nat.cast_inj] at haddress
  obtain ⟨rfl, rfl⟩ := segment_unique hi (by omega) haddress
  have hback : computeOutputSize input (tid / 32) - 1 -
      (computeOutputSize input (tid / 32) - 1 - bit) = bit := by omega
  rw [hback]
  exact ⟨by omega, rfl⟩

omit hoff in
theorem computeOutputSize_le (input : LongColumn) (k : ℕ) : computeOutputSize input k ≤ 64 := by
  unfold computeOutputSize
  split_ifs <;> omega

theorem mem_writesOf_thread (hk : k < input.size) (hi : i < computeOutputSize input k) :
    (offsets k + i, bitChar (input.element k).toBitVec (computeOutputSize input k - 1 - i)) ∈
      writesOf input offsets (k * 32 + (computeOutputSize input k - 1 - i) / 2) := by
  have hle := computeOutputSize_le input k
  have hrow : (k * 32 + (computeOutputSize input k - 1 - i) / 2) / 32 = k := by omega
  rw [mem_writesOf hoff, hrow, hoff k hk.le]
  exact ⟨hk, computeOutputSize input k - 1 - i, by omega, by omega, by omega, rfl⟩

/-- Each character is written by one thread, if the threads of its row are launched. -/
theorem existsUnique_thread (hk : k < input.size) (hi : i < computeOutputSize input k)
    (hthreads : (k + 1) * 32 ≤ numBlocks * blockSize) :
    ∃! tid, tid ∈ threads numBlocks ∧ offsets k + i ∈ (writesOf input offsets tid).map Prod.fst := by
  have hle := computeOutputSize_le input k
  refine ⟨_, ⟨?_, List.mem_map_of_mem (mem_writesOf_thread hoff hk hi)⟩, ?_⟩
  · rw [threads, List.mem_range]
    omega
  · rintro tid ⟨-, hmem⟩
    obtain ⟨⟨a, c⟩, hmem, rfl⟩ := List.mem_map.mp hmem
    exact (thread_eq hoff hk hi hmem).1

end

theorem computeOutputSize_of_valid (hvalid : input.isValid k = true) :
    computeOutputSize input k = (binaryText (input.element k)).length := by
  rw [computeOutputSize, hvalid, binaryText, List.length_map, length_writeDigits]
  rfl

theorem textsFit_iff : input.TextsFit ↔
    total (fun k => computeOutputSize input k) input.size < 2 ^ 31 - 1 := by
  have hsize : ∀ k, (if input.isValid k then ((binaryText (input.element k)).length : ℤ) else 0) =
      computeOutputSize input k := by
    intro k
    cases hvalid : input.isValid k with
    | true => rw [if_pos rfl, computeOutputSize_of_valid hvalid]
    | false => simp [computeOutputSize, hvalid]
  simp only [LongColumn.TextsFit, hsize]

theorem binaryText_eq (hvalid : input.isValid k = true) : binaryText (input.element k) =
    (List.range (computeOutputSize input k)).map fun i =>
      bitChar (input.element k).toBitVec (computeOutputSize input k - 1 - i) := by
  rw [computeOutputSize_of_valid hvalid, binaryText, List.length_map, map_bitChar_eq]

theorem offsets_pos (hoff : AreOffsets input offsets) (hk : k < input.size)
    (hvalid : input.isValid k = true) : 0 < offsets input.size := by
  have hmono := exclusiveScan_mono (computeOutputSize input) (show k + 1 ≤ input.size from hk)
  have hpos : 0 < computeOutputSize input k := by
    rw [computeOutputSize, hvalid]
    exact Nat.lt_of_lt_of_le Nat.one_pos (le_max_left ..)
  rw [exclusiveScan_succ] at hmono
  rw [hoff _ le_rfl]
  omega

/-- The text of a row is in memory when all threads are done. -/
theorem str_of_done (hoff : AreOffsets input offsets) {chars : ℤ → Byte}
    {s : Threads (ℤ → Byte) (ℤ × Byte)} (hk : k < input.size) (hvalid : input.isValid k = true)
    (hthreads : (k + 1) * 32 ≤ numBlocks * blockSize)
    (hreach : (Threads.lts Threads.write
      ⟨chars, (threads numBlocks).map (writesOf input offsets)⟩).Reachable s) (hdone : s.Done) :
    Strings.str ⟨s.memory, offsets⟩ k = binaryText (input.element k) := by
  have hlen : offsets (k + 1) - offsets k = computeOutputSize input k := by
    rw [hoff _ hk, hoff _ hk.le, exclusiveScan_succ]
    omega
  have hmem : ∀ (i : ℕ) c, (offsets k + i, c) ∈ ((threads numBlocks).map (writesOf input offsets)).flatten ↔
      ∃ tid ∈ threads numBlocks, (offsets k + i, c) ∈ writesOf input offsets tid := by
    intro i c
    rw [← List.flatMap_def, List.mem_flatMap]
  have hle := computeOutputSize_le input k
  rw [Strings.str_eq hlen, binaryText_eq hvalid]
  refine List.map_congr_left fun i hi => ?_
  have hi : i < computeOutputSize input k := List.mem_range.mp hi
  refine hdone.memory_eq hreach ((hmem _ _).mpr ⟨_, ?_, mem_writesOf_thread hoff hk hi⟩) fun c hc => ?_
  · rw [threads, List.mem_range]
    omega
  · obtain ⟨tid, -, hwritten⟩ := (hmem _ _).mp hc
    exact (thread_eq hoff hk hi hwritten).2

end Launch

/-! ### The column -/

namespace LongColumn

variable [MakeOffsets] {grid : Grid1d} {input : LongColumn} {offsets : ℕ → ℤ} {numBlocks : ℕ}

theorem areOffsets_of_eq (hmake : MakeOffsets.makeOffsets (fun tid => computeOutputSize input tid)
    input.size = some offsets) : AreOffsets input offsets := fun k hk => by
  rw [MakeOffsets.offsets_eq hmake k hk, total_natCast]

theorem result_iff (hne : input.size ≠ 0)
    (hmake : MakeOffsets.makeOffsets (fun tid => computeOutputSize input tid) input.size = some offsets)
    (hgrid : newGrid input grid = some numBlocks) {result : Option StringsColumn} :
    LongToBinaryString grid input result ↔ ∃ (chars : ℤ → Byte) (s : Threads (ℤ → Byte) (ℤ × Byte)),
      (Threads.lts Threads.write ⟨chars, if 0 < offsets input.size then
        (threads numBlocks).map (writesOf input offsets) else []⟩).Reachable s ∧ s.Done ∧
      result = some { chars := s.memory, offsets, isValid := input.isValid, size := input.size } := by
  rw [LongToBinaryString, if_neg hne, hmake, hgrid]

theorem exact_of_empty (hsize : input.size = 0) : input.Exact grid where
  returns := ⟨_, by rw [LongToBinaryString, if_pos hsize]⟩
  size strings h := by
    rw [LongToBinaryString, if_pos hsize] at h
    rw [Option.some_inj.mp h, hsize]
  validity _ _ k hk := by omega
  text _ _ k hk := by omega
  read _ _ k hk := by omega
  once _ _ _ _ k hk := by omega

theorem exact_of_enoughThreads (hfit : input.TextsFit) (h : input.EnoughThreads grid) :
    input.Exact grid := by
  by_cases hne : input.size = 0
  · exact exact_of_empty hne
  obtain ⟨numBlocks, hgrid, hthreads⟩ := h hne
  obtain ⟨offsets, hmake⟩ := Option.isSome_iff_exists.mp
    ((MakeOffsets.isSome_iff fun k _ => Int.natCast_nonneg _).mpr (textsFit_iff.mp hfit))
  have hoff := areOffsets_of_eq hmake
  have hresult : ∀ strings, LongToBinaryString grid input (some strings) →
      strings.offsets = offsets ∧ strings.size = input.size ∧ strings.isValid = input.isValid ∧
      ∀ k < input.size, input.isValid k = true → strings.str k = binaryText (input.element k) := by
    intro strings hresult
    obtain ⟨chars, s, hreach, hdone, heq⟩ := (result_iff hne hmake hgrid).mp hresult
    rw [Option.some_inj.mp heq]
    refine ⟨rfl, rfl, rfl, fun k hk hvalid => ?_⟩
    rw [if_pos (offsets_pos hoff hk hvalid)] at hreach
    exact str_of_done hoff hk hvalid (hthreads k hk hvalid) hreach hdone
  refine
    { returns := ?_
      size := fun strings h => (hresult strings h).2.1
      validity := fun strings h k _ => by rw [(hresult strings h).2.2.1]
      text := fun strings h => (hresult strings h).2.2.2
      read := fun strings h k hk hvalid => ?_
      once := fun strings h numBlocks' hgrid' k hk hvalid i hi => ?_ }
  · obtain ⟨s, hreach, hdone⟩ := @Threads.exists_done_of_total _ _ Threads.write
      ⟨fun _ => (0 : Byte), if 0 < offsets input.size then
        (threads numBlocks).map (writesOf input offsets) else []⟩ fun _ _ => ⟨_, rfl⟩
    exact ⟨_, (result_iff hne hmake hgrid).mpr ⟨_, s, hreach, hdone, rfl⟩⟩
  · rw [(hresult strings h).2.2.2 k hk hvalid]
    exact readDigits_binaryText _
  · obtain rfl := Option.some_inj.mp (hgrid.symm.trans hgrid')
    rw [← computeOutputSize_of_valid hvalid] at hi
    rw [(hresult strings h).1]
    exact existsUnique_thread hoff hk hi (hthreads k hk hvalid)

/-- There are offsets, since a column comes back, and the first character of a row is written by one of its
own threads. -/
theorem enoughThreads_of_exact (h : input.Exact grid) : input.TextsFit ∧ input.EnoughThreads grid := by
  by_cases hne : input.size = 0
  · refine ⟨?_, fun h => absurd hne h⟩
    rw [TextsFit, hne, total, Finset.sum_range_zero]
    norm_num
  obtain ⟨strings, hresult⟩ := h.returns
  cases hmake : MakeOffsets.makeOffsets (fun tid => (computeOutputSize input tid : ℤ)) input.size with
  | none =>
    rw [LongToBinaryString, if_neg hne, hmake] at hresult
    exact absurd hresult (Option.some_ne_none _)
  | some offsets =>
    have hoff := areOffsets_of_eq hmake
    refine ⟨textsFit_iff.mpr ((MakeOffsets.isSome_iff fun k _ => Int.natCast_nonneg _).mp
      (hmake ▸ rfl)), fun _ => ?_⟩
    cases hgrid : newGrid input grid with
    | none =>
      rw [LongToBinaryString, if_neg hne, hmake, hgrid] at hresult
      exact absurd hresult (Option.some_ne_none _)
    | some numBlocks =>
      refine ⟨numBlocks, rfl, fun k hk hvalid => ?_⟩
      have hpos : 0 < (binaryText (input.element k)).length := by
        rw [binaryText, List.length_map]
        exact List.length_pos_of_ne_nil (writeDigits_ne_nil 2 _)
      obtain ⟨tid, ⟨hlaunched, hmem⟩, -⟩ := h.once strings hresult numBlocks hgrid k hk hvalid 0 hpos
      obtain ⟨_, _, -, -, heq⟩ := (result_iff hne hmake hgrid).mp hresult
      rw [Option.some_inj.mp heq] at hmem
      obtain ⟨⟨a, c⟩, hmem, rfl⟩ := List.mem_map.mp hmem
      rw [← computeOutputSize_of_valid hvalid] at hpos
      have htid := (thread_eq hoff hk hpos hmem).1
      have hlt := List.mem_range.mp hlaunched
      have hle := computeOutputSize_le input k
      rw [numThreadsPerRow]
      rw [blockSize] at hlt ⊢
      omega

/-- The texts are written exactly where they fit into a column and the threads of the rows are launched. -/
theorem exact_iff_enoughThreads (grid : Grid1d) (input : LongColumn) :
    input.Exact grid ↔ input.TextsFit ∧ input.EnoughThreads grid :=
  ⟨enoughThreads_of_exact, fun h => exact_of_enoughThreads h.1 h.2⟩

end LongColumn

/-- As many blocks as the threads need. -/
def ceilGrid : Grid1d where
  numBlocks n blockSize := if 0 < n then some ((n.toNat + blockSize - 1) / blockSize) else none
  numBlocks_pos hn _ := if_pos hn

/-- A column of zeros. -/
def zeros (size : ℕ) (hsize : size < 2 ^ 31) : LongColumn where
  element _ := 0
  isValid _ := true
  size := size
  size_lt := hsize

/-- For `2 ^ 27 + 1` rows, the number of threads wraps around to 32, and eight rows are written. -/
theorem not_exact_zeros : ¬ (zeros (2 ^ 27 + 1) (by norm_num)).Exact ceilGrid := by
  intro h
  obtain ⟨numBlocks, hgrid, hthreads⟩ := (LongColumn.enoughThreads_of_exact h).2 (by norm_num [zeros])
  have hone : newGrid (zeros (2 ^ 27 + 1) (by norm_num)) ceilGrid = some 1 := by decide
  obtain rfl := Option.some_inj.mp (hone.symm.trans hgrid)
  have hlast := hthreads (2 ^ 27) (Nat.lt_succ_self _) rfl
  rw [numThreadsPerRow, blockSize] at hlast
  omega

end SparkRapids.CastLongToBinaryString
