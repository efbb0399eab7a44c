import SparkRapidsJni.RowConversion.StringRows
import SparkRapidsJni.RowConversion.ValidityTiles

/-!
# `row_conversion.cu`: `copy_validity_to_rows` and `copy_validity_from_rows`

In a column, the validity of 32 rows is a word of the null mask; in a row, the validity of 8 columns is
a byte. A block turns its tile over in sections. The lanes of a warp read the words (or the bytes) of a
section, and for each bit they hold a ballot, which is a word of the other form: that one is stored in
shared memory. From there the tile is copied to where it belongs.

What the stores leave at a position of the shared memory depends on the position only, and so does what
the copies leave in the output, so it is the same in every order (`Determined.memory_eq`).
-/

namespace SparkRapids.RowConversion

open PrefixSums Bytes Threads

/-! ### Warps -/

/-- `__ballot_sync`: the lanes of the mask for which the predicate is not zero. -/
def ballotSync (mask : BitVec 32) (predicate : ℕ → BitVec 32) : BitVec 32 :=
  BitVec.ofFnLE fun lane => mask.getLsbD lane && decide (predicate lane ≠ 0)

/-- The ballot of a full warp. -/
def participationMask (participating : ℕ → Bool) : BitVec 32 :=
  ballotSync (BitVec.allOnes 32) fun lane => if participating lane then 1 else 0

/-- `warp.meta_group_size()` -/
def metaGroupSize : ℕ := 1024 / warpSize

/-- What the warps of a block do: each takes every `metaGroupSize`-th turn, from its rank on. -/
def inWarps {α : Type} (turns : ℕ) (body : ℕ → List α) : List α :=
  (List.range metaGroupSize).flatMap fun metaGroupRank =>
    (List.range' metaGroupRank (divRoundingUp (turns - metaGroupRank) metaGroupSize)
      metaGroupSize).flatMap body

theorem getLsbD_ballotSync {mask : BitVec 32} {predicate : ℕ → BitVec 32} {lane : ℕ} (hlane : lane < 32) :
    (ballotSync mask predicate).getLsbD lane = (mask.getLsbD lane && decide (predicate lane ≠ 0)) := by
  unfold ballotSync
  rw [BitVec.getLsbD_ofFnLE, dif_pos hlane]

theorem getLsbD_participationMask {participating : ℕ → Bool} {lane : ℕ} (hlane : lane < 32) :
    (participationMask participating).getLsbD lane = participating lane := by
  unfold participationMask
  rw [getLsbD_ballotSync hlane, BitVec.getLsbD_allOnes, decide_eq_true hlane, Bool.true_and]
  cases participating lane with
  | true => rfl
  | false => rfl

/-- A mask of one bit asks for that bit. -/
theorem and_twoPow_ne_zero {x : BitVec 32} {i : ℕ} (hi : i < 32) :
    decide (x &&& BitVec.twoPow 32 i ≠ 0) = x.getLsbD i := by
  have hne : BitVec.twoPow 32 i ≠ 0 := fun hzero => by
    have hbit := congrArg (fun v => v.getLsbD i) hzero
    simp [hi] at hbit
  rw [BitVec.and_twoPow]
  cases x.getLsbD i with
  | false => rfl
  | true => exact decide_eq_true hne

/-- Every turn is taken by a warp. -/
theorem mem_inWarps {α : Type} {turns : ℕ} {body : ℕ → List α} {x : α} :
    x ∈ inWarps turns body ↔ ∃ i < turns, x ∈ body i := by
  have hsize : 0 < metaGroupSize := by decide
  unfold inWarps divRoundingUp
  simp only [List.mem_flatMap, List.mem_range, List.mem_range']
  constructor
  · rintro ⟨rank, -, _, ⟨turn, hturn, rfl⟩, hx⟩
    refine ⟨rank + metaGroupSize * turn, ?_, hx⟩
    rw [Nat.lt_div_iff_mul_lt hsize, Nat.mul_comm] at hturn
    omega
  · rintro ⟨i, hi, hx⟩
    have hdiv := Nat.div_add_mod i metaGroupSize
    refine ⟨i % metaGroupSize, Nat.mod_lt _ hsize, i, ⟨i / metaGroupSize, ?_, by omega⟩, hx⟩
    rw [Nat.lt_div_iff_mul_lt hsize, Nat.mul_comm]
    omega

/-! ### The halves of a kernel -/

/-- A word that is stored in the shared memory, and where. -/
abbrev WordStore := ℕ × BitVec 32

/-- The bytes of a stored word. -/
def storeBytes (store : WordStore) : List (ℕ × Byte) :=
  (List.range 4).map fun i => (store.1 + i, (wordBytes store.2).getD i 0)

/-- A `memcpy_async` from the shared memory, into a buffer of the output. -/
structure SharedCopy where
  buffer : ℕ
  dst : ℕ
  src : ℕ
  bytes : ℕ

/-- The bytes that a copy writes. -/
def SharedCopy.writes (shared : ℕ → Byte) (copy : SharedCopy) : List (Address × Byte) :=
  (List.range copy.bytes).map fun i => ((copy.buffer, copy.dst + i), shared (copy.src + i))

/-- What the block of a tile stores in its shared memory, and what it then copies from there. -/
structure TileKernel where
  stores : TileInfo → List WordStore
  copies : TileInfo → List SharedCopy

namespace TileKernel

variable (kernel : TileKernel) (tiles : List TileInfo)

/-- The accesses of shared memory are inside the limit, and words are stored where words start. -/
structure Within (limit : ℕ) : Prop where
  stores : ∀ tile ∈ tiles, ∀ store ∈ kernel.stores tile, 4 ∣ store.1 ∧ store.1 + 4 ≤ limit
  copies : ∀ tile ∈ tiles, ∀ copy ∈ kernel.copies tile, copy.src + copy.bytes ≤ limit

/-- A run of the kernel ends with `result` in the place of `output`: every block stores, in some order, and
when all of it is stored, its copies are made. -/
def Outcome (output result : Address → Byte) : Prop :=
  ∃ garbage shared : TileInfo → ℕ → Byte,
    (∀ tile ∈ tiles, ∃ s, (lts write (anyOrder (garbage tile)
      ((kernel.stores tile).flatMap storeBytes))).Reachable s ∧ s.Done ∧ s.memory = shared tile) ∧
    ∃ s, (lts write (anyOrder output (tiles.flatMap fun tile =>
      (kernel.copies tile).flatMap (SharedCopy.writes (shared tile))))).Reachable s ∧ s.Done ∧
      s.memory = result

end TileKernel

section Halves

variable {kernel : TileKernel} {tiles : List TileInfo} {output result : Address → Byte} {p : ℕ} {v : Byte}
  {store : WordStore} {copy : SharedCopy}

/-- A stored byte has the bits of its word. -/
theorem mem_storeBytes (h : (p, v) ∈ storeBytes store) : ∃ i < 4, p = store.1 + i ∧
    ∀ j < 8, v.getLsbD j = store.2.getLsbD (8 * i + j) := by
  obtain ⟨i, hi, heq⟩ := List.mem_map.1 h
  obtain ⟨rfl, rfl⟩ := Prod.mk.inj heq
  rw [List.mem_range] at hi
  refine ⟨i, hi, rfl, fun j hj => ?_⟩
  have hdiv : (8 * i + j) / 8 = i := by omega
  have hmod : (8 * i + j) % 8 = j := by omega
  rw [← bit_wordBytes store.2 (show 8 * i + j < 32 by omega)]
  unfold bit
  rw [hdiv, hmod]

/-- What is at a position of the shared memory, where everything that is stored there is `value`. -/
theorem shared_eq_value {garbage : ℕ → Byte} {s : Threads (ℕ → Byte) (ℕ × Byte)} {stores : List WordStore}
    {value : ℕ → Byte} (hrun : (lts write (anyOrder garbage (stores.flatMap storeBytes))).Reachable s)
    (hdone : s.Done) (hvalue : ∀ store ∈ stores, ∀ p v, (p, v) ∈ storeBytes store → v = value p)
    (hstore : store ∈ stores) {i : ℕ} (hi : i < 4) :
    s.memory (store.1 + i) = value (store.1 + i) := by
  have hmem : (store.1 + i, (wordBytes store.2).getD i 0) ∈ storeBytes store :=
    List.mem_map.2 ⟨i, List.mem_range.2 hi, rfl⟩
  refine hdone.memory_eq hrun ?_ fun v hv => ?_
  · rw [flatten_anyOrder, ← hvalue store hstore _ _ hmem]
    exact List.mem_flatMap.2 ⟨store, hstore, hmem⟩
  · rw [flatten_anyOrder] at hv
    obtain ⟨store', hstore', hv⟩ := List.mem_flatMap.1 hv
    exact hvalue store' hstore' _ _ hv

theorem mem_writes {shared : ℕ → Byte} {a : Address} : (a, v) ∈ copy.writes shared ↔
    ∃ i < copy.bytes, a = (copy.buffer, copy.dst + i) ∧ v = shared (copy.src + i) := by
  unfold SharedCopy.writes
  rw [List.mem_map]
  constructor
  · rintro ⟨i, hi, heq⟩
    obtain ⟨rfl, rfl⟩ := Prod.mk.inj heq
    exact ⟨i, List.mem_range.1 hi, rfl, rfl⟩
  · rintro ⟨i, hi, rfl, rfl⟩
    exact ⟨i, List.mem_range.2 hi, rfl⟩

/-- What the stores leave depends on the position only, and every byte that is copied was stored. -/
structure Determined (kernel : TileKernel) (tiles : List TileInfo) (value : TileInfo → ℕ → Byte) : Prop where
  stored : ∀ tile ∈ tiles, ∀ store ∈ kernel.stores tile, ∀ p v, (p, v) ∈ storeBytes store →
    v = value tile p
  covered : ∀ tile ∈ tiles, ∀ copy ∈ kernel.copies tile, ∀ i < copy.bytes,
    ∃ store ∈ kernel.stores tile, ∃ j < 4, copy.src + i = store.1 + j

variable {value : TileInfo → ℕ → Byte}

/-- Where all copies have one value for a place of the output, it is there at the end. -/
theorem Determined.memory_eq (h : Determined kernel tiles value)
    (hrun : kernel.Outcome tiles output result) {tile : TileInfo} (htile : tile ∈ tiles)
    (hcopy : copy ∈ kernel.copies tile) {i : ℕ} (hi : i < copy.bytes)
    (huniq : ∀ tile' ∈ tiles, ∀ copy' ∈ kernel.copies tile', ∀ i' < copy'.bytes,
      (copy'.buffer, copy'.dst + i') = (copy.buffer, copy.dst + i) →
        value tile' (copy'.src + i') = value tile (copy.src + i)) :
    result (copy.buffer, copy.dst + i) = value tile (copy.src + i) := by
  obtain ⟨garbage, shared, hshared, s, hs, hdone, rfl⟩ := hrun
  -- what is copied is the value
  have hvalue : ∀ tile ∈ tiles, ∀ copy ∈ kernel.copies tile, ∀ i < copy.bytes,
      shared tile (copy.src + i) = value tile (copy.src + i) := by
    intro tile htile copy hcopy i hi
    obtain ⟨s', hrun', hdone', hmemory⟩ := hshared tile htile
    obtain ⟨store, hstore, j, hj, hposition⟩ := h.covered tile htile copy hcopy i hi
    rw [← hmemory, hposition]
    exact shared_eq_value hrun' hdone' (h.stored tile htile) hstore hj
  refine hdone.memory_eq hs ?_ fun v hv => ?_
  · rw [flatten_anyOrder, ← hvalue tile htile copy hcopy i hi]
    exact List.mem_flatMap.2 ⟨tile, htile, List.mem_flatMap.2 ⟨copy, hcopy,
      mem_writes.2 ⟨i, hi, rfl, rfl⟩⟩⟩
  · rw [flatten_anyOrder] at hv
    obtain ⟨tile', htile', hv⟩ := List.mem_flatMap.1 hv
    obtain ⟨copy', hcopy', hv⟩ := List.mem_flatMap.1 hv
    obtain ⟨i', hi', ha, rfl⟩ := mem_writes.1 hv
    rw [hvalue tile' htile' copy' hcopy' i' hi']
    exact huniq tile' htile' copy' hcopy' i' hi' ha.symm

/-- A place that no copy has stays as it was. -/
theorem memory_of_no_copy (hrun : kernel.Outcome tiles output result) {a : Address}
    (hnone : ∀ tile ∈ tiles, ∀ copy ∈ kernel.copies tile, ∀ i < copy.bytes,
      a ≠ (copy.buffer, copy.dst + i)) : result a = output a := by
  obtain ⟨garbage, shared, -, s, hs, hdone, rfl⟩ := hrun
  refine hdone.memory_of_not_mem hs fun v hv => ?_
  rw [flatten_anyOrder] at hv
  obtain ⟨tile, htile, hv⟩ := List.mem_flatMap.1 hv
  obtain ⟨copy, hcopy, hv⟩ := List.mem_flatMap.1 hv
  obtain ⟨i, hi, ha, -⟩ := mem_writes.1 hv
  exact hnone tile htile copy hcopy i hi ha

end Halves

/-- The section of a number is in one of so many columns of sections, and one of so many rows. -/
theorem section_lt {idx nx ny : ℕ} (h : idx < nx * ny) : idx % nx < nx ∧ idx / nx < ny := by
  have hpos : 0 < nx := Nat.pos_of_ne_zero fun hzero => by
    rw [hzero, Nat.zero_mul] at h
    exact absurd h (Nat.not_lt_zero _)
  exact ⟨Nat.mod_lt _ hpos, Nat.div_lt_of_lt_mul h⟩

/-- And every such section has a number. -/
theorem exists_section {x y nx ny : ℕ} (hx : x < nx) (hy : y < ny) :
    ∃ idx < nx * ny, idx % nx = x ∧ idx / nx = y := by
  have hpos : 0 < nx := by omega
  refine ⟨nx * y + x, ?_, ?_, ?_⟩
  · have hmul := Nat.mul_le_mul_left nx hy
    rw [Nat.mul_succ] at hmul
    omega
  · rw [Nat.mul_add_mod, Nat.mod_eq_of_lt hx]
  · rw [Nat.mul_add_div hpos, Nat.div_eq_of_lt hx, Nat.add_zero]

/-! ### `copy_validity_to_rows` -/

section ToRows

/-- The validity of a cell: where a column has no null mask, all its rows are valid. -/
def isValid (inputNm : ℕ → Option (List (BitVec 32))) (row col : ℕ) : Bool :=
  match inputNm col with
  | some words => (words.getD (row / 32) 0).getLsbD (row % 32)
  | none => true

section Code

variable (numRows numColumns : ℕ) (rowOffsets : RowOffsetFunctor) (batchRowBoundaries : List ℕ)
  (validityOffset : ℕ) (inputNm : ℕ → Option (List (BitVec 32)))

/-- `validity_data_row_length` -/
def validityDataRowLength (tile : TileInfo) : ℕ :=
  roundUp (divRoundingUp tile.numCols 8) jcudfRowAlignment

/-- What the lead thread of a warp stores of a section. -/
def toRowsSection (tile : TileInfo) (mySectionIdx : ℕ) : List WordStore :=
  let numSectionsX := divRoundingUp tile.numCols warpSize
  let sectionX := mySectionIdx % numSectionsX
  let sectionY := mySectionIdx / numSectionsX
  let relativeCol lane := sectionX * warpSize + lane
  let relativeRow := sectionY * 32
  let absoluteCol lane := relativeCol lane + tile.startCol
  let absoluteRow := relativeRow + tile.startRow
  let participating lane := decide (absoluteCol lane < numColumns ∧ absoluteRow < numRows)
  let myData lane := match inputNm (absoluteCol lane) with
    | some words => words.getD (absoluteRow / 32) 0
    | none => BitVec.allOnes 32
  if participating 0 then
    (List.range (min warpSize (numRows - relativeRow))).map fun i =>
      (validityDataRowLength tile * (relativeRow + i) + relativeCol 0 / 8,
        ballotSync (participationMask participating) fun lane => myData lane &&& BitVec.twoPow 32 i)
  else []

/-- `copy_validity_to_rows` -/
def copyValidityToRows : TileKernel where
  stores tile := inWarps (divRoundingUp tile.numCols warpSize * divRoundingUp tile.numRows 32)
    (toRowsSection numRows numColumns inputNm tile)
  copies tile := inWarps tile.numRows fun relativeRow =>
    [{ buffer := tile.batchNumber
       dst := validityOffset + tile.startCol / 8 + rowOffsets (relativeRow + tile.startRow)
         (rowBatchStart batchRowBoundaries tile.batchNumber)
       src := validityDataRowLength tile * relativeRow
       bytes := divRoundingUp tile.numCols 8 }]

/-- The validity of eight columns in a row: the columns behind the last one are not valid. -/
def validityByte (row b : ℕ) : Byte :=
  BitVec.ofFnLE fun j => decide (8 * b + j < numColumns) && isValid inputNm row (8 * b + j)

/-- What the shared memory has at a position. -/
def rowsValue (tile : TileInfo) (p : ℕ) : Byte :=
  validityByte numColumns inputNm (tile.startRow + p / validityDataRowLength tile)
    (tile.startCol / 8 + p % validityDataRowLength tile)

end Code

variable {numRows numColumns limit : ℕ} {counts : List ℕ} {inputNm : ℕ → Option (List (BitVec 32))}
  {tile : TileInfo}

theorem getLsbD_validityByte {row b j : ℕ} (hj : j < 8) :
    (validityByte numColumns inputNm row b).getLsbD j =
      (decide (8 * b + j < numColumns) && isValid inputNm row (8 * b + j)) := by
  unfold validityByte
  rw [BitVec.getLsbD_ofFnLE, dif_pos hj]

/-- A word of a section has a row's validity of 32 columns. -/
theorem mem_toRowsSection (htile : ValidityTile numColumns limit counts tile) {idx : ℕ}
    {store : WordStore}
    (h : store ∈ toRowsSection counts.sum numColumns inputNm tile idx) :
    ∃ i < 32, store.1 = validityDataRowLength tile *
        (32 * (idx / divRoundingUp tile.numCols warpSize) + i) +
          4 * (idx % divRoundingUp tile.numCols warpSize) ∧
      ∀ lane < 32, store.2.getLsbD lane =
        (decide (tile.startCol + 32 * (idx % divRoundingUp tile.numCols warpSize) + lane < numColumns) &&
          isValid inputNm (tile.startRow + (32 * (idx / divRoundingUp tile.numCols warpSize) + i))
            (tile.startCol + 32 * (idx % divRoundingUp tile.numCols warpSize) + lane)) := by
  have hrowDvd := htile.startRow_dvd
  unfold toRowsSection at h
  unfold warpSize at *
  dsimp only at h
  generalize idx % divRoundingUp tile.numCols 32 = x at *
  generalize idx / divRoundingUp tile.numCols 32 = y at *
  split_ifs at h with hlead
  · rw [decide_eq_true_eq] at hlead
    -- the leader of a warp stores row `i` of the section
    obtain ⟨i, hi, rfl⟩ := List.mem_map.1 h
    rw [List.mem_range] at hi
    have hi' : i < 32 := by omega
    refine ⟨i, hi', ?_, fun lane hlane => ?_⟩
    · have hbyte : (x * 32 + 0) / 8 = 4 * x := by omega
      dsimp only
      rw [Nat.mul_comm y, hbyte]
    · have hcol : x * 32 + lane + tile.startCol = tile.startCol + 32 * x + lane := by omega
      have hdiv : (tile.startRow + (32 * y + i)) / 32 = (y * 32 + tile.startRow) / 32 := by omega
      have hmod : (tile.startRow + (32 * y + i)) % 32 = i := by omega
      dsimp only
      rw [getLsbD_ballotSync hlane, getLsbD_participationMask hlane, and_twoPow_ne_zero hi',
        Bool.decide_and, decide_eq_true hlead.2, Bool.and_true, hcol]
      unfold isValid
      rw [hdiv, hmod]
      cases inputNm (tile.startCol + 32 * x + lane) with
      | some words => rfl
      | none => rw [BitVec.getLsbD_allOnes, decide_eq_true hi']
  · exact absurd h List.not_mem_nil

/-- And where the lead thread has a cell of the table, there is a word for each row. -/
theorem exists_mem_toRowsSection {idx i : ℕ}
    (hcol : tile.startCol + 32 * (idx % divRoundingUp tile.numCols warpSize) < numColumns)
    (hrow : tile.startRow + 32 * (idx / divRoundingUp tile.numCols warpSize) < numRows) (hi : i < 32)
    (hrow' : 32 * (idx / divRoundingUp tile.numCols warpSize) + i < numRows) :
    ∃ store ∈ toRowsSection numRows numColumns inputNm tile idx,
      store.1 = validityDataRowLength tile *
        (32 * (idx / divRoundingUp tile.numCols warpSize) + i) +
          4 * (idx % divRoundingUp tile.numCols warpSize) := by
  unfold toRowsSection
  unfold warpSize at *
  dsimp only
  generalize idx % divRoundingUp tile.numCols 32 = x at *
  generalize idx / divRoundingUp tile.numCols 32 = y at *
  have hbyte : (x * 32 + 0) / 8 = 4 * x := by omega
  rw [if_pos (decide_eq_true (by omega))]
  refine ⟨_, List.mem_map.2 ⟨i, List.mem_range.2 (by omega), rfl⟩, ?_⟩
  dsimp only
  rw [Nat.mul_comm y, hbyte]

/-- A section has room in the rows of the tile. -/
theorem section_le_rowLength {x : ℕ} (hx : x < divRoundingUp tile.numCols warpSize) :
    4 * x + 4 ≤ validityDataRowLength tile := by
  have hdvd : 8 ∣ validityDataRowLength tile := dvd_roundUp _ _
  have hle : divRoundingUp tile.numCols 8 ≤ validityDataRowLength tile := le_roundUp (by decide)
  unfold divRoundingUp at hx hle
  unfold warpSize at hx
  omega

/-- And the rows of a tile have room in the shared memory. -/
theorem rowLength_mul_le (htile : ValidityTile numColumns limit counts tile) {rows : ℕ}
    (hrows : rows ≤ fittingRows numColumns limit) : validityDataRowLength tile * rows ≤ limit := by
  have hlen : validityDataRowLength tile ≤ bytesPerRow (columnStride numColumns limit) := by
    refine roundUp_mono (by decide) ?_
    unfold divRoundingUp
    exact Nat.div_le_div_right (by have hle := htile.numCols_le; omega)
  rw [Nat.mul_comm]
  exact Nat.le_trans (Nat.mul_le_mul hrows hlen) (fittingRows_mul_le numColumns limit)

section Kernel

variable {rowOffsets : RowOffsetFunctor} {batchRowBoundaries : List ℕ} {validityOffset : ℕ}
  {tiles : List TileInfo}

/-- What is stored at a position. -/
theorem determined_toRows (htiles : ∀ tile ∈ tiles, ValidityTile numColumns limit counts tile) :
    Determined (copyValidityToRows counts.sum numColumns rowOffsets batchRowBoundaries validityOffset
      inputNm) tiles (rowsValue numColumns inputNm) := by
  constructor
  · intro tile htile store hstore p v hv
    have hcolDvd := (htiles tile htile).startCol_dvd
    obtain ⟨idx, hidx, hstore⟩ := mem_inWarps.1 hstore
    obtain ⟨i, -, hoffset, hbits⟩ := mem_toRowsSection (htiles tile htile) hstore
    obtain ⟨k, hk, hposition, hbyte⟩ := mem_storeBytes hv
    have hroom := section_le_rowLength (section_lt hidx).1
    generalize idx % divRoundingUp tile.numCols warpSize = x at *
    generalize idx / divRoundingUp tile.numCols warpSize = y at *
    rw [hoffset, Nat.add_assoc] at hposition
    -- the row and the byte in it, by the position
    have hdiv : p / validityDataRowLength tile = 32 * y + i := by
      rw [hposition, Nat.mul_add_div (by omega), Nat.div_eq_of_lt (by omega), Nat.add_zero]
    have hmod : p % validityDataRowLength tile = 4 * x + k := by
      rw [hposition, Nat.mul_add_mod, Nat.mod_eq_of_lt (by omega)]
    refine BitVec.eq_of_getLsbD_eq fun j hj => ?_
    have hcol : 8 * (tile.startCol / 8 + (4 * x + k)) + j = tile.startCol + 32 * x + (8 * k + j) := by
      omega
    unfold rowsValue
    rw [hbyte j hj, hbits (8 * k + j) (by omega), getLsbD_validityByte hj, hdiv, hmod, hcol]
  · intro tile htile copy hcopy i hi
    have hcols := (htiles tile htile).cols
    have hendCol := (htiles tile htile).endCol_lt
    have hrows := (htiles tile htile).rows
    have hendRow := row_lt_sum (htiles tile htile).batch_lt (htiles tile htile).endRow_lt
    obtain ⟨r, hr, hcopy⟩ := mem_inWarps.1 hcopy
    obtain rfl := List.mem_singleton.1 hcopy
    dsimp only at hi ⊢
    unfold divRoundingUp at hi
    have hx : i / 4 < divRoundingUp tile.numCols warpSize := by
      unfold divRoundingUp warpSize
      omega
    have hy : r / 32 < divRoundingUp tile.numRows 32 := by
      unfold divRoundingUp
      omega
    -- the section that has the byte
    obtain ⟨idx, hidx, hmod, hdiv⟩ := exists_section hx hy
    unfold TileInfo.numCols at hi
    unfold TileInfo.numRows at hr
    obtain ⟨store, hstore, hoffset⟩ := @exists_mem_toRowsSection counts.sum numColumns inputNm tile idx
      (r % 32) (by rw [hmod]; omega) (by rw [hdiv]; omega) (Nat.mod_lt _ (by decide))
      (by rw [hdiv]; omega)
    refine ⟨store, mem_inWarps.2 ⟨idx, hidx, hstore⟩, i % 4, Nat.mod_lt _ (by decide), ?_⟩
    rw [hoffset, hmod, hdiv, Nat.div_add_mod, Nat.add_assoc, Nat.div_add_mod]

theorem within_toRows (htiles : ∀ tile ∈ tiles, ValidityTile numColumns limit counts tile) :
    (copyValidityToRows counts.sum numColumns rowOffsets batchRowBoundaries validityOffset
      inputNm).Within tiles limit := by
  constructor
  · intro tile htile store hstore
    have hrows := (htiles tile htile).numRows_le
    have hfits := dvd_fittingRows numColumns limit
    have hdvd : 8 ∣ validityDataRowLength tile := dvd_roundUp _ _
    obtain ⟨idx, hidx, hstore⟩ := mem_inWarps.1 hstore
    obtain ⟨i, hi, hoffset, -⟩ := mem_toRowsSection (htiles tile htile) hstore
    obtain ⟨hx, hy⟩ := section_lt hidx
    have hroom := section_le_rowLength hx
    generalize idx % divRoundingUp tile.numCols warpSize = x at *
    generalize idx / divRoundingUp tile.numCols warpSize = y at *
    rw [hoffset]
    constructor
    · exact Nat.dvd_add (Dvd.dvd.mul_right (Nat.dvd_trans (by decide) hdvd) _) (Nat.dvd_mul_right 4 x)
    · unfold divRoundingUp at hy
      have hmul := rowLength_mul_le (htiles tile htile) (show 32 * y + i + 1 ≤ _ by omega)
      rw [Nat.mul_succ] at hmul
      omega
  · intro tile htile copy hcopy
    have hrows := (htiles tile htile).numRows_le
    have hle : divRoundingUp tile.numCols 8 ≤ validityDataRowLength tile := le_roundUp (by decide)
    obtain ⟨r, hr, hcopy⟩ := mem_inWarps.1 hcopy
    obtain rfl := List.mem_singleton.1 hcopy
    have hmul := rowLength_mul_le (htiles tile htile) (show r + 1 ≤ _ by omega)
    rw [Nat.mul_succ] at hmul
    dsimp only
    omega

/-- A copy has a row of the tile, and what it copies is the row's validity. -/
theorem toRows_copy (htile : ValidityTile numColumns limit counts tile) {copy : SharedCopy}
    (hcopy : copy ∈ (copyValidityToRows counts.sum numColumns rowOffsets batchRowBoundaries
      validityOffset inputNm).copies tile) :
    ∃ row, tile.startRow ≤ row ∧ row ≤ tile.endRow ∧ copy.buffer = tile.batchNumber ∧
      ∀ i < copy.bytes, tile.startCol / 8 + i < divRoundingUp numColumns 8 ∧
        copy.dst + i = rowOffsets row (rowBatchStart batchRowBoundaries tile.batchNumber) +
          validityOffset + (tile.startCol / 8 + i) ∧
        rowsValue numColumns inputNm tile (copy.src + i) =
          validityByte numColumns inputNm row (tile.startCol / 8 + i) := by
  have hcolDvd := htile.startCol_dvd
  have hcols := htile.cols
  have hend := htile.endCol_lt
  have hrows := htile.rows
  obtain ⟨r, hr, hcopy⟩ := mem_inWarps.1 hcopy
  obtain rfl := List.mem_singleton.1 hcopy
  unfold TileInfo.numRows at hr
  refine ⟨tile.startRow + r, by omega, by omega, rfl, fun i hi => ?_⟩
  have hlen : i < validityDataRowLength tile := Nat.lt_of_lt_of_le hi (le_roundUp (by decide))
  dsimp only at hi ⊢
  refine ⟨?_, ?_, ?_⟩
  · unfold divRoundingUp TileInfo.numCols at hi
    unfold divRoundingUp
    omega
  · rw [Nat.add_comm r]
    omega
  · unfold rowsValue
    rw [Nat.mul_add_div (by omega), Nat.div_eq_of_lt hlen, Nat.add_zero, Nat.mul_add_mod,
      Nat.mod_eq_of_lt hlen]

/-- A row of the tile and eight of its columns are in a copy. -/
theorem exists_toRows_copy {row b : ℕ} (hcolDvd : 8 ∣ tile.startCol)
    (hcell : tile.hasCell row (8 * b) = true) :
    ∃ copy ∈ (copyValidityToRows numRows numColumns rowOffsets batchRowBoundaries validityOffset
        inputNm).copies tile, ∃ i < copy.bytes, copy.buffer = tile.batchNumber ∧
      copy.dst + i = rowOffsets row (rowBatchStart batchRowBoundaries tile.batchNumber) +
        validityOffset + b := by
  unfold TileInfo.hasCell at hcell
  simp only [Bool.and_eq_true, decide_eq_true_eq] at hcell
  obtain ⟨⟨⟨hcol, hcol'⟩, hrow⟩, hrow'⟩ := hcell
  have hrelative : row - tile.startRow + tile.startRow = row := Nat.sub_add_cancel hrow
  refine ⟨_, mem_inWarps.2 ⟨row - tile.startRow, ?_, List.mem_singleton_self _⟩,
    b - tile.startCol / 8, ?_, rfl, ?_⟩
  · unfold TileInfo.numRows
    omega
  · unfold divRoundingUp TileInfo.numCols
    dsimp only
    omega
  · dsimp only
    rw [hrelative]
    omega

end Kernel

end ToRows

/-! ### `copy_validity_from_rows` -/

section FromRows

/-- The validity of a cell, as its row has it. -/
def rowIsValid (rowOffsets : RowOffsetFunctor) (validityOffset : ℕ) (inputData : List Byte)
    (rowBatchStart row col : ℕ) : Bool :=
  (inputData.getD (rowOffsets row rowBatchStart + validityOffset + col / 8) 0).getLsbD (col % 8)

section Code

variable (numRows numColumns : ℕ) (rowOffsets : RowOffsetFunctor) (batchRowBoundaries : List ℕ)
  (validityOffset : ℕ) (inputData : List Byte)

/-- `validity_data_col_length` -/
def validityDataColLength (tile : TileInfo) : ℕ := divRoundingUp tile.numRows warpSize * 4

/-- What the lead thread of a warp stores of a section. -/
def fromRowsSection (tile : TileInfo) (mySectionIdx : ℕ) : List WordStore :=
  let numSectionsX := divRoundingUp tile.numCols 8
  let sectionX := mySectionIdx % numSectionsX
  let sectionY := mySectionIdx / numSectionsX
  let relativeCol := sectionX * 8
  let relativeRow lane := sectionY * warpSize + lane
  let absoluteCol := relativeCol + tile.startCol
  let absoluteRow lane := relativeRow lane + tile.startRow
  let participating lane := decide (absoluteRow lane < numRows)
  let myByte lane := inputData.getD (rowOffsets (absoluteRow lane)
    (rowBatchStart batchRowBoundaries tile.batchNumber) + validityOffset + absoluteCol / 8) 0
  if participating 0 then
    (List.range (min 8 (numColumns - relativeCol))).map fun i =>
      (validityDataColLength tile * (relativeCol + i) + relativeRow 0 / 8,
        -- the byte is a signed `char`
        ballotSync (participationMask participating) fun lane =>
          (myByte lane).signExtend 32 &&& BitVec.twoPow 32 i)
  else []

/-- `copy_validity_from_rows` -/
def copyValidityFromRows : TileKernel where
  stores tile := inWarps (divRoundingUp tile.numCols 8 * divRoundingUp tile.numRows warpSize)
    (fromRowsSection numRows numColumns rowOffsets batchRowBoundaries validityOffset inputData tile)
  copies tile := inWarps tile.numCols fun relativeCol =>
    [{ buffer := relativeCol + tile.startCol
       dst := 4 * (tile.startRow / 32)
       src := validityDataColLength tile * relativeCol
       bytes := validityDataColLength tile }]

/-- The validity of eight rows in a null mask: the rows behind the last one are not valid. -/
def maskByte (rowBatchStart col b : ℕ) : Byte :=
  BitVec.ofFnLE fun j => decide (8 * b + j < numRows) &&
    rowIsValid rowOffsets validityOffset inputData rowBatchStart (8 * b + j) col

/-- What the shared memory has at a position. -/
def columnsValue (tile : TileInfo) (p : ℕ) : Byte :=
  maskByte numRows rowOffsets validityOffset inputData
    (rowBatchStart batchRowBoundaries tile.batchNumber)
    (tile.startCol + p / validityDataColLength tile)
    (tile.startRow / 8 + p % validityDataColLength tile)

end Code

variable {numRows numColumns kernelCols limit : ℕ} {counts : List ℕ} {tile : TileInfo}
  {rowOffsets : RowOffsetFunctor} {batchRowBoundaries : List ℕ} {validityOffset : ℕ}
  {inputData : List Byte} {tiles : List TileInfo}

theorem getLsbD_maskByte {rowBatchStart col b j : ℕ} (hj : j < 8) :
    (maskByte numRows rowOffsets validityOffset inputData rowBatchStart col b).getLsbD j =
      (decide (8 * b + j < numRows) &&
        rowIsValid rowOffsets validityOffset inputData rowBatchStart (8 * b + j) col) := by
  unfold maskByte
  rw [BitVec.getLsbD_ofFnLE, dif_pos hj]

/-- A word of a section has a column's validity of 32 rows. -/
theorem mem_fromRowsSection (hcolDvd : 8 ∣ tile.startCol) {idx : ℕ} {store : WordStore}
    (h : store ∈ fromRowsSection numRows kernelCols rowOffsets batchRowBoundaries validityOffset
      inputData tile idx) :
    ∃ i < 8, store.1 = validityDataColLength tile *
        (8 * (idx % divRoundingUp tile.numCols 8) + i) + 4 * (idx / divRoundingUp tile.numCols 8) ∧
      ∀ lane < 32, store.2.getLsbD lane =
        (decide (tile.startRow + 32 * (idx / divRoundingUp tile.numCols 8) + lane < numRows) &&
          rowIsValid rowOffsets validityOffset inputData
            (rowBatchStart batchRowBoundaries tile.batchNumber)
            (tile.startRow + 32 * (idx / divRoundingUp tile.numCols 8) + lane)
            (tile.startCol + (8 * (idx % divRoundingUp tile.numCols 8) + i))) := by
  unfold fromRowsSection at h
  unfold warpSize at h
  dsimp only at h
  generalize idx % divRoundingUp tile.numCols 8 = x at *
  generalize idx / divRoundingUp tile.numCols 8 = y at *
  split_ifs at h with hlead
  · obtain ⟨i, hi, rfl⟩ := List.mem_map.1 h
    rw [List.mem_range] at hi
    have hi' : i < 8 := by omega
    refine ⟨i, hi', ?_, fun lane hlane => ?_⟩
    · have hword : (y * 32 + 0) / 8 = 4 * y := by omega
      dsimp only
      rw [Nat.mul_comm x, hword]
    · have hrow : y * 32 + lane + tile.startRow = tile.startRow + 32 * y + lane := by omega
      have hdiv : (tile.startCol + (8 * x + i)) / 8 = (x * 8 + tile.startCol) / 8 := by omega
      have hmod : (tile.startCol + (8 * x + i)) % 8 = i := by omega
      dsimp only
      rw [getLsbD_ballotSync hlane, getLsbD_participationMask hlane,
        and_twoPow_ne_zero (show i < 32 by omega), ← hrow, BitVec.getLsbD_signExtend,
        decide_eq_true (show i < 32 by omega), Bool.true_and, if_pos hi']
      unfold rowIsValid
      rw [hdiv, hmod]
  · exact absurd h List.not_mem_nil

/-- And where the lead thread has a row of the table, there is a word for each column. -/
theorem exists_mem_fromRowsSection {idx i : ℕ}
    (hrow : tile.startRow + 32 * (idx / divRoundingUp tile.numCols 8) < numRows) (hi : i < 8)
    (hcol : 8 * (idx % divRoundingUp tile.numCols 8) + i < kernelCols) :
    ∃ store ∈ fromRowsSection numRows kernelCols rowOffsets batchRowBoundaries validityOffset
        inputData tile idx, store.1 = validityDataColLength tile *
          (8 * (idx % divRoundingUp tile.numCols 8) + i) +
            4 * (idx / divRoundingUp tile.numCols 8) := by
  unfold fromRowsSection
  unfold warpSize
  dsimp only
  generalize idx % divRoundingUp tile.numCols 8 = x at *
  generalize idx / divRoundingUp tile.numCols 8 = y at *
  have hword : (y * 32 + 0) / 8 = 4 * y := by omega
  rw [if_pos (decide_eq_true (by omega))]
  refine ⟨_, List.mem_map.2 ⟨i, List.mem_range.2 (by omega), rfl⟩, ?_⟩
  dsimp only
  rw [Nat.mul_comm x, hword]

/-- The columns of a tile have room in the shared memory. -/
theorem colLength_mul_le (htile : ValidityTile numColumns limit counts tile) {cols : ℕ}
    (hcols : cols ≤ columnStride numColumns limit) : validityDataColLength tile * cols ≤ limit := by
  have hrows := htile.numRows_le
  obtain ⟨q, hq⟩ := dvd_fittingRows numColumns limit
  have hfits := fittingRows_mul_le numColumns limit
  have hbytes := columnStride_le_bytesPerRow numColumns limit
  have hlen : validityDataColLength tile ≤ 8 * q := by
    unfold validityDataColLength divRoundingUp warpSize
    omega
  refine Nat.le_trans (Nat.mul_le_mul hlen (Nat.le_trans hcols hbytes)) (Nat.le_trans ?_ hfits)
  rw [hq]
  refine Nat.le_of_eq ?_
  ring

theorem determined_fromRows (htiles : ∀ tile ∈ tiles, ValidityTile numColumns limit counts tile)
    (hkernel : numColumns ≤ kernelCols) :
    Determined (copyValidityFromRows counts.sum kernelCols rowOffsets batchRowBoundaries
      validityOffset inputData) tiles
      (columnsValue counts.sum rowOffsets batchRowBoundaries validityOffset inputData) := by
  constructor
  · intro tile htile store hstore p v hv
    have hrowDvd := (htiles tile htile).startRow_dvd
    obtain ⟨idx, hidx, hstore⟩ := mem_inWarps.1 hstore
    obtain ⟨i, -, hoffset, hbits⟩ := mem_fromRowsSection (htiles tile htile).startCol_dvd hstore
    obtain ⟨k, hk, hposition, hbyte⟩ := mem_storeBytes hv
    have hroom : 4 * (idx / divRoundingUp tile.numCols 8) + k < validityDataColLength tile := by
      have hy := (section_lt hidx).2
      unfold validityDataColLength
      omega
    -- `x` counts the sections by columns, `y` by rows
    generalize idx % divRoundingUp tile.numCols 8 = x at *
    generalize idx / divRoundingUp tile.numCols 8 = y at *
    rw [hoffset, Nat.add_assoc] at hposition
    have hdiv : p / validityDataColLength tile = 8 * x + i := by
      rw [hposition, Nat.mul_add_div (by omega), Nat.div_eq_of_lt hroom, Nat.add_zero]
    have hmod : p % validityDataColLength tile = 4 * y + k := by
      rw [hposition, Nat.mul_add_mod, Nat.mod_eq_of_lt hroom]
    refine BitVec.eq_of_getLsbD_eq fun j hj => ?_
    have hrow : 8 * (tile.startRow / 8 + (4 * y + k)) + j = tile.startRow + 32 * y + (8 * k + j) := by
      omega
    unfold columnsValue
    rw [hbyte j hj, hbits (8 * k + j) (by omega), getLsbD_maskByte hj, hdiv, hmod, hrow]
  · intro tile htile copy hcopy i hi
    have hcols := (htiles tile htile).cols
    have hendCol := (htiles tile htile).endCol_lt
    have hrows := (htiles tile htile).rows
    have hendRow := row_lt_sum (htiles tile htile).batch_lt (htiles tile htile).endRow_lt
    obtain ⟨c, hc, hcopy⟩ := mem_inWarps.1 hcopy
    obtain rfl := List.mem_singleton.1 hcopy
    dsimp only at hi ⊢
    have hx : c / 8 < divRoundingUp tile.numCols 8 := by
      unfold divRoundingUp
      omega
    have hy : i / 4 < divRoundingUp tile.numRows warpSize := by
      unfold validityDataColLength at hi
      omega
    -- the section whose store has the byte, and the column in it
    obtain ⟨idx, hidx, hmod, hdiv⟩ := exists_section hx hy
    unfold TileInfo.numCols at hc
    unfold divRoundingUp TileInfo.numRows warpSize at hy
    obtain ⟨store, hstore, hoffset⟩ := @exists_mem_fromRowsSection counts.sum kernelCols tile
      rowOffsets batchRowBoundaries validityOffset inputData idx (c % 8) (by rw [hdiv]; omega)
      (Nat.mod_lt _ (by decide)) (by rw [hmod]; omega)
    refine ⟨store, mem_inWarps.2 ⟨idx, hidx, hstore⟩, i % 4, Nat.mod_lt _ (by decide), ?_⟩
    rw [hoffset, hmod, hdiv, Nat.div_add_mod, Nat.add_assoc, Nat.div_add_mod]

theorem within_fromRows (htiles : ∀ tile ∈ tiles, ValidityTile numColumns limit counts tile) :
    (copyValidityFromRows counts.sum kernelCols rowOffsets batchRowBoundaries validityOffset
      inputData).Within tiles limit := by
  constructor
  · intro tile htile store hstore
    have hcols := (htiles tile htile).numCols_le
    have hstride := eight_dvd_columnStride numColumns limit
    obtain ⟨idx, hidx, hstore⟩ := mem_inWarps.1 hstore
    obtain ⟨i, hi, hoffset, -⟩ := mem_fromRowsSection (htiles tile htile).startCol_dvd hstore
    obtain ⟨hx, hy⟩ := section_lt hidx
    have hroom : 4 * (idx / divRoundingUp tile.numCols 8) + 4 ≤ validityDataColLength tile := by
      unfold validityDataColLength
      omega
    generalize idx % divRoundingUp tile.numCols 8 = x at *
    generalize idx / divRoundingUp tile.numCols 8 = y at *
    rw [hoffset]
    constructor
    · exact Nat.dvd_add (Dvd.dvd.mul_right (Nat.dvd_mul_left 4 _) _) (Nat.dvd_mul_right 4 y)
    · unfold divRoundingUp at hx
      have hmul := colLength_mul_le (htiles tile htile) (show 8 * x + i + 1 ≤ _ by omega)
      rw [Nat.mul_succ] at hmul
      omega
  · intro tile htile copy hcopy
    have hcols := (htiles tile htile).numCols_le
    obtain ⟨c, hc, hcopy⟩ := mem_inWarps.1 hcopy
    obtain rfl := List.mem_singleton.1 hcopy
    exact colLength_mul_le (htiles tile htile) (show c + 1 ≤ _ by omega)

/-- A copy has a column of the tile, and what it copies is the column's validity. -/
theorem fromRows_copy (htile : ValidityTile numColumns limit counts tile) {copy : SharedCopy}
    (hcopy : copy ∈ (copyValidityFromRows counts.sum kernelCols rowOffsets batchRowBoundaries
      validityOffset inputData).copies tile) :
    tile.startCol ≤ copy.buffer ∧ copy.buffer ≤ tile.endCol ∧
      ∀ i < copy.bytes, copy.dst + i = tile.startRow / 8 + i ∧
        copy.dst + i < 4 * divRoundingUp counts.sum 32 ∧
        (8 * (copy.dst + i) < counts.sum → 8 * (copy.dst + i) ≤ tile.endRow) ∧
        columnsValue counts.sum rowOffsets batchRowBoundaries validityOffset inputData tile
            (copy.src + i) =
          maskByte counts.sum rowOffsets validityOffset inputData
            (rowBatchStart batchRowBoundaries tile.batchNumber) copy.buffer (copy.dst + i) := by
  have hcols := htile.cols
  have hrowDvd := htile.startRow_dvd
  have hrows := htile.rows
  have hendDvd := htile.endRow_dvd
  have hend := row_lt_sum htile.batch_lt htile.endRow_lt
  obtain ⟨c, hc, hcopy⟩ := mem_inWarps.1 hcopy
  obtain rfl := List.mem_singleton.1 hcopy
  unfold TileInfo.numCols at hc
  dsimp only
  refine ⟨by omega, by omega, fun i hi => ?_⟩
  have hbytes := hi
  unfold validityDataColLength divRoundingUp TileInfo.numRows warpSize at hbytes
  have hword : 4 * (tile.startRow / 32) = tile.startRow / 8 := by omega
  rw [hword]
  refine ⟨rfl, ?_, ?_, ?_⟩
  · unfold divRoundingUp
    omega
  · omega
  · unfold columnsValue
    rw [Nat.mul_add_div (by omega), Nat.div_eq_of_lt hi, Nat.add_zero, Nat.mul_add_mod,
      Nat.mod_eq_of_lt hi, Nat.add_comm c]

/-- A cell of the tile is in a copy. -/
theorem exists_fromRows_copy {row col : ℕ} (hrowDvd : 32 ∣ tile.startRow)
    (hcell : tile.hasCell row col = true) :
    ∃ copy ∈ (copyValidityFromRows numRows kernelCols rowOffsets batchRowBoundaries validityOffset
        inputData).copies tile, ∃ i < copy.bytes, copy.buffer = col ∧ copy.dst + i = row / 8 := by
  unfold TileInfo.hasCell at hcell
  simp only [Bool.and_eq_true, decide_eq_true_eq] at hcell
  obtain ⟨⟨⟨hcol, hcol'⟩, hrow⟩, hrow'⟩ := hcell
  refine ⟨_, mem_inWarps.2 ⟨col - tile.startCol, ?_, List.mem_singleton_self _⟩,
    row / 8 - tile.startRow / 8, ?_, ?_, ?_⟩
  · unfold TileInfo.numCols
    omega
  · unfold validityDataColLength divRoundingUp TileInfo.numRows warpSize
    dsimp only
    omega
  · exact Nat.sub_add_cancel hcol
  · dsimp only
    omega

end FromRows

end SparkRapids.RowConversion
