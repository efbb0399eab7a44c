import SparkRapidsJni.Kudo.Framing

/-!
# Where the slice of a column is

A slice of a table is copied range by range: for a column whose slice has rows, the bytes that hold
their validity bits, the `rows + 1` offsets and the data. `sourceRange` is that range, computed
without a bound on the numbers.

The visitors compute positions as products of `int`s, an offset times a width. If the products fit
(`PositionsFit`), a visit copies the range (`PartRead.copyRange`), and the header counts its length.
A slice without rows is read, too: the child of a list has the rows from the offset at the position
that the product wraps to.
-/

namespace SparkRapids.Kudo

open Bytes HostColumnVectorCore

/-! ### Slices of columns -/

namespace HostColumnVectorCore

variable (c : HostColumnVectorCore)

/-- The rows of a list's child that the first `rows` rows of the list need: none if the list has no
offset buffer. -/
def neededRows (rows : Nat) : Nat := if c.offsets.isSome then c.offset rows else 0

/-- The position at which the visitors read offset `i`. -/
def readPosition (i : Nat) : Int := javaInt (i * 4)

/-- The slice of a list's child as the visitors read it: a slice without rows stays one, and starts
at the offset at the position that is read. -/
def readSlice (s : SliceInfo) : SliceInfo :=
  if 0 < s.rowCount then c.childSlice s
  else { offset := c.offset ((readPosition s.offset).toNat / 4), rowCount := 0 }

end HostColumnVectorCore

/-- The columns of a table on the host with `rowCount` rows, and a slice of the rows. A column has as
many rows as the columns above it need, and an offset buffer only where its type has offsets. -/
structure SlicedColumns where
  columns : List HostColumn
  rowCount : Nat
  slice : SliceInfo
  rowCount_le : rowCount ≤ intMax
  inside : slice.offset + slice.rowCount ≤ rowCount
  valid : ∀ p ∈ Nested.flattenAll neededRows columns rowCount,
    p.ctx ≤ p.val.rowCount ∧ p.val.Valid p.kind
  hasOffsets : ∀ p ∈ Nested.flattenAll neededRows columns rowCount,
    p.val.offsets.isSome → hasOffsets p.kind

/-! ### Ranges -/

/-- The bytes of a buffer that hold the rows of a slice, of which there is one. -/
def rowsRange (bufferType : BufferType) (kind : DType) (col : HostColumnVectorCore)
    (s : SliceInfo) : Option CopyRange :=
  match bufferType, kind with
  | .validity, _ => col.validity.map fun v =>
    ⟨some v, (s.offset / 8 : Nat), (s.validityBytes : Nat)⟩
  | .offset, .struct => none
  | .offset, _ => col.offsets.map fun o =>
    ⟨some o, (4 * s.offset : Nat), (4 * (s.rowCount + 1) : Nat)⟩
  | .data, .leaf .string => col.data.map fun d =>
    ⟨some d, col.offset s.offset, (col.offset (s.offset + s.rowCount) - col.offset s.offset : Nat)⟩
  | .data, .leaf (.fixedWidth width) =>
    if width = 0 then none
    else some ⟨col.data, (width * s.offset : Nat), (width * s.rowCount : Nat)⟩
  | .data, _ => none

/-- The bytes of a buffer that hold the rows of a part: none if there are no rows. -/
def sourceRange (bufferType : BufferType) (p : Part) : Option CopyRange :=
  if p.ctx.rowCount = 0 then none else rowsRange bufferType p.kind p.val p.ctx

/-- The validity bits of a part are in the record. -/
def hasValidity (p : Part) : Bool := p.val.hasValidityVector && decide (0 < p.ctx.rowCount)

/-- The bytes in a range. -/
def rangeBytes : Option CopyRange → List Byte
  | none => []
  | some range => slice (range.buffer.getD []) range.offset.toNat range.length.toNat

/-- The bytes of the ranges of all parts. -/
def sectionBytes (bufferType : BufferType) (parts : List Part) : List Byte :=
  parts.flatMap fun p => rangeBytes (sourceRange bufferType p)

namespace SlicedColumns

variable (t : SlicedColumns)

/-- The columns in preorder, with their rows of the slice. -/
def parts : List Part := Nested.flattenAll childSlice t.columns t.slice

/-- The columns in preorder, with their rows of the slice as the visitors read them. -/
def readParts : List Part := Nested.flattenAll readSlice t.columns t.slice

end SlicedColumns

/-- The positions of a part are `int`s: those of the offsets that are read, and of the first value of
a fixed width. The position of a slice without rows may wrap around, but not to a negative one. -/
structure PositionsFit (p : Part) : Prop where
  offsets : p.val.offsets.isSome → 0 < p.ctx.rowCount →
    ((p.ctx.offset + p.ctx.rowCount) * 4 : Int) ≤ intMax
  offsets_zero : p.val.offsets.isSome → p.ctx.rowCount = 0 →
    0 ≤ readPosition p.ctx.offset
  data : ∀ width, p.kind = .leaf (.fixedWidth width) → 0 < p.ctx.rowCount →
    (width * p.ctx.offset : Int) ≤ intMax

/-! ### What the visitors read is inside of the columns -/

/-- What is known of a part that is read. -/
structure PartRead (p : Part) : Prop extends PartOk p where
  hasOffsets : p.val.offsets.isSome → hasOffsets p.kind

namespace HostColumnVectorCore

variable {c : HostColumnVectorCore} {kind : DType} {s : SliceInfo}

theorem offset_of_none (h : c.offsets = none) (i : Nat) : c.offset i = 0 := by
  show (word (c.offsets.getD []) (4 * i)).toNat = 0
  rw [h]
  simp [word]

theorem readPosition_le (i : Nat) : (readPosition i).toNat ≤ i * 4 := by
  unfold readPosition javaInt
  have hle := Int.bmod_le (x := (i * 4 : Int)) (m := 2 ^ 32) (by decide)
  rcases Nat.lt_or_ge (i * 4) (2 ^ 31) with hlt | hge
  · rw [Int.bmod_eq_of_le (by omega) (by omega)]
    omega
  · omega

theorem readPosition_div_le (i : Nat) : (readPosition i).toNat / 4 ≤ i := by
  have h := readPosition_le i
  omega

/-- The child's rows of a slice inside the first rows are among those that the first rows need. -/
theorem Valid.readSlice_le (h : c.Valid kind) (hk : hasOffsets kind) {rows : Nat}
    (hs : s.offset + s.rowCount ≤ rows) (hrows : rows ≤ c.rowCount) :
    (c.readSlice s).offset + (c.readSlice s).rowCount ≤ c.neededRows rows := by
  unfold readSlice neededRows
  by_cases hpos : 0 < s.rowCount
  · have hle := h.childSlice_le hk hs hrows
    rw [childRows, if_neg (by omega)] at hle
    rw [if_pos hpos, if_pos (h.offsets_isSome hk (by omega))]
    exact hle
  · rw [if_neg hpos]
    show c.offset _ + 0 ≤ _
    cases hsome : c.offsets with
    | none =>
      rw [offset_of_none hsome]
      exact Nat.zero_le _
    | some o =>
      have hpos := readPosition_div_le s.offset
      exact h.offset_le hk (by omega) hrows

end HostColumnVectorCore

theorem sourceRange_of_zero {type : BufferType} {p : Part} (h : p.ctx.rowCount = 0) :
    sourceRange type p = none :=
  if_pos h

theorem sourceRange_of_pos {type : BufferType} {p : Part} (h : 0 < p.ctx.rowCount) :
    sourceRange type p = rowsRange type p.kind p.val p.ctx :=
  if_neg (Nat.pos_iff_ne_zero.1 h)

namespace SlicedColumns

open HostColumnVectorCore

variable (t : SlicedColumns)

/-- What is read of a column is inside of it. -/
theorem partRead : ∀ p ∈ t.readParts, PartRead p := by
  intro p hp
  have hinside : ∀ q ∈ Nested.flattenAll (Nested.both neededRows readSlice) t.columns
      (t.rowCount, t.slice), q.ctx.2.offset + q.ctx.2.rowCount ≤ q.ctx.1 := by
    refine Nested.ctx_of_mem_flattenAll (Q := fun g : Nat × SliceInfo =>
      g.2.offset + g.2.rowCount ≤ g.1) t.columns t.inside ?_
    intro q hq hlist hle
    obtain ⟨hrows, hvalid⟩ := t.valid _ (Nested.fst_mem_flattenAll hq)
    refine hvalid.readSlice_le ?_ hle hrows
    show Kudo.hasOffsets q.kind = true
    rw [hlist]
    rfl
  obtain ⟨q, hq, rfl⟩ := Nested.exists_both_of_mem neededRows t.rowCount hp
  have hmem := Nested.fst_mem_flattenAll hq
  obtain ⟨hrows, hvalid⟩ := t.valid _ hmem
  exact ⟨⟨hvalid, Nat.le_trans (hinside q hq) hrows⟩, t.hasOffsets _ hmem⟩

/-- The rows as they are read only differ from the rows where there are none. -/
theorem map_parts {β : Type} (f : Part → β) (hf : ∀ kind col, ∀ s s' : SliceInfo,
    s.rowCount = 0 → s'.rowCount = 0 → f ⟨kind, col, s⟩ = f ⟨kind, col, s'⟩) :
    t.parts.map f = t.readParts.map f := by
  have hsame : ∀ q ∈ Nested.flattenAll (Nested.both childSlice readSlice) t.columns
      (t.slice, t.slice), q.ctx.1 = q.ctx.2 ∨ q.ctx.1.rowCount = 0 ∧ q.ctx.2.rowCount = 0 := by
    refine Nested.ctx_of_mem_flattenAll (Q := fun g : SliceInfo × SliceInfo =>
      g.1 = g.2 ∨ g.1.rowCount = 0 ∧ g.2.rowCount = 0) t.columns (Or.inl rfl) ?_
    intro q hq hlist hsame
    show q.val.childSlice q.ctx.1 = q.val.readSlice q.ctx.2 ∨
      (q.val.childSlice q.ctx.1).rowCount = 0 ∧ (q.val.readSlice q.ctx.2).rowCount = 0
    by_cases hpos : 0 < q.ctx.2.rowCount
    · obtain heq | ⟨-, hzero⟩ := hsame
      · left
        rw [heq, readSlice, if_pos hpos]
      · omega
    · right
      have hzero : q.ctx.1.rowCount = 0 := by
        obtain heq | ⟨hzero, -⟩ := hsame
        · rw [heq]
          omega
        · exact hzero
      rw [readSlice, if_neg hpos, childSlice, if_pos hzero]
      exact ⟨rfl, rfl⟩
  unfold parts readParts
  rw [← Nested.flattenAll_both_fst childSlice readSlice t.columns t.slice t.slice,
    ← Nested.flattenAll_both_snd childSlice readSlice t.columns t.slice t.slice,
    List.map_map, List.map_map]
  refine List.map_congr_left fun q hq => ?_
  show f ⟨q.kind, q.val, q.ctx.1⟩ = f ⟨q.kind, q.val, q.ctx.2⟩
  obtain heq | ⟨hzero, hzero'⟩ := hsame q hq
  · rw [heq]
  · exact hf q.kind q.val _ _ hzero hzero'

theorem sourceRange_parts (type : BufferType) :
    t.parts.map (sourceRange type) = t.readParts.map (sourceRange type) := by
  refine t.map_parts _ fun kind col s s' hzero hzero' => ?_
  rw [sourceRange_of_zero hzero, sourceRange_of_zero hzero']

theorem sectionBytes_parts (type : BufferType) :
    sectionBytes type t.parts = sectionBytes type t.readParts := by
  have h := congrArg (List.flatMap rangeBytes) (t.sourceRange_parts type)
  rwa [List.flatMap_map, List.flatMap_map] at h

end SlicedColumns

/-! ### The range of a column -/

section Range

variable {p : Part} {type : BufferType} {range : CopyRange}

/-- A range is inside of its buffer. -/
theorem PartRead.inBuffer (hp : PartRead p) (h : sourceRange type p = some range) :
    ∃ o n : Nat, range.offset = o ∧ range.length = n ∧ o + n ≤ (range.buffer.getD []).length := by
  have hrows := hp.inside
  have hpos : ¬p.ctx.rowCount = 0 := by
    intro hzero
    rw [sourceRange_of_zero hzero] at h
    exact absurd h (by simp)
  rw [sourceRange_of_pos (Nat.pos_of_ne_zero hpos)] at h
  obtain ⟨kind, col, slice⟩ := p
  dsimp only at hrows hpos h
  cases type with
  | validity =>
    obtain ⟨v, hv, rfl⟩ := Option.map_eq_some_iff.1 h
    refine ⟨_, _, rfl, rfl, ?_⟩
    have hle := hp.valid.validity_le v hv
    show slice.offset / 8 + slice.validityBytes ≤ v.length
    rw [SliceInfo.validityBytes, if_pos (by omega)]
    dsimp only at hle
    omega
  | offset =>
    -- strings and lists have the same range of offsets
    have hoffsets : ∀ r : Option CopyRange, r = some range →
        r = (col.offsets.map fun o =>
          ⟨some o, (4 * slice.offset : Nat), (4 * (slice.rowCount + 1) : Nat)⟩) →
        ∃ o n : Nat, range.offset = o ∧ range.length = n ∧
          o + n ≤ (range.buffer.getD []).length := by
      rintro _ h rfl
      obtain ⟨o, ho, rfl⟩ := Option.map_eq_some_iff.1 h
      refine ⟨_, _, rfl, rfl, ?_⟩
      have hle := hp.valid.offsets_le (hp.hasOffsets (Option.isSome_of_mem ho)) o ho
      show 4 * slice.offset + 4 * (slice.rowCount + 1) ≤ o.length
      dsimp only at hle
      omega
    cases kind with
    | leaf t => exact hoffsets _ h rfl
    | list => exact hoffsets _ h rfl
    | struct => exact absurd (show none = some range from h) (by simp)
  | data =>
    cases kind with
    | list => exact absurd (show none = some range from h) (by simp)
    | struct => exact absurd (show none = some range from h) (by simp)
    | leaf t =>
      cases t with
      | fixedWidth width =>
        unfold rowsRange at h
        dsimp only at h
        split at h
        · exact absurd h (by simp)
        · obtain rfl := Option.some.inj h
          refine ⟨_, _, rfl, rfl, ?_⟩
          have hle := hp.valid.fixedWidth_le width rfl
          have hmul := Nat.mul_le_mul_left width hrows
          show width * slice.offset + width * slice.rowCount ≤ (col.data.getD []).length
          rw [← Nat.mul_add]
          exact hmul.trans hle
      | string =>
        obtain ⟨d, hd, rfl⟩ := Option.map_eq_some_iff.1 h
        refine ⟨_, _, rfl, rfl, ?_⟩
        have hle := hp.valid.string_le rfl
        have hfirst := hp.valid.offset_le rfl (Nat.le_add_right slice.offset slice.rowCount) hrows
        have hlast := hp.valid.offset_le rfl hrows (Nat.le_refl _)
        rw [show col.data = some d from hd] at hle
        show col.offset slice.offset +
          (col.offset (slice.offset + slice.rowCount) - col.offset slice.offset) ≤ d.length
        dsimp only [Option.getD_some] at hle hfirst hlast
        omega

/-- A range is copied as it is. -/
theorem PartRead.copyDataFrom (hp : PartRead p) (h : sourceRange type p = some range) :
    Kudo.copyDataFrom range.buffer range.offset range.length = .ok (rangeBytes (some range)) ∧
      ((rangeBytes (some range)).length : Int) = range.length := by
  obtain ⟨o, n, ho, hn, hle⟩ := hp.inBuffer h
  have hbytes : rangeBytes (some range) = slice (range.buffer.getD []) o n := by
    show slice (range.buffer.getD []) range.offset.toNat range.length.toNat = _
    rw [ho, hn, Int.toNat_natCast, Int.toNat_natCast]
  unfold Kudo.copyDataFrom
  rw [hbytes, ho, hn]
  by_cases hzero : n = 0
  · rw [if_pos (by omega), hzero, slice_zero]
    exact ⟨rfl, rfl⟩
  · refine ⟨?_, by rw [length_slice_of_le hle]⟩
    rw [if_neg (by omega)]
    cases hbuffer : range.buffer with
    | none =>
      rw [hbuffer] at hle
      exact absurd hle (by simp [hzero])
    | some buffer =>
      rw [hbuffer] at hle
      exact HostMemoryBuffer.getBytes_of_le hle

end Range

/-! ### Reading offsets -/

namespace HostColumnVectorCore

variable {c : HostColumnVectorCore} {kind : DType} {offsets : List Byte}

/-- A position that is not negative is that of an offset. -/
theorem readPosition_of_nonneg {i : Nat} (h : 0 ≤ readPosition i) :
    readPosition i = (4 * ((readPosition i).toNat / 4) : Nat) := by
  have hdvd : (4 : Int) ∣ readPosition i := by
    unfold readPosition javaInt Int.bmod
    dsimp only
    split_ifs <;> omega
  omega

theorem Valid.getInt (hv : c.Valid kind) (hk : hasOffsets kind) (ho : c.offsets = some offsets)
    {i : Nat} (hi : i ≤ c.rowCount) : ∃ v : BitVec 32,
      HostMemoryBuffer.getInt offsets (4 * i : Nat) = .ok v ∧ v.toInt = c.offset i := by
  have hle := hv.offsets_le hk offsets ho
  have hoffset : c.offset i = (word offsets (4 * i)).toNat := by
    unfold offset
    rw [ho]
    rfl
  have hnonneg := hv.offset_nonneg hk i hi
  refine ⟨_, HostMemoryBuffer.getInt_of_le (by omega), ?_⟩
  rw [hoffset] at hnonneg ⊢
  rw [BitVec.toInt_eq_toNat_of_lt]
  unfold intMax at hnonneg
  omega

end HostColumnVectorCore

section Reads

variable {p : Part} {offsets : List Byte}

/-- The offsets at the ends of a slice are read if the positions fit. -/
theorem PartRead.getInts (hp : PartRead p) (hfit : PositionsFit p)
    (ho : p.val.offsets = some offsets) : ∃ first last : BitVec 32,
      HostMemoryBuffer.getInt offsets (javaInt (p.ctx.offset * 4)) = .ok first ∧
      HostMemoryBuffer.getInt offsets
        (javaInt (javaInt (p.ctx.offset + p.ctx.rowCount) * 4)) = .ok last ∧
      first.toInt = (p.val.readSlice p.ctx).offset ∧
      last.toInt - first.toInt = (p.val.readSlice p.ctx).rowCount := by
  have hsome : p.val.offsets.isSome := by
    rw [ho]
    rfl
  have hk := hp.hasOffsets hsome
  have hrows := hp.inside
  have hmax := hp.valid.rowCount_le
  have hsum : javaInt (p.ctx.offset + p.ctx.rowCount) = p.ctx.offset + p.ctx.rowCount :=
    javaInt_of_bounds (by omega) (by omega)
  unfold readSlice
  by_cases hpos : 0 < p.ctx.rowCount
  · have hle := hfit.offsets hsome hpos
    obtain ⟨first, hfirst, hfirstVal⟩ := hp.valid.getInt hk ho (i := p.ctx.offset) (by omega)
    obtain ⟨last, hlast, hlastVal⟩ :=
      hp.valid.getInt hk ho (i := p.ctx.offset + p.ctx.rowCount) hrows
    have hmono := hp.valid.offset_le hk (Nat.le_add_right p.ctx.offset p.ctx.rowCount) hrows
    refine ⟨first, last, ?_, ?_, ?_, ?_⟩
    · have hposition : (p.ctx.offset * 4 : Int) = (4 * p.ctx.offset : Nat) := by omega
      rw [javaInt_of_bounds (by omega) (by omega), hposition]
      exact hfirst
    · have hposition : ((p.ctx.offset + p.ctx.rowCount) * 4 : Int) =
          (4 * (p.ctx.offset + p.ctx.rowCount) : Nat) := by omega
      rw [hsum, javaInt_of_bounds (by omega) hle, hposition]
      exact hlast
    · rw [if_pos hpos, childSlice, if_neg (by omega)]
      exact hfirstVal
    · rw [if_pos hpos, childSlice, if_neg (by omega), hfirstVal, hlastVal]
      show ((p.val.offset _ : Nat) : Int) - p.val.offset _ = ((_ - _ : Nat) : Int)
      omega
  · -- both ends are read at the same position
    have hzero : p.ctx.rowCount = 0 := by omega
    have hread := readPosition_of_nonneg (hfit.offsets_zero hsome hzero)
    have hdiv := readPosition_div_le p.ctx.offset
    obtain ⟨v, hv, hval⟩ := hp.valid.getInt hk ho
      (i := (readPosition p.ctx.offset).toNat / 4) (by omega)
    rw [← hread] at hv
    refine ⟨v, v, hv, ?_, ?_, ?_⟩
    · rw [hsum, hzero]
      show HostMemoryBuffer.getInt offsets (javaInt ((p.ctx.offset + 0) * 4)) = _
      rw [Int.add_zero]
      exact hv
    · rw [if_neg hpos]
      exact hval
    · rw [if_neg hpos, sub_self]
      rfl

/-- A column without an offset buffer has no rows. -/
theorem PartRead.rowCount_of_none (hp : PartRead p) (hk : Kudo.hasOffsets p.kind)
    (ho : p.val.offsets = none) : p.ctx.rowCount = 0 := by
  have hrows := hp.inside
  by_contra hne
  have hsome := hp.valid.offsets_isSome hk (by omega)
  rw [ho] at hsome
  exact absurd hsome (by simp)

/-- The slice of a list's child is read if the positions fit. -/
theorem PartRead.listSlice (hp : PartRead p) (hfit : PositionsFit p) (hk : p.kind = .list) :
    Kudo.listSlice p.val p.ctx = .ok (p.val.readSlice p.ctx) := by
  unfold Kudo.listSlice
  cases ho : p.val.offsets with
  | none =>
    have hzero := hp.rowCount_of_none (by rw [hk]; rfl) ho
    rw [readSlice, if_neg (by omega),
      offset_of_none ho]
    rfl
  | some offsets =>
    obtain ⟨first, last, hfirst, hlast, hoffset, hcount⟩ := hp.getInts hfit ho
    have hsome : p.val.offsets.isSome := by
      rw [ho]
      rfl
    have hle := hp.valid.readSlice_le (hp.hasOffsets hsome) hp.inside (Nat.le_refl _)
    have hmax := hp.valid.offset_nonneg (hp.hasOffsets hsome) p.val.rowCount (Nat.le_refl _)
    rw [neededRows, if_pos hsome] at hle
    dsimp only
    rw [hfirst, ok_bind, hlast, ok_bind, hcount, hoffset, javaInt_of_bounds (by omega) (by omega)]
    exact SliceInfo.make_natCast _ _

end Reads

/-! ### A visit copies the range -/

/-- The ranges of a part are shorter than 2^31 bytes. -/
def RangesFit (p : Part) : Prop :=
  ∀ type, ((rangeBytes (sourceRange type p)).length : Int) ≤ intMax

section CopyRange

variable {p : Part} {type : BufferType} {range : CopyRange} {offsets : List Byte}

theorem PartRead.length_le (hp : PartRead p) (hranges : RangesFit p)
    (h : sourceRange type p = some range) : range.length ≤ intMax := by
  have hle := hranges type
  rw [h, (hp.copyDataFrom h).2] at hle
  exact hle

theorem sourceRange_offset (hk : p.kind ≠ .struct) (hpos : 0 < p.ctx.rowCount)
    (ho : p.val.offsets = some offsets) : sourceRange .offset p =
      some ⟨some offsets, (4 * p.ctx.offset : Nat), (4 * (p.ctx.rowCount + 1) : Nat)⟩ := by
  rw [sourceRange_of_pos hpos]
  have hrange : rowsRange .offset p.kind p.val p.ctx = p.val.offsets.map fun o =>
      ⟨some o, (4 * p.ctx.offset : Nat), (4 * (p.ctx.rowCount + 1) : Nat)⟩ := by
    cases hkind : p.kind with
    | leaf t => rfl
    | list => rfl
    | struct => exact absurd hkind hk
  rw [hrange, ho]
  rfl

theorem sourceRange_offset_none (ho : p.val.offsets = none) : sourceRange .offset p = none := by
  by_cases hzero : p.ctx.rowCount = 0
  · exact sourceRange_of_zero hzero
  · rw [sourceRange_of_pos (Nat.pos_of_ne_zero hzero)]
    cases hkind : p.kind with
    | struct => rfl
    | leaf t =>
      show p.val.offsets.map _ = none
      rw [ho]
      rfl
    | list =>
      show p.val.offsets.map _ = none
      rw [ho]
      rfl

theorem PartRead.copySlicedOffset (hp : PartRead p) (hfit : PositionsFit p) (hranges : RangesFit p)
    (hk : p.kind ≠ .struct) (check : Bool) :
    Kudo.copySlicedOffset check p.val p.ctx = .ok (sourceRange .offset p) := by
  unfold Kudo.copySlicedOffset
  cases ho : p.val.offsets with
  | none =>
    rw [sourceRange_offset_none ho]
  | some offsets =>
    dsimp only
    by_cases hzero : p.ctx.rowCount = 0
    · rw [if_pos hzero, sourceRange_of_zero hzero]
    · rw [if_neg hzero]
      have hpos := Nat.pos_of_ne_zero hzero
      have hrange := sourceRange_offset hk hpos ho
      have hlen := hp.length_le hranges hrange
      dsimp only at hlen
      have hsome : p.val.offsets.isSome := by
        rw [ho]
        rfl
      have hle := hfit.offsets hsome hpos
      obtain ⟨first, last, hfirst, hlast, hoffset, hcount⟩ := hp.getInts hfit ho
      have hoffsetPos : javaInt (p.ctx.offset * 4) = (4 * p.ctx.offset : Nat) := by
        rw [javaInt_of_bounds (by omega) (by omega)]
        omega
      have hbytes : javaInt (javaInt (p.ctx.rowCount + 1) * 4) =
          (4 * (p.ctx.rowCount + 1) : Nat) := by
        have hsum : javaInt (p.ctx.rowCount + 1) = p.ctx.rowCount + 1 :=
          javaInt_of_bounds (by omega) (by omega)
        have hproduct : ((p.ctx.rowCount + 1) * 4 : Int) = (4 * (p.ctx.rowCount + 1) : Nat) := by
          omega
        rw [hsum, hproduct]
        exact javaInt_of_bounds (by omega) hlen
      -- the offsets that the check reads are in order
      have hcheck : ¬(first.toInt < 0 ∨ last.toInt < first.toInt) := by omega
      rw [hfirst, ok_bind, hlast, ok_bind, if_neg hcheck, ite_self, hrange, hoffsetPos, hbytes]

/-- A column of strings without a data buffer has no bytes. -/
theorem PartRead.offset_sub_of_none (hp : PartRead p) (hk : p.kind = .leaf .string)
    (hd : p.val.data = none) :
    p.val.offset (p.ctx.offset + p.ctx.rowCount) - p.val.offset p.ctx.offset = 0 := by
  have hoffsets : Kudo.hasOffsets p.kind := by
    rw [hk]
    rfl
  have hlast := hp.valid.offset_le hoffsets hp.inside (Nat.le_refl _)
  have hle := hp.valid.string_le hk
  rw [hd] at hle
  have hempty : ((none : Option (List Byte)).getD []).length = 0 := rfl
  omega

theorem sourceRange_string (hk : p.kind = .leaf .string) (hpos : 0 < p.ctx.rowCount) :
    sourceRange .data p = p.val.data.map fun d => ⟨some d, p.val.offset p.ctx.offset,
      (p.val.offset (p.ctx.offset + p.ctx.rowCount) - p.val.offset p.ctx.offset : Nat)⟩ := by
  rw [sourceRange_of_pos hpos, hk]
  rfl

theorem sourceRange_fixedWidth {width : Nat} (hk : p.kind = .leaf (.fixedWidth width))
    (hpos : 0 < p.ctx.rowCount) : sourceRange .data p = if width = 0 then none else
      some ⟨p.val.data, (width * p.ctx.offset : Nat), (width * p.ctx.rowCount : Nat)⟩ := by
  rw [sourceRange_of_pos hpos, hk]
  rfl

theorem PartRead.copySlicedData (hp : PartRead p) (hfit : PositionsFit p) (hranges : RangesFit p)
    {t : LeafType} (hk : p.kind = .leaf t) :
    Kudo.copySlicedData t p.val p.ctx = .ok (sourceRange .data p) := by
  unfold Kudo.copySlicedData
  by_cases hzero : p.ctx.rowCount = 0
  · rw [if_neg (by omega), sourceRange_of_zero hzero]
  have hpos := Nat.pos_of_ne_zero hzero
  rw [if_pos hpos]
  cases t with
  | string =>
    cases ho : p.val.offsets with
    | none =>
      refine absurd (hp.rowCount_of_none ?_ ho) hzero
      rw [hk]
      rfl
    | some offsets =>
      obtain ⟨first, last, hfirst, hlast, hoffset, hcount⟩ := hp.getInts hfit ho
      rw [readSlice, if_pos hpos, childSlice,
        if_neg hzero] at hoffset hcount
      dsimp only
      rw [hfirst, hlast, ok_bind, ok_bind, hcount, hoffset, sourceRange_string hk hpos]
      -- without characters, all strings are empty
      cases hd : p.val.data with
      | none =>
        rw [if_pos (show (none : Option (List Byte)).isNone = true from rfl)]
        exact if_neg (not_not.2 (congrArg Nat.cast (hp.offset_sub_of_none hk hd)))
      | some d =>
        rw [if_neg (by simp)]
        rfl
  | fixedWidth width =>
    dsimp only
    have hsource := sourceRange_fixedWidth hk hpos
    by_cases hwidth : width = 0
    · rw [if_neg (by omega), hsource, if_pos hwidth]
    · rw [if_neg hwidth] at hsource
      have hlen := hp.length_le hranges hsource
      have hposition := hfit.data width hk hpos
      have hnonneg := Int.natCast_nonneg (width * p.ctx.offset)
      rw [if_pos (by omega), hsource, mul_comm (p.ctx.offset : Int), mul_comm (p.ctx.rowCount : Int)]
      dsimp only at hlen
      push_cast at hlen hnonneg ⊢
      rw [javaInt_of_bounds (by omega) hposition,
        javaInt_of_bounds (le_trans (by decide) (Int.mul_nonneg (by omega) (by omega))) hlen]

/-- The last row of a part is one of its column, so that its index is an `int`. -/
theorem PartRead.lastRowFits (hp : PartRead p) : p.ctx.LastRowFits := by
  have hinside := hp.inside
  have hmax := hp.valid.rowCount_le
  unfold intMax at hmax
  unfold SliceInfo.LastRowFits
  omega

/-- A visit copies the range of the part. -/
theorem PartRead.copyRange (hp : PartRead p) (hfit : PositionsFit p) (hranges : RangesFit p)
    (check : Bool) (type : BufferType) :
    Kudo.copyRange check type p.kind p.val p.ctx = .ok (sourceRange type p) := by
  cases type with
  | validity =>
    show Except.ok (copySlicedValidity p.val p.ctx) = _
    unfold copySlicedValidity
    by_cases hzero : p.ctx.rowCount = 0
    · rw [sourceRange_of_zero hzero, if_neg (by omega)]
    · have hpos := Nat.pos_of_ne_zero hzero
      rw [sourceRange_of_pos hpos]
      show _ = Except.ok (p.val.validity.map _)
      cases hv : p.val.validity with
      | none => rfl
      | some v =>
        rw [if_pos ⟨rfl, hpos⟩]
        dsimp only
        rw [SliceInfo.bufferLength_eq hp.lastRowFits]
        rfl
  | offset =>
    -- only a struct has no offsets
    cases hk : p.kind with
    | struct =>
      by_cases hzero : p.ctx.rowCount = 0
      · rw [sourceRange_of_zero hzero]
        rfl
      · rw [sourceRange_of_pos (Nat.pos_of_ne_zero hzero), hk]
        rfl
    | list =>
      exact hp.copySlicedOffset hfit hranges (by simp [hk]) check
    | leaf t =>
      exact hp.copySlicedOffset hfit hranges (by simp [hk]) check
  | data =>
    by_cases hzero : p.ctx.rowCount = 0
    · cases hk : p.kind with
      | leaf t => exact hp.copySlicedData hfit hranges hk
      | list =>
        rw [sourceRange_of_zero hzero]
        rfl
      | struct =>
        rw [sourceRange_of_zero hzero]
        rfl
    · cases hk : p.kind with
      | leaf t => exact hp.copySlicedData hfit hranges hk
      | list =>
        rw [sourceRange_of_pos (Nat.pos_of_ne_zero hzero), hk]
        rfl
      | struct =>
        rw [sourceRange_of_pos (Nat.pos_of_ne_zero hzero), hk]
        rfl

end CopyRange

/-! ### The lengths in the header -/

/-- The length of the range of a part. -/
def rangeLength (bufferType : BufferType) (p : Part) : Int :=
  (rangeBytes (sourceRange bufferType p)).length

section Lengths

variable {p : Part} {type : BufferType} {range : CopyRange}

theorem rangeLength_of_none (h : sourceRange type p = none) : rangeLength type p = 0 := by
  unfold rangeLength
  rw [h]
  rfl

theorem PartRead.rangeLength_of_some (hp : PartRead p) (h : sourceRange type p = some range) :
    rangeLength type p = range.length := by
  unfold rangeLength
  rw [h]
  exact (hp.copyDataFrom h).2

theorem rangeLength_struct (hk : p.kind = .struct) (htype : type ≠ .validity) :
    rangeLength type p = 0 := by
  refine rangeLength_of_none ?_
  by_cases hzero : p.ctx.rowCount = 0
  · exact sourceRange_of_zero hzero
  · rw [sourceRange_of_pos (Nat.pos_of_ne_zero hzero), hk]
    cases type with
    | validity => exact absurd rfl htype
    | offset => rfl
    | data => rfl

theorem rangeLength_list (hk : p.kind = .list) : rangeLength .data p = 0 := by
  refine rangeLength_of_none ?_
  by_cases hzero : p.ctx.rowCount = 0
  · exact sourceRange_of_zero hzero
  · rw [sourceRange_of_pos (Nat.pos_of_ne_zero hzero), hk]
    rfl

open KudoTableHeaderCalc

theorem PartRead.dataLenOfValidityBuffer (hp : PartRead p) :
    KudoTableHeaderCalc.dataLenOfValidityBuffer p.val p.ctx = rangeLength .validity p := by
  unfold KudoTableHeaderCalc.dataLenOfValidityBuffer hasValidityVector
  by_cases hzero : p.ctx.rowCount = 0
  · rw [rangeLength_of_none (sourceRange_of_zero hzero), if_neg (by simp [hzero])]
  · have hsource : sourceRange .validity p = rowsRange .validity p.kind p.val p.ctx :=
      sourceRange_of_pos (Nat.pos_of_ne_zero hzero)
    cases hv : p.val.validity with
    | none =>
      have hnone : sourceRange .validity p = none := by
        rw [hsource]
        show p.val.validity.map _ = none
        rw [hv]
        rfl
      rw [rangeLength_of_none hnone, if_neg (by simp)]
    | some v =>
      have hsome : sourceRange .validity p =
          some ⟨some v, (p.ctx.offset / 8 : Nat), (p.ctx.validityBytes : Nat)⟩ := by
        rw [hsource]
        show p.val.validity.map _ = _
        rw [hv]
        rfl
      rw [hp.rangeLength_of_some hsome, if_pos (by simp [Nat.pos_of_ne_zero hzero]),
        SliceInfo.bufferLength_eq hp.lastRowFits]

/-- The length of the offsets of a column that has them. -/
theorem PartRead.rangeLength_offset (hp : PartRead p) (hk : p.kind ≠ .struct) :
    (if p.val.offsets.isSome ∧ 0 < p.ctx.rowCount then ((p.ctx.rowCount + 1) * 4 : Int) else 0) =
      rangeLength .offset p := by
  cases ho : p.val.offsets with
  | none =>
    rw [rangeLength_of_none (sourceRange_offset_none ho), if_neg (by simp)]
  | some offsets =>
    by_cases hzero : p.ctx.rowCount = 0
    · rw [rangeLength_of_none (sourceRange_of_zero hzero), if_neg (by omega)]
    · have hpos := Nat.pos_of_ne_zero hzero
      have hlen := hp.rangeLength_of_some (sourceRange_offset hk hpos ho)
      dsimp only at hlen
      rw [hlen, if_pos ⟨rfl, hpos⟩]
      omega

theorem PartRead.dataLenOfOffsetBuffer (hp : PartRead p) {t : LeafType} (hk : p.kind = .leaf t) :
    KudoTableHeaderCalc.dataLenOfOffsetBuffer t p.ctx = rangeLength .offset p := by
  rw [← hp.rangeLength_offset (by simp [hk])]
  unfold KudoTableHeaderCalc.dataLenOfOffsetBuffer
  cases t with
  | fixedWidth width =>
    have hnone : ¬p.val.offsets.isSome := by
      intro hsome
      have hoffsets := hp.hasOffsets hsome
      rw [hk] at hoffsets
      exact absurd hoffsets (by simp [Kudo.hasOffsets, LeafType.hasOffsets])
    rw [if_neg (by simp), if_neg (fun h => hnone h.1)]
  | string =>
    by_cases hzero : p.ctx.rowCount = 0
    · rw [if_neg (by omega), if_neg (by omega)]
    · have hpos := Nat.pos_of_ne_zero hzero
      have hsome : p.val.offsets.isSome := by
        by_contra hnone
        refine hzero (hp.rowCount_of_none ?_ (Option.not_isSome_iff_eq_none.1 hnone))
        rw [hk]
        rfl
      rw [if_pos ⟨rfl, hpos⟩, if_pos ⟨hsome, hpos⟩]

theorem PartRead.dataLenOfDataBuffer (hp : PartRead p) (hfit : PositionsFit p)
    (hranges : RangesFit p) {t : LeafType} (hk : p.kind = .leaf t) :
    KudoTableHeaderCalc.dataLenOfDataBuffer t p.val p.ctx = .ok (rangeLength .data p) := by
  unfold KudoTableHeaderCalc.dataLenOfDataBuffer
  cases t with
  | string =>
    cases ho : p.val.offsets with
    | none =>
      have hzero : p.ctx.rowCount = 0 := by
        refine hp.rowCount_of_none ?_ ho
        rw [hk]
        rfl
      rw [rangeLength_of_none (sourceRange_of_zero hzero)]
    | some offsets =>
      obtain ⟨first, last, hfirst, hlast, hoffset, hcount⟩ := hp.getInts hfit ho
      dsimp only
      rw [hfirst, hlast, ok_bind, ok_bind, hcount]
      refine congrArg Except.ok ?_
      unfold readSlice
      by_cases hpos : 0 < p.ctx.rowCount
      · rw [if_pos hpos, childSlice, if_neg (by omega)]
        have hsource := sourceRange_string hk hpos
        cases hd : p.val.data with
        | none =>
          rw [hd] at hsource
          rw [rangeLength_of_none hsource]
          exact congrArg Nat.cast (hp.offset_sub_of_none hk hd)
        | some d =>
          rw [hd] at hsource
          exact (hp.rangeLength_of_some hsource).symm
      · rw [if_neg hpos, rangeLength_of_none (sourceRange_of_zero (by omega))]
        rfl
  | fixedWidth width =>
    dsimp only
    refine congrArg Except.ok ?_
    by_cases hpos : 0 < p.ctx.rowCount
    · have hsource := sourceRange_fixedWidth hk hpos
      -- a width of zero has no source, and its length is zero too
      by_cases hwidth : width = 0
      · rw [if_pos hwidth] at hsource
        rw [if_neg (by omega), rangeLength_of_none hsource]
      · rw [if_neg hwidth] at hsource
        have hlen := hp.length_le hranges hsource
        dsimp only at hlen
        rw [if_pos (by omega), hp.rangeLength_of_some hsource]
        push_cast at hlen ⊢
        exact javaInt_of_bounds (le_trans (by decide) (Int.mul_nonneg (by omega) (by omega))) hlen
    · have hzero : p.ctx.rowCount = 0 := by omega
      rw [rangeLength_of_none (sourceRange_of_zero hzero), hzero, Nat.cast_zero, mul_zero]
      exact ite_self _

end Lengths

end SparkRapids.Kudo
