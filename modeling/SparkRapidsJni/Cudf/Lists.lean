import SparkRapidsJni.Lib.PrefixSums

/-!
# `cudf`: lists columns and null masks

The functions of the library are arguments, as in `Cudf.Strings`, each with what its documentation says of
the calls here. What it leaves open is left open: a read outside of a column, a row that is not there.

Every class has an instance that computes, for runs on given columns.
-/

namespace SparkRapids.Cudf

open PrefixSums

/-! ### Views -/

/-- A row is valid in a mask, or without one. -/
def IsValid (mask : Option (ℕ → Bool)) (i : ℕ) : Bool := mask.elim true fun bit => bit i

/-- `lists_column_view`: the whole offsets and the whole child of a lists column, and the rows of the
view. The offsets up to the last row of the view are in order and inside the child. -/
structure ListsColumnView (α : Type) where
  offsets : ℕ → Int32
  /-- `offsets().size()` -/
  offsetsSize : ℕ
  child : List α
  nullMask : Option (ℕ → Bool)
  offset : ℕ
  size : ℕ
  offsetsSize_gt : 0 < size → offset + size < offsetsSize
  offsets_nonneg : 0 ≤ (offsets 0).toInt
  offsets_mono : ∀ k < offset + size, (offsets k).toInt ≤ (offsets (k + 1)).toInt
  offsets_le : (offsets (offset + size)).toInt ≤ child.length
  child_lt : child.length < 2 ^ 31

namespace ListsColumnView

variable {α : Type} (input : ListsColumnView α)

/-- `offsets_begin` -/
def offsetsBegin (k : ℕ) : Int32 := input.offsets (input.offset + k)

def isNull (i : ℕ) : Bool := !IsValid input.nullMask (input.offset + i)

/-- The offset of a list, as an index. -/
def position (k : ℕ) : ℕ := (input.offsetsBegin k).toInt.toNat

/-- The list that a row has, null or not. -/
def list (i : ℕ) : List α := (input.child.take (input.position (i + 1))).drop (input.position i)

/-- Where the sliced child begins. -/
def childStart : ℕ := if 0 < input.offset then input.position 0 else 0

variable {i j k : ℕ}

theorem offsets_nonneg_of_le (hk : k ≤ input.offset + input.size) : 0 ≤ (input.offsets k).toInt := by
  induction k with
  | zero => exact input.offsets_nonneg
  | succ k ih => exact (ih (by omega)).trans (input.offsets_mono k (by omega))

/-- The offset of a list is not negative, so nothing is lost in its index. -/
theorem toInt_offsetsBegin (hk : k ≤ input.size) :
    (input.offsetsBegin k).toInt = input.position k :=
  (Int.toNat_of_nonneg (input.offsets_nonneg_of_le (by omega))).symm

theorem position_le_succ (hi : i < input.size) : input.position i ≤ input.position (i + 1) :=
  Int.toNat_le_toNat (input.offsets_mono _ (by omega))

theorem position_mono (hij : i ≤ j) (hj : j ≤ input.size) : input.position i ≤ input.position j := by
  induction j, hij using Nat.le_induction with
  | base => exact le_rfl
  | succ j _ ih => exact (ih (by omega)).trans (input.position_le_succ (by omega))

theorem position_size_le : input.position input.size ≤ input.child.length := by
  have h := input.offsets_le
  unfold position offsetsBegin
  omega

theorem position_lt (hk : k ≤ input.size) : input.position k < 2 ^ 31 :=
  ((input.position_mono hk le_rfl).trans input.position_size_le).trans_lt input.child_lt

end ListsColumnView

/-- `lists_column_view::get_sliced_child` -/
class GetSlicedChild (α : Type) where
  getSlicedChild (input : ListsColumnView α) : List α
  /-- It begins with the first list of the view, or with the child where the rows begin with the column. -/
  getElem?_eq : ∀ (input : ListsColumnView α) {k : ℕ},
    input.childStart + k < input.position input.size →
      (getSlicedChild input)[k]? = input.child[input.childStart + k]?
  /-- It ends with the last list of the view, unless the view has all rows. -/
  length_eq : ∀ input : ListsColumnView α, (0 < input.offset ∨ input.size < input.offsetsSize - 1 ∨
    input.position input.size = input.child.length) →
      (getSlicedChild input).length = input.position input.size - input.childStart

export GetSlicedChild (getSlicedChild)

instance (α : Type) : GetSlicedChild α where
  getSlicedChild input :=
    if 0 < input.offset ∨ input.size < input.offsetsSize - 1 then
      (input.child.take (input.position input.size)).drop input.childStart
    else input.child
  getElem?_eq input k hk := by
    split
    · rw [List.getElem?_drop, List.getElem?_take_of_lt hk]
    · rename_i hall
      rw [ListsColumnView.childStart, if_neg fun h => hall (.inl h), Nat.zero_add]
  length_eq input h := by
    split
    · rw [List.length_drop, List.length_take, Nat.min_eq_left input.position_size_le]
    · rename_i hall
      rw [ListsColumnView.childStart, if_neg fun h => hall (.inl h)]
      tauto

/-! ### Segments -/

/-- `cudf::detail::label_segments`: the segment that an index is in, counted from the first offset on. -/
class LabelSegments where
  labelSegments (offsets : ℕ → ℕ) (numSegments i : ℕ) : ℕ
  labelSegments_eq : ∀ {offsets : ℕ → ℕ} {n k i : ℕ}, (∀ k < n, offsets k ≤ offsets (k + 1)) → k < n →
    offsets k ≤ offsets 0 + i → offsets 0 + i < offsets (k + 1) → labelSegments offsets n i = k

export LabelSegments (labelSegments labelSegments_eq)

/-- It counts the segments that end before. -/
instance : LabelSegments where
  labelSegments offsets numSegments i :=
    ((List.range numSegments).filter fun k => offsets (k + 1) ≤ offsets 0 + i).length
  labelSegments_eq {offsets n k i} hmono hk hle hlt := by
    have hmono' : ∀ {a b}, a ≤ b → b ≤ n → offsets a ≤ offsets b := by
      intro a b hab
      induction b, hab using Nat.le_induction with
      | base => exact fun _ => le_rfl
      | succ b _ ih => exact fun hb => (ih (by omega)).trans (hmono b hb)
    have hfilter : (List.range n).filter (fun k' => offsets (k' + 1) ≤ offsets 0 + i) =
        (List.range n).filter (· < k) := by
      refine List.filter_congr fun k' hk' => decide_eq_decide.2 ⟨fun hle' => ?_, fun hlt' => ?_⟩
      · by_contra hge
        have := hmono' (show k + 1 ≤ k' + 1 by omega) (List.mem_range.1 hk')
        omega
      · exact (hmono' hlt' hk.le).trans hle
    obtain ⟨m, rfl⟩ := Nat.exists_eq_add_of_lt hk
    -- the labels below `k` are the first ones
    rw [hfilter, show k + m + 1 = k + (m + 1) by omega, List.range_add, List.filter_append,
      List.length_append, List.filter_eq_self.2 (fun k' hk' => by simpa using hk'), List.length_range,
      List.filter_eq_nil_iff.2, List.length_nil, Nat.add_zero]
    intro k' hk'
    obtain ⟨m', -, rfl⟩ := List.mem_map.1 hk'
    simp

/-- Of segments one behind the other. -/
theorem labelSegments_exclusiveScan [LabelSegments] {size : ℕ → ℕ} {n j k : ℕ} (hk : k < n)
    (hj : j < size k) :
    labelSegments (exclusiveScan size) n (exclusiveScan size k + j) = k := by
  have hzero : exclusiveScan size 0 = 0 := rfl
  have hsucc := exclusiveScan_succ size k
  exact labelSegments_eq (fun k _ => exclusiveScan_mono size k.le_succ) hk (by omega) (by omega)

/-- `cudf::detail::make_offsets_child_column`: the offsets and how many elements there are, or none where
it throws. -/
class MakeOffsetsChildColumn where
  makeOffsetsChildColumn (numRows : ℕ) (sizes : ℕ → Int32) : Option ((ℕ → Int32) × ℕ)
  /-- Sums in range are the offsets. -/
  exists_eq : ∀ {numRows : ℕ} {sizes : ℕ → Int32} {n : ℕ → ℕ},
    (∀ i < numRows, (sizes i).toInt = n i) → exclusiveScan n numRows < 2 ^ 31 →
      ∃ offsets, makeOffsetsChildColumn numRows sizes = some (offsets, exclusiveScan n numRows) ∧
        ∀ k ≤ numRows, (offsets k).toInt = exclusiveScan n k

export MakeOffsetsChildColumn (makeOffsetsChildColumn)

instance : MakeOffsetsChildColumn where
  makeOffsetsChildColumn numRows sizes :=
    let offsets := exclusiveScan fun i => (sizes i).toInt.toNat
    if offsets numRows < 2 ^ 31 then some (fun k => Int32.ofNat (offsets k), offsets numRows) else none
  exists_eq {numRows sizes n} hsizes hlt := by
    have hscan : ∀ k ≤ numRows, exclusiveScan (fun i => (sizes i).toInt.toNat) k = exclusiveScan n k :=
      fun k hk => exclusiveScan_congr fun i hi => by rw [hsizes i (hi.trans_le hk), Int.toNat_natCast]
    dsimp only
    rw [hscan numRows le_rfl, if_pos hlt]
    refine ⟨_, rfl, fun k hk => ?_⟩
    rw [hscan k hk, Int32.toInt_ofNat_of_lt ((exclusiveScan_mono n hk).trans_lt hlt)]

/-! ### Gathers -/

/-- `cudf::detail::gather`, with `DONT_CHECK` and `NOT_ALLOWED`: an index is one of the source. -/
class Gather (α : Type) where
  gather (source : List α) (gatherMap : List Int32) : List (Option α)
  getElem?_gather : ∀ {source : List α} {gatherMap : List Int32} {p k : ℕ} {index : Int32},
    gatherMap[p]? = some index → index.toInt = k → k < source.length →
      (gather source gatherMap)[p]? = some source[k]?

export Gather (gather getElem?_gather)

/-- An element outside of the source is none. -/
instance (α : Type) : Gather α where
  gather source gatherMap := gatherMap.map fun index => source[index.toInt.toNat]?
  getElem?_gather hp hk _ := by
    rw [List.getElem?_map, hp, Option.map_some, hk, Int.toNat_natCast]

/-! ### Null masks -/

/-- The functions on null masks. -/
class NullMasks where
  /-- `cudf::bitmask_and`, of masks and the offsets of their views -/
  bitmaskAnd : List (Option (ℕ → Bool) × ℕ) → Option (ℕ → Bool)
  /-- `cudf::copy_bitmask`, of a view -/
  copyBitmask (mask : Option (ℕ → Bool)) (offset : ℕ) : Option (ℕ → Bool)
  /-- `column::set_null_mask`, with nulls: whether a mask of so many bits is taken for so many rows. -/
  fits (numBits size : ℕ) : Bool
  isValid_bitmaskAnd : ∀ masks i, IsValid (bitmaskAnd masks) i =
    masks.all fun mask => IsValid mask.1 (mask.2 + i)
  isValid_copyBitmask : ∀ mask offset i,
    IsValid (copyBitmask mask offset) i = IsValid mask (offset + i)
  fits_self : ∀ size, fits size size = true

export NullMasks (bitmaskAnd copyBitmask isValid_bitmaskAnd isValid_copyBitmask)

/-- A mask is padded to 64 bytes. -/
instance : NullMasks where
  bitmaskAnd masks := some fun i => masks.all fun mask => IsValid mask.1 (mask.2 + i)
  copyBitmask mask offset := mask.map fun bit i => bit (offset + i)
  fits numBits size := (size + 511) / 512 ≤ (numBits + 511) / 512
  isValid_bitmaskAnd _ _ := rfl
  isValid_copyBitmask mask _ _ := by cases mask <;> rfl
  fits_self _ := decide_eq_true le_rfl

end SparkRapids.Cudf
