import SparkRapidsJni.CastStringToFloat.Parser
import SparkRapidsJni.Lib.Threads
import SparkRapidsJni.Lib.MachineInt

/-!
# `cast_string_to_float.cu`: the kernel

Each warp of a launch converts one row, eight of them in a block. What they share are the validity mask, the
number of valid rows and, in ANSI mode, the row to throw for, as the maximum of the numbers of rows from
a row on to the end. These are changed by atomic operations only, so their values at the end are the same
for every order of the warps.

Three things keep the result from what is asked for (`convertsExactly_iff`). A row is numbered by a thread,
in 32 bits: from `2 ^ 26` rows on the numbers of threads are negative as `size_type`, which lets warps
behind the last row go on, and from `2 ^ 27` rows on they start again. The column is read without the offset
of the view. And the error is reported by thread 0 of a block only, that is, for each eighth row, and only
where the parser has set `_except`.
-/

namespace SparkRapids.CastStringToFloat

open MachineInt

/-! ### Columns -/

/-- `strings_column_view`. The mask and the offsets do not account for the offset of the view. -/
structure StringsColumn where
  offset : ℕ
  size : ℕ
  nullMask : Option (ℕ → Bool)
  offsets : ℕ → ℕ
  chars : List Byte
  size_lt : size < 2 ^ 31

namespace StringsColumn

variable (col : StringsColumn)

/-- The string between two offsets. -/
def string (i : ℕ) : List Byte :=
  (col.chars.drop (col.offsets i)).take (col.offsets (i + 1) - col.offsets i)

/-- `bit_is_set`, where there is a mask -/
def isValid (i : ℕ) : Bool := col.nullMask.elim true fun mask => mask i

/-- A row of the column. -/
def row (r : ℕ) : Option (List Byte) :=
  if col.isValid (col.offset + r) then some (col.string (col.offset + r)) else none

/-- A row that is not null, and whose string is not the one of a number. -/
def Invalid (r : ℕ) : Prop := ∃ s ∈ col.row r, (convert s).valid = false

/-- The rows that are null or invalid. -/
def badRows : ℕ :=
  ((Finset.range col.size).filter fun r => (col.row r).all fun s => !(convert s).valid).card

end StringsColumn

/-! ### The launch -/

/-- `warps_per_block` -/
def warpsPerBlock : ℕ := 8

/-- `num_blocks` -/
def numBlocks (size : ℕ) : ℕ := (size + warpsPerBlock - 1) / warpsPerBlock

/-- `threadIdx.x + (blockDim.x * blockIdx.x)`, an `unsigned int` -/
def globalThread (block thread : ℕ) : ℕ := (thread + warpsPerBlock * 32 * block) % 2 ^ 32

/-- `_warp_id`, which is `_row` -/
def warpId (block thread : ℕ) : ℕ := globalThread block thread / 32

/-- `row >= num_rows`, with `row` of the `size_type` `tid` -/
def returns (size block thread : ℕ) : Bool :=
  (int32 (globalThread block thread)).tdiv 32 ≥ (size : ℤ)

/-- The warps of the launch, numbered through the blocks. -/
def warps (size : ℕ) : List ℕ := List.range (numBlocks size * warpsPerBlock)

/-- The first thread of a warp. -/
def firstThread (warp : ℕ) : ℕ := 32 * (warp % warpsPerBlock)

/-- The row that a warp converts. -/
def warpRow (warp : ℕ) : ℕ := warpId (warp / warpsPerBlock) (firstThread warp)

/-- The warp has a row to convert. -/
def converts (size warp : ℕ) : Bool := !returns size (warp / warpsPerBlock) (firstThread warp)

/-- The rows that are converted. -/
def processed (size : ℕ) : List ℕ := ((warps size).filter (converts size)).map warpRow

/-! ### The results -/

/-- What the warps share. -/
structure Results where
  validity : ℕ → Bool
  validCount : ℤ
  ansiExcept : ℤ

inductive AtomicOp
  | setBit (row : ℕ)
  | addValid
  | maxExcept (value : ℤ)

/-- `set_bit`, `atomicAdd` and `atomicMax` -/
def apply (m : Results) : AtomicOp → Option Results
  | .setBit row => some { m with validity := Function.update m.validity row true }
  | .addValid => some { m with validCount := int32 (m.validCount + 1) }
  | .maxExcept value => some { m with ansiExcept := max m.ansiExcept value }

/-- `compute_validity`, by the first lane of a warp. -/
def computeValidity (ansiMode : Bool) (size thread row : ℕ) (valid except : Bool) : List AtomicOp :=
  (if thread = 0 && ansiMode && except then [.maxExcept (size - row)] else []) ++
    if thread % 32 = 0 && valid then [.setBit row, .addValid] else []

section Kernel

variable (col : StringsColumn) (ansiMode : Bool)

/-- `_valid` and `_except` for a row. -/
def flags (row : ℕ) : Bool × Bool :=
  if !col.isValid row then (false, false)
  else ((convert (col.string row)).valid, (convert (col.string row)).except)

/-- What a warp does to the results. -/
def warpOps (warp : ℕ) : List AtomicOp :=
  if converts col.size warp then
    computeValidity ansiMode col.size (firstThread warp) (warpRow warp)
      (flags col (warpRow warp)).1 (flags col (warpRow warp)).2
  else []

/-- The warps of `string_to_float_kernel`, before the first operation. -/
def launch : Threads Results AtomicOp where
  memory := { validity := fun _ => false, validCount := 0, ansiExcept := -1 }
  pending := (warps col.size).map (warpOps col ansiMode)

/-- `cast_error` -/
structure CastError where
  rowWithError : ℕ
  stringWithError : List Byte

/-- The column of floats, without the values. -/
structure FloatColumn where
  validity : ℕ → Bool
  nullCount : ℤ

/-- `string_to_float`, from the results on. -/
def finish (m : Results) : Except CastError FloatColumn :=
  if ansiMode && m.ansiExcept ≥ 0 then
    let errorRow := (col.size - m.ansiExcept).toNat
    .error ⟨errorRow, col.string errorRow⟩
  else .ok ⟨m.validity, col.size - m.validCount⟩

/-- `string_to_float` returns or throws this, for some order of the warps. -/
def StringToFloat (result : Except CastError FloatColumn) : Prop :=
  if col.size = 0 then result = .ok ⟨fun _ => false, 0⟩
  else ∃ s, (Threads.lts apply (launch col ansiMode)).Reachable s ∧ s.Done ∧
    result = finish col ansiMode s.memory

/-- Each row of the column is converted once, and no other; the rows that are null or invalid are counted;
and in ANSI mode the first invalid row is thrown for, if there is one. -/
structure ConvertsExactly : Prop where
  once : ∀ i, (processed col.size).count i =
    if col.offset ≤ i ∧ i < col.offset + col.size then 1 else 0
  counts : ∀ out, StringToFloat col ansiMode (.ok out) → out.nullCount = col.badRows
  throws : ∀ result, StringToFloat col ansiMode result →
    ((∃ e, result = .error e) ↔ ansiMode = true ∧ ∃ r < col.size, col.Invalid r)
  names : ∀ e, StringToFloat col ansiMode (.error e) →
    IsLeast {r | r < col.size ∧ col.Invalid r} e.rowWithError ∧
      col.row e.rowWithError = some e.stringWithError

/-- The rows can be numbered in 32 bits. -/
def Numbered (size : ℕ) : Prop := size ≤ 2 ^ 26 ∨ size ≤ 2 ^ 27 ∧ 8 ∣ size

end Kernel

/-! ### The rows of the warps -/

theorem globalThread_warp (warp lane : ℕ) (hlane : lane < 32) :
    globalThread (warp / warpsPerBlock) (firstThread warp + lane) =
      32 * (warp % 2 ^ 27) + lane := by
  unfold globalThread firstThread warpsPerBlock
  omega

theorem warpId_warp (warp lane : ℕ) (hlane : lane < 32) :
    warpId (warp / warpsPerBlock) (firstThread warp + lane) = warp % 2 ^ 27 := by
  rw [warpId, globalThread_warp warp lane hlane]
  omega

theorem warpRow_eq (warp : ℕ) : warpRow warp = warp % 2 ^ 27 := warpId_warp warp 0 (by decide)

/-- A number of a thread that is negative as `size_type` is no reason to return. -/
theorem returns_warp {size : ℕ} (hsize : 0 < size) (warp lane : ℕ) (hlane : lane < 32) :
    returns size (warp / warpsPerBlock) (firstThread warp + lane) = true ↔
      warp % 2 ^ 27 < 2 ^ 26 ∧ size ≤ warp % 2 ^ 27 := by
  rw [returns, globalThread_warp warp lane hlane, decide_eq_true_iff]
  by_cases hlow : warp % 2 ^ 27 < 2 ^ 26
  · rw [int32_of_range (by omega) (by omega)]
    rw [Int.tdiv_eq_ediv_of_nonneg (by omega)]
    omega
  · obtain ⟨thread, hthread⟩ : ∃ thread : ℕ, thread = 32 * (warp % 2 ^ 27) + lane := ⟨_, rfl⟩
    have hnegative : int32 (thread : ℤ) = -((2 ^ 32 - thread : ℕ) : ℤ) := by
      rw [int32, Int.bmod]
      split_ifs <;> omega
    rw [← hthread, hnegative, Int.neg_tdiv, Int.tdiv_eq_ediv_of_nonneg (Int.natCast_nonneg _)]
    omega

theorem converts_iff {size : ℕ} (hsize : 0 < size) (warp : ℕ) :
    converts size warp = true ↔ warp % 2 ^ 27 < size ∨ 2 ^ 26 ≤ warp % 2 ^ 27 := by
  have h := returns_warp hsize warp 0 (by decide)
  rw [Nat.add_zero] at h
  rw [converts, Bool.not_eq_true', ← Bool.not_eq_true, h]
  omega

/-- As far as rows can be numbered, the warps are the ones of the rows, and some that return. -/
theorem warps_eq {size : ℕ} (hsize : 0 < size) (h : Numbered size) : ∃ more : List ℕ,
    warps size = List.range size ++ more ∧ (∀ warp < size, converts size warp = true ∧ warpRow warp = warp) ∧
      ∀ warp ∈ more, converts size warp = false := by
  have hle : size ≤ numBlocks size * warpsPerBlock := by
    unfold numBlocks warpsPerBlock
    omega
  refine ⟨(List.range (numBlocks size * warpsPerBlock - size)).map (size + ·), ?_, ?_, ?_⟩
  · rw [warps, ← List.range_add, Nat.add_sub_cancel' hle]
  · intro warp hwarp
    have hsmall : warp % 2 ^ 27 = warp := by
      apply Nat.mod_eq_of_lt
      unfold Numbered at h
      omega
    rw [converts_iff hsize, warpRow_eq, hsmall]
    exact ⟨.inl hwarp, rfl⟩
  · intro warp hwarp
    obtain ⟨i, hi, rfl⟩ := List.mem_map.1 hwarp
    rw [List.mem_range] at hi
    rw [← Bool.not_eq_true, converts_iff hsize]
    unfold Numbered at h
    unfold numBlocks warpsPerBlock at hi
    omega

theorem processed_eq {size : ℕ} (h : Numbered size) : processed size = List.range size := by
  obtain rfl | hsize := Nat.eq_zero_or_pos size
  · rfl
  obtain ⟨more, hwarps, hrows, hmore⟩ := warps_eq hsize h
  have hall : (List.range size).filter (converts size) = List.range size :=
    List.filter_eq_self.2 fun warp hwarp => (hrows warp (List.mem_range.1 hwarp)).1
  have hnone : more.filter (converts size) = [] :=
    List.filter_eq_nil_iff.2 fun warp hwarp => by rw [hmore warp hwarp]; exact Bool.false_ne_true
  rw [processed, hwarps, List.filter_append, hall, hnone, List.append_nil]
  exact (List.map_congr_left fun warp hwarp => (hrows warp (List.mem_range.1 hwarp)).2).trans
    (List.map_id _)

/-- The rows are converted once each just where they can be numbered, and the view has no offset. -/
theorem once_iff (col : StringsColumn) :
    (∀ i, (processed col.size).count i =
      if col.offset ≤ i ∧ i < col.offset + col.size then 1 else 0) ↔
    col.size = 0 ∨ col.offset = 0 ∧ Numbered col.size := by
  obtain hzero | hsize := Nat.eq_zero_or_pos col.size
  · refine iff_of_true (fun i => ?_) (.inl hzero)
    rw [hzero, if_neg (by omega)]
    exact List.count_nil
  have hwarp : ∀ warp, warp < col.size + (8 - col.size % 8) % 8 → warp ∈ warps col.size := by
    intro warp hlt
    rw [warps, List.mem_range]
    unfold numBlocks warpsPerBlock
    omega
  have hmem : ∀ warp, warp ∈ warps col.size → converts col.size warp = true →
      warp ∈ (warps col.size).filter (converts col.size) := fun warp hw hc =>
    List.mem_filter.2 ⟨hw, hc⟩
  constructor
  · intro honce
    right
    -- the first warp converts the row 0
    have hfirst : 0 ∈ (warps col.size).filter (converts col.size) := by
      apply hmem 0 (hwarp 0 (by omega))
      rw [converts_iff hsize]
      exact .inl hsize
    have hoffset : col.offset = 0 := by
      have hrow : 0 ∈ processed col.size := List.mem_map.2 ⟨0, hfirst, warpRow_eq 0⟩
      have hcount := List.count_pos_iff.2 hrow
      rw [honce] at hcount
      split_ifs at hcount with hin
      · exact Nat.le_zero.1 hin.1
      · exact absurd hcount (Nat.lt_irrefl 0)
    refine ⟨hoffset, ?_⟩
    have hnodup : (processed col.size).Nodup := by
      rw [List.nodup_iff_count_le_one]
      intro i
      rw [honce]
      split_ifs <;> decide
    by_contra hnot
    unfold Numbered at hnot
    by_cases hlarge : 2 ^ 27 < col.size
    · -- the warp `2 ^ 27` converts the row 0 once more
      have hagain : 2 ^ 27 ∈ (warps col.size).filter (converts col.size) := by
        apply hmem _ (hwarp _ (by omega))
        rw [converts_iff hsize]
        exact .inl hsize
      have heq := List.inj_on_of_nodup_map hnodup hfirst hagain
        ((warpRow_eq 0).trans (warpRow_eq (2 ^ 27)).symm)
      exact absurd heq (by decide)
    · -- the warp behind the last row goes on
      have hbehind : col.size ∈ (warps col.size).filter (converts col.size) := by
        apply hmem _ (hwarp _ (by omega))
        rw [converts_iff hsize]
        omega
      have hrow : col.size ∈ processed col.size :=
        List.mem_map.2 ⟨col.size, hbehind, by rw [warpRow_eq]; omega⟩
      have hcount := List.count_pos_iff.2 hrow
      rw [honce, if_neg (by omega)] at hcount
      exact absurd hcount (Nat.lt_irrefl 0)
  · rintro (hzero | ⟨hoffset, hnumbered⟩) i
    · omega
    · rw [processed_eq hnumbered, List.nodup_range.count]
      apply if_congr _ rfl rfl
      rw [List.mem_range]
      omega

/-! ### The results of all warps -/

section Runs

variable (col : StringsColumn) (ansi : Bool)

/-- What is done for a row, where the warps are numbered by the rows. -/
def rowOps (row : ℕ) : List AtomicOp :=
  computeValidity ansi col.size (firstThread row) row (flags col row).1 (flags col row).2

/-- The rows that the error is reported for. -/
def reported (row : ℕ) : Bool := row % 8 = 0 && (flags col row).2

def isAddValid : AtomicOp → Bool
  | .addValid => true
  | _ => false

def exceptValue : AtomicOp → Option ℤ
  | .maxExcept value => some value
  | _ => none

variable {col ansi}

theorem pending_eq (hsize : 0 < col.size) (h : Numbered col.size) :
    (launch col ansi).pending.flatten = (List.range col.size).flatMap (rowOps col ansi) := by
  obtain ⟨more, hwarps, hrows, hmore⟩ := warps_eq hsize h
  have hpending : (launch col ansi).pending.flatten =
      (warps col.size).flatMap (warpOps col ansi) := List.flatMap_def.symm
  have hnone : more.flatMap (warpOps col ansi) = [] := by
    rw [List.flatMap_eq_nil_iff]
    intro warp hwarp
    rw [warpOps, hmore warp hwarp]
    rfl
  rw [hpending, hwarps, List.flatMap_append, hnone, List.append_nil]
  apply List.flatMap_congr
  intro warp hwarp
  obtain ⟨hconverts, hrow⟩ := hrows warp (List.mem_range.1 hwarp)
  rw [warpOps, if_pos hconverts, hrow]
  rfl

theorem foldlM_cons {ops : List AtomicOp} {op : AtomicOp} {m m' : Results}
    (h : (op :: ops).foldlM apply m = some m') :
    ∃ m1, apply m op = some m1 ∧ ops.foldlM apply m1 = some m' := by
  rw [List.foldlM_cons, Option.bind_eq_bind] at h
  exact Option.bind_eq_some_iff.1 h

theorem foldlM_validCount {ops : List AtomicOp} {m m' : Results} {count : ℤ}
    (hm : m.validCount = int32 count) (h : ops.foldlM apply m = some m') :
    m'.validCount = int32 (count + ops.countP isAddValid) := by
  induction ops generalizing m count with
  | nil =>
    obtain rfl := Option.some.inj h
    rw [hm, List.countP_nil, Nat.cast_zero, add_zero]
  | cons op ops ih =>
    obtain ⟨m1, hm1, h⟩ := foldlM_cons h
    cases op with
    | addValid =>
      obtain rfl := Option.some.inj hm1
      have hstep : int32 (m.validCount + 1) = int32 (count + 1) := by
        rw [hm]
        exact Int.bmod_add_bmod
      rw [ih hstep h, List.countP_cons_of_pos rfl, Nat.cast_succ]
      congr 1
      ring
    | setBit row =>
      obtain rfl := Option.some.inj hm1
      rw [ih (m := { m with validity := Function.update m.validity row true }) hm h,
        List.countP_cons_of_neg Bool.false_ne_true]
    | maxExcept value =>
      obtain rfl := Option.some.inj hm1
      rw [ih (m := { m with ansiExcept := max m.ansiExcept value }) hm h,
        List.countP_cons_of_neg Bool.false_ne_true]

theorem foldlM_ansiExcept {ops : List AtomicOp} {m m' : Results}
    (h : ops.foldlM apply m = some m') :
    m'.ansiExcept = (ops.filterMap exceptValue).foldl max m.ansiExcept := by
  induction ops generalizing m with
  | nil =>
    obtain rfl := Option.some.inj h
    rfl
  | cons op ops ih =>
    obtain ⟨m1, hm1, h⟩ := foldlM_cons h
    have hrest := ih h
    cases op <;> obtain rfl := Option.some.inj hm1 <;> exact hrest

theorem foldl_max_cases (values : List ℤ) (start : ℤ) :
    (values.foldl max start = start ∨ values.foldl max start ∈ values) ∧
      start ≤ values.foldl max start ∧ ∀ v ∈ values, v ≤ values.foldl max start := by
  induction values generalizing start with
  | nil => exact ⟨.inl rfl, le_rfl, nofun⟩
  | cons v values ih =>
    obtain ⟨hmem, hstart, hle⟩ := ih (max start v)
    rw [List.foldl_cons]
    refine ⟨?_, (le_max_left ..).trans hstart, ?_⟩
    · rcases hmem with heq | hmem
      · rw [heq]
        rcases max_choice start v with hmax | hmax
        · exact .inl hmax
        · right
          rw [hmax]
          exact List.mem_cons_self ..
      · exact .inr (List.mem_cons_of_mem _ hmem)
    · exact List.forall_mem_cons.2 ⟨(le_max_right ..).trans hstart, hle⟩

theorem firstThread_eq_zero (row : ℕ) : firstThread row = 0 ↔ row % 8 = 0 := by
  unfold firstThread warpsPerBlock
  omega

theorem countP_rowOps (rows : List ℕ) :
    (rows.flatMap (rowOps col ansi)).countP isAddValid =
      rows.countP fun row => (flags col row).1 := by
  induction rows with
  | nil => rfl
  | cons row rows ih =>
    have hlane : firstThread row % 32 = 0 := Nat.mul_mod_right 32 _
    rw [List.flatMap_cons, List.countP_append, ih, List.countP_cons, Nat.add_comm]
    congr 1
    unfold rowOps computeValidity
    rw [List.countP_append, hlane]
    split_ifs <;> simp_all [isAddValid]

theorem filterMap_rowOps (rows : List ℕ) :
    (rows.flatMap (rowOps col ansi)).filterMap exceptValue =
      (rows.filter fun row => ansi && reported col row).map fun row : ℕ => (col.size : ℤ) - row := by
  induction rows with
  | nil => rfl
  | cons row rows ih =>
    have hrow : (rowOps col ansi row).filterMap exceptValue =
        if ansi && reported col row then [(col.size : ℤ) - row] else [] := by
      unfold rowOps computeValidity reported
      rw [List.filterMap_append]
      simp only [firstThread_eq_zero]
      cases ansi <;> cases (flags col row).2 <;> by_cases hfirst : row % 8 = 0 <;>
        split_ifs <;> simp_all [exceptValue]
    rw [List.flatMap_cons, List.filterMap_append, hrow, ih, List.filter_cons]
    split_ifs <;> rfl

/-- The result for every order of the warps: in ANSI mode, the first row that is reported. -/
theorem stringToFloat_cases (hsize : 0 < col.size) (hnumbered : Numbered col.size)
    {result : Except CastError FloatColumn} (h : StringToFloat col ansi result) :
    (ansi = true ∧ ∃ r, IsLeast {r | r < col.size ∧ reported col r = true} r ∧
      result = .error ⟨r, col.string r⟩) ∨
    ((ansi = true → ∀ r < col.size, reported col r = false) ∧ ∃ validity, result = .ok
      ⟨validity, col.size - (List.range col.size).countP fun row => (flags col row).1⟩) := by
  rw [StringToFloat, if_neg hsize.ne'] at h
  obtain ⟨s, hreach, hdone, rfl⟩ := h
  obtain ⟨ops, hperm, hmemory⟩ := hdone.exists_perm hreach
  rw [pending_eq hsize hnumbered] at hperm
  -- the number of valid rows
  have hcount : s.memory.validCount =
      ((List.range col.size).countP fun row => (flags col row).1 : ℕ) := by
    have hle : (List.range col.size).countP (fun row => (flags col row).1) ≤ col.size :=
      List.countP_le_length.trans List.length_range.le
    have hlt := col.size_lt
    have hstart : (launch col ansi).memory.validCount = int32 0 := rfl
    rw [foldlM_validCount hstart hmemory, hperm.countP_eq, countP_rowOps, zero_add,
      int32_of_range (by omega) (by omega)]
  -- the maximum over the rows that are reported
  have hexcept : s.memory.ansiExcept =
      (((List.range col.size).filter fun row => ansi && reported col row).map
        fun row : ℕ => (col.size : ℤ) - row).foldl max (-1) := by
    have hvalues := hperm.filterMap exceptValue
    rw [filterMap_rowOps] at hvalues
    rw [foldlM_ansiExcept hmemory]
    exact hvalues.foldl_eq (-1)
  obtain ⟨hmem, -, hmax⟩ := foldl_max_cases
    (((List.range col.size).filter fun row => ansi && reported col row).map
      fun row : ℕ => (col.size : ℤ) - row) (-1)
  rw [← hexcept] at hmem hmax
  rw [finish, hcount]
  by_cases hreported : ansi = true ∧ ∃ r < col.size, reported col r = true
  · left
    obtain ⟨hansi, r, hr, hrep⟩ := hreported
    have hmemValue : ∀ r < col.size, reported col r = true → (col.size : ℤ) - r ∈
        ((List.range col.size).filter fun row => ansi && reported col row).map
          fun row : ℕ => (col.size : ℤ) - row := by
      intro r hr hrep
      refine List.mem_map.2 ⟨r, List.mem_filter.2 ⟨List.mem_range.2 hr, ?_⟩, rfl⟩
      rw [hansi, hrep]
      rfl
    have hpos : s.memory.ansiExcept ≥ 0 := by
      have := hmax _ (hmemValue r hr hrep)
      omega
    -- the maximum is the value of a row
    obtain ⟨first, hfirst, hvalue⟩ := List.mem_map.1 (hmem.resolve_left fun h => by omega)
    obtain ⟨hlt, hfirst⟩ := List.mem_filter.1 hfirst
    rw [List.mem_range] at hlt
    have hrow : ((col.size : ℤ) - s.memory.ansiExcept).toNat = first := by omega
    refine ⟨hansi, first, ⟨⟨hlt, (Bool.and_eq_true_iff.1 hfirst).2⟩, ?_⟩, ?_⟩
    · rintro r' ⟨hr', hrep'⟩
      have := hmax _ (hmemValue r' hr' hrep')
      omega
    · rw [hansi, decide_eq_true hpos, hrow]
      rfl
  · right
    have hnone : ansi = true → ∀ r < col.size, reported col r = false := by
      intro hansi r hr
      rw [← Bool.not_eq_true]
      intro hrep
      exact hreported ⟨hansi, r, hr, hrep⟩
    have hempty : ((List.range col.size).filter fun row => ansi && reported col row) = [] := by
      rw [List.filter_eq_nil_iff]
      intro r hr hrow
      rw [Bool.and_eq_true_iff] at hrow
      exact hreported ⟨hrow.1, r, List.mem_range.1 hr, hrow.2⟩
    have hstart : ¬(s.memory.ansiExcept ≥ 0) := by
      rw [hexcept, hempty, List.map_nil, List.foldl_nil]
      decide
    refine ⟨hnone, s.memory.validity, ?_⟩
    rw [decide_eq_false hstart, Bool.and_false]
    rfl

/-! ### Which columns are converted exactly -/

theorem exists_stringToFloat (col : StringsColumn) (ansi : Bool) :
    ∃ result, StringToFloat col ansi result := by
  unfold StringToFloat
  split_ifs with hsize
  · exact ⟨_, rfl⟩
  · have htotal : ∀ (m : Results) op, ∃ m', apply m op = some m' := by
      intro m op
      cases op <;> exact ⟨_, rfl⟩
    obtain ⟨s, hreach, hdone⟩ := Threads.exists_done_of_total (launch col ansi) htotal
    exact ⟨_, s, hreach, hdone, rfl⟩

variable (hoffset : col.offset = 0)
include hoffset

/-- The parser's flags say which rows are null or invalid. -/
theorem flags_valid (r : ℕ) : (flags col r).1 = !(col.row r).all fun s => !(convert s).valid := by
  unfold flags StringsColumn.row
  rw [hoffset, Nat.zero_add]
  cases col.isValid r with
  | false => rfl
  | true => exact (Bool.not_not _).symm

theorem flags_except (r : ℕ) : (flags col r).2 = true ↔
    col.Invalid r ∧ ∀ s ∈ col.row r, ¬InfWithOthers s := by
  unfold flags StringsColumn.Invalid StringsColumn.row
  rw [hoffset, Nat.zero_add]
  cases col.isValid r with
  | false => simp
  | true => simp [except_convert_iff]

theorem row_of_invalid {r : ℕ} (h : col.Invalid r) : col.row r = some (col.string r) := by
  obtain ⟨s, hs, -⟩ := h
  unfold StringsColumn.row at hs ⊢
  rw [hoffset, Nat.zero_add] at hs ⊢
  split_ifs at hs ⊢ with hvalid
  · rfl
  · cases hs

theorem badRows_eq : (col.badRows : ℤ) =
    col.size - (List.range col.size).countP fun row => (flags col row).1 := by
  have hcard : col.badRows = (List.range col.size).countP fun row => !(flags col row).1 := by
    have hrow : ∀ r, (!(flags col r).1) = (col.row r).all fun s => !(convert s).valid := by
      intro r
      rw [flags_valid hoffset, Bool.not_not]
    have hfilter : col.badRows = ((List.range col.size).filter fun r =>
        decide (((col.row r).all fun s => !(convert s).valid) = true)).length := rfl
    simp only [hfilter, hrow, List.countP_eq_length_filter, Bool.decide_eq_true]
  have hlen := List.length_eq_countP_add_countP (l := List.range col.size)
    fun row => (flags col row).1
  rw [List.length_range] at hlen
  simp only [decide_not, Bool.decide_eq_true] at hlen
  rw [hcard]
  omega

omit hoffset in
/-- Where a row is invalid, one is the first. -/
theorem exists_first {r : ℕ} (hr : r < col.size) (h : col.Invalid r) :
    ∃ first, IsLeast {r | r < col.size ∧ col.Invalid r} first := by
  have hne : {r | r < col.size ∧ col.Invalid r}.Nonempty := ⟨r, hr, h⟩
  exact ⟨_, Nat.sInf_mem hne, fun _ => Nat.sInf_le⟩

/-- The first reported row, where it is the first invalid one. -/
theorem isLeast_reported_iff
    (hfirst : ∀ r, IsLeast {r | r < col.size ∧ col.Invalid r} r → 8 ∣ r ∧ ∀ s ∈ col.row r, ¬InfWithOthers s)
    (r : ℕ) :
    IsLeast {r | r < col.size ∧ reported col r = true} r ↔
      IsLeast {r | r < col.size ∧ col.Invalid r} r := by
  have hinvalid : ∀ r, reported col r = true → col.Invalid r := by
    intro r hr
    exact ((flags_except hoffset r).1 (Bool.and_eq_true_iff.1 hr).2).1
  have hleast : ∀ r, IsLeast {r | r < col.size ∧ col.Invalid r} r →
      IsLeast {r | r < col.size ∧ reported col r = true} r := by
    intro r hr
    obtain ⟨hdvd, hword⟩ := hfirst r hr
    refine ⟨⟨hr.1.1, ?_⟩, fun r' hr' => hr.2 ⟨hr'.1, hinvalid r' hr'.2⟩⟩
    rw [reported, Bool.and_eq_true_iff, flags_except hoffset]
    exact ⟨decide_eq_true (Nat.mod_eq_zero_of_dvd hdvd), hr.1.2, hword⟩
  constructor
  · intro hr
    obtain ⟨first, hmin⟩ := exists_first hr.1.1 (hinvalid r hr.1.2)
    rwa [hr.unique (hleast first hmin)]
  · exact hleast r

end Runs

/-- A column is converted exactly just where its rows can be numbered and its view has no offset, or it has
no rows, and in ANSI mode its first invalid row is the first row of a block, and not an infinity with
other characters. -/
theorem convertsExactly_iff (col : StringsColumn) (ansi : Bool) : ConvertsExactly col ansi ↔
    (col.size = 0 ∨ col.offset = 0 ∧ Numbered col.size) ∧
      (ansi = true → ∀ r, IsLeast {r | r < col.size ∧ col.Invalid r} r →
        8 ∣ r ∧ ∀ s ∈ col.row r, ¬InfWithOthers s) := by
  obtain hzero | hsize := Nat.eq_zero_or_pos col.size
  · have hnorow : ∀ r, ¬r < col.size := fun r hr => by omega
    refine iff_of_true ⟨(once_iff col).2 (.inl hzero), ?_, ?_, ?_⟩
      ⟨.inl hzero, fun _ r hr => absurd hr.1.1 (hnorow r)⟩
    · intro out hresult
      rw [StringToFloat, if_pos hzero] at hresult
      obtain rfl := Except.ok.inj hresult
      rw [StringsColumn.badRows, hzero]
      rfl
    · intro result hresult
      rw [StringToFloat, if_pos hzero] at hresult
      subst hresult
      exact iff_of_false nofun fun ⟨_, r, hr, _⟩ => hnorow r hr
    · intro e hresult
      rw [StringToFloat, if_pos hzero] at hresult
      cases hresult
  constructor
  · intro h
    obtain ⟨hoffset, hnumbered⟩ := ((once_iff col).1 h.once).resolve_left hsize.ne'
    refine ⟨.inr ⟨hoffset, hnumbered⟩, fun hansi r hr => ?_⟩
    -- the row that is reported is at a multiple of 8, and is not an `inf` with more behind it
    obtain ⟨result, hresult⟩ := exists_stringToFloat col ansi
    obtain ⟨e, rfl⟩ := (h.throws result hresult).2 ⟨hansi, r, hr.1⟩
    obtain ⟨hleast, -⟩ := h.names e hresult
    obtain rfl := hleast.unique hr
    rcases stringToFloat_cases hsize hnumbered hresult with ⟨-, r, hreported, heq⟩ | ⟨-, validity, heq⟩
    · obtain rfl := Except.error.inj heq
      have hrow := Bool.and_eq_true_iff.1 hreported.1.2
      exact ⟨Nat.dvd_of_mod_eq_zero (of_decide_eq_true hrow.1), ((flags_except hoffset _).1 hrow.2).2⟩
    · cases heq
  · rintro ⟨hrows, hfirst⟩
    obtain ⟨hoffset, hnumbered⟩ := hrows.resolve_left hsize.ne'
    refine ⟨(once_iff col).2 hrows, ?_, ?_, ?_⟩
    · intro out hresult
      rcases stringToFloat_cases hsize hnumbered hresult with ⟨-, r, -, heq⟩ | ⟨-, validity, heq⟩
      · cases heq
      · obtain rfl := Except.ok.inj heq
        exact (badRows_eq hoffset).symm
    · intro result hresult
      rcases stringToFloat_cases hsize hnumbered hresult with ⟨hansi, r, hr, rfl⟩ | ⟨hnone, validity, rfl⟩
      · have hleast := (isLeast_reported_iff hoffset (hfirst hansi) r).1 hr
        exact iff_of_true ⟨_, rfl⟩ ⟨hansi, r, hleast.1⟩
      · refine iff_of_false nofun ?_
        rintro ⟨hansi, r, hr, hinvalid⟩
        -- the first invalid row would be reported
        obtain ⟨first, hleast⟩ := exists_first hr hinvalid
        obtain ⟨hlt, hreported⟩ := ((isLeast_reported_iff hoffset (hfirst hansi) first).2 hleast).1
        rw [hnone hansi first hlt] at hreported
        exact Bool.false_ne_true hreported
    · intro e hresult
      rcases stringToFloat_cases hsize hnumbered hresult with ⟨hansi, r, hr, heq⟩ | ⟨-, validity, heq⟩
      · obtain rfl := Except.error.inj heq
        have hleast := (isLeast_reported_iff hoffset (hfirst hansi) r).1 hr
        exact ⟨hleast, row_of_invalid hoffset hleast.1.2⟩
      · cases heq

/-- The strings `1` and `x`. -/
def oneThenX : StringsColumn where
  offset := 0
  size := 2
  nullMask := none
  offsets := id
  chars := ['1', 'x'].map Ascii.chr
  size_lt := by decide

/-- The second row is invalid, and nothing is thrown for it. -/
theorem not_convertsExactly :
    ¬∀ (col : StringsColumn) (ansi : Bool), ConvertsExactly col ansi := by
  intro h
  have hexact := h oneThenX true
  have hinvalid : oneThenX.Invalid 1 := ⟨['x'].map Ascii.chr, rfl, by decide +kernel⟩
  obtain ⟨result, hresult⟩ := exists_stringToFloat oneThenX true
  obtain ⟨e, rfl⟩ := (hexact.throws result hresult).2 ⟨rfl, 1, by decide, hinvalid⟩
  rcases stringToFloat_cases (by decide) (.inl (by decide)) hresult with
    ⟨-, r, hr, -⟩ | ⟨-, validity, heq⟩
  · have hnone : ∀ r < 2, reported oneThenX r = false := by decide +kernel
    obtain ⟨hlt, hreported⟩ := hr.1
    rw [hnone r hlt] at hreported
    exact Bool.false_ne_true hreported
  · cases heq

end SparkRapids.CastStringToFloat
