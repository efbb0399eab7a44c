import SparkRapidsJni.Lib.Checks
import SparkRapidsJni.Multiply.Values

/-!
# `multiply.cu`: columns

Two columns of one integer type are multiplied, or a column and a scalar. A row of the result is null
where a factor is null, and, with the check on, where the product overflows. In ANSI mode,
`throw_row_error_if_any` then looks for the first row that is null in the result but not in the inputs.

For that it reads the null masks of the inputs at the number of the row, without the offset of the view,
while the kernel reads them with the offset. So it finds the first row that overflows if, up to this row,
the bits it reads say nothing that the rows themselves do not (`MasksAgree`), and only then
(`multipliesExactly_iff`).
-/

namespace SparkRapids.Multiply

open Checks

variable {T : NumericType}

/-! ### Views -/

/-- `column_view`: the buffers of a column, and the rows of the view. `null_mask` is null if there is no
mask, and does not account for the offset. -/
structure ColumnView (T : NumericType) where
  data : ℕ → T.Value
  nullMask : Option (ℕ → Bool)
  offset : ℕ
  size : ℕ

namespace ColumnView

/-- The row is not null. -/
def isValid (c : ColumnView T) (idx : ℕ) : Bool :=
  c.nullMask.elim true fun mask => mask (c.offset + idx)

/-- `element<T>(idx)` -/
def element (c : ColumnView T) (idx : ℕ) : T.Value := c.data (c.offset + idx)

/-- `null_count()` -/
def nullCount (c : ColumnView T) : ℕ :=
  ((Finset.range c.size).filter fun idx => c.isValid idx = false).card

/-- `has_nulls()` -/
def hasNulls (c : ColumnView T) : Bool := 0 < c.nullCount

/-- A row of the column, as an integer. -/
def row (c : ColumnView T) (idx : ℕ) : Option ℤ :=
  if c.isValid idx then some (c.element idx).toInt else none

end ColumnView

/-- `numeric_scalar` -/
structure Scalar (T : NumericType) where
  value : T.Value
  isValid : Bool

/-- What a pair iterator gives for a row: the value, and whether it is valid. -/
abbrev Accessor (T : NumericType) : Type := ℕ → T.Value × Bool

/-- `make_pair_iterator<T, has_nulls>(column)` -/
def ColumnView.pairIterator (hasNulls : Bool) (c : ColumnView T) : Accessor T := fun idx =>
  (c.element idx, if hasNulls then c.isValid idx else true)

/-- `make_pair_iterator<T>(scalar)` -/
def Scalar.pairIterator (s : Scalar T) : Accessor T := fun _ => (s.value, s.isValid)

/-! ### The kernel -/

/-- `multiply_fn`: the result of a row, or none if `validity` is set to false. -/
def multiplyFn (left right : Accessor T) (checkOverflow : Bool) (rowIdx : ℕ) : Option T.Value :=
  if !(left rowIdx).2 || !(right rowIdx).2 then none
  else multiplyValues T (left rowIdx).1 (right rowIdx).1 checkOverflow

/-- `multiply_no_validity_fn` -/
def multiplyNoValidityFn (left right : Accessor T) (rowIdx : ℕ) : T.Value :=
  times T (left rowIdx).1 (right rowIdx).1

/-- A new column, with a mask if a row is null. A null row keeps what its memory had. -/
def ofRows (numRows : ℕ) (rows : ℕ → Option T.Value) : ColumnView T where
  data idx := (rows idx).getD 0
  nullMask :=
    if ((Finset.range numRows).filter fun idx => (rows idx).isSome = false).card > 0 then
      some fun idx => (rows idx).isSome
    else none
  offset := 0
  size := numRows

/-- `multiply_impl` -/
def multiplyImpl (numRows : ℕ) (left right : Accessor T) (checkOverflow bothInputsValid : Bool) :
    ColumnView T :=
  -- both inputs are valid and no overflow check is needed: the result has no nulls
  if bothInputsValid && !checkOverflow then
    { data := multiplyNoValidityFn left right, nullMask := none, offset := 0, size := numRows }
  else ofRows numRows (multiplyFn left right checkOverflow)

/-- The inputs of the three functions `multiply`. -/
inductive Inputs (T : NumericType)
  | columns (left right : ColumnView T)
  | columnScalar (left : ColumnView T) (right : Scalar T)
  | scalarColumn (left : Scalar T) (right : ColumnView T)

/-- `dispatch_multiply` -/
def dispatchMultiply (checkOverflow : Bool) : Inputs T → ColumnView T
  | .columns left right =>
    multiplyImpl left.size (left.pairIterator left.hasNulls) (right.pairIterator right.hasNulls)
      checkOverflow (!left.hasNulls && !right.hasNulls)
  | .columnScalar left right =>
    let bothValid := !left.hasNulls && right.isValid
    if left.hasNulls then
      multiplyImpl left.size (left.pairIterator true) right.pairIterator checkOverflow false
    else multiplyImpl left.size (left.pairIterator false) right.pairIterator checkOverflow bothValid
  | .scalarColumn left right =>
    let bothValid := left.isValid && !right.hasNulls
    if right.hasNulls then
      multiplyImpl right.size left.pairIterator (right.pairIterator true) checkOverflow false
    else multiplyImpl right.size left.pairIterator (right.pairIterator false) checkOverflow bothValid

/-! ### Errors -/

inductive Exception
  | logicError (what : String)
  | exceptionWithRowIndex (rowIndex : ℕ)
deriving DecidableEq, Repr

/-- `check_multiply_inputs`, for one type. -/
def checkMultiplyInputs (leftSize rightSize : ℕ) (isAnsiMode isTryMode : Bool) :
    Except Exception Unit := do
  expects (leftSize = rightSize) (.logicError "Input columns must have the same size")
  expects (!(isAnsiMode && isTryMode))
    (.logicError "Cannot enable both ANSI mode and TRY mode at the same time")

/-- `is_not_null`, of a mask -/
def isNotNull (mask : Option (ℕ → Bool)) (idx : ℕ) : Bool := mask.elim true fun mask => mask idx

/-- `is_null`, of a mask -/
def isNull (mask : Option (ℕ → Bool)) (idx : ℕ) : Bool := !isNotNull mask idx

/-- `throw` at the first row, if there is one. -/
def throwFirst (size : ℕ) (invalid : ℕ → Bool) : Except Exception Unit :=
  match (List.range size).find? invalid with
  | some idx => .error (.exceptionWithRowIndex idx)
  | none => .ok ()

/-- `throw_row_error_if_any(input, result)` -/
def throwRowErrorIfAny (input result : ColumnView T) : Except Exception Unit := do
  expects (input.size = result.size)
    (.logicError "The row counts of the input and result columns must match.")
  -- no rows to check, so no errors
  if result.size = 0 then return
  else if result.nullCount > input.nullCount then
    -- `row_invalid_unary_fn`
    throwFirst result.size fun idx => isNotNull input.nullMask idx && isNull result.nullMask idx
  else return

/-- `throw_row_error_if_any(input1, input2, result)` -/
def throwRowErrorIfAny₂ (input1 input2 result : ColumnView T) : Except Exception Unit := do
  expects (input1.size = input2.size && input2.size = result.size)
    (.logicError "The row counts of the input and result columns must match.")
  if result.size = 0 then return
  else
    -- `row_invalid_binary_fn`
    throwFirst result.size fun idx =>
      isNotNull input1.nullMask idx && isNotNull input2.nullMask idx && isNull result.nullMask idx

/-- `throw_row_error_if_any(input1, scalar, result)`; the one with the scalar first calls it. -/
def throwRowErrorIfAnyScalar (input1 : ColumnView T) (input2 : Scalar T) (result : ColumnView T) :
    Except Exception Unit := do
  expects (input1.size = result.size)
    (.logicError "The row counts of the input and result columns must match.")
  if input2.isValid then throwRowErrorIfAny input1 result
  else
    expects (result.nullCount = result.size)
      (.logicError "If the scalar is null, the result must be all null.")

/-- The check of the inputs, in each `multiply`. -/
def checkInputs (isAnsiMode isTryMode : Bool) : Inputs T → Except Exception Unit
  | .columns left right => checkMultiplyInputs left.size right.size isAnsiMode isTryMode
  | .columnScalar left _ => checkMultiplyInputs left.size left.size isAnsiMode isTryMode
  | .scalarColumn _ right => checkMultiplyInputs right.size right.size isAnsiMode isTryMode

/-- The check of the result, in each `multiply`. -/
def throwIfOverflow (result : ColumnView T) : Inputs T → Except Exception Unit
  | .columns left right => throwRowErrorIfAny₂ left right result
  | .columnScalar left right => throwRowErrorIfAnyScalar left right result
  | .scalarColumn left right => throwRowErrorIfAnyScalar right left result

/-- `multiply` -/
def multiply (inputs : Inputs T) (isAnsiMode isTryMode : Bool) : Except Exception (ColumnView T) := do
  checkInputs isAnsiMode isTryMode inputs
  let result := dispatchMultiply (isAnsiMode || isTryMode) inputs
  -- throw an error if any row has an overflow if ANSI mode is enabled
  if isAnsiMode then
    throwIfOverflow result inputs
    return result
  else return result

/-! ### The products -/

namespace Inputs

/-- The number of rows. -/
def numRows : Inputs T → ℕ
  | columns left _ => left.size
  | columnScalar left _ => left.size
  | scalarColumn _ right => right.size

/-- Two columns have as many rows. -/
def SizesMatch : Inputs T → Prop
  | columns left right => left.size = right.size
  | columnScalar _ _ => True
  | scalarColumn _ _ => True

/-- The factors of a row, if neither is null. -/
def factors : Inputs T → ℕ → Option (T.Value × T.Value)
  | columns left right, idx =>
    if left.isValid idx && right.isValid idx then some (left.element idx, right.element idx) else none
  | columnScalar left right, idx =>
    if left.isValid idx && right.isValid then some (left.element idx, right.value) else none
  | scalarColumn left right, idx =>
    if left.isValid && right.isValid idx then some (left.value, right.element idx) else none

/-- The factors of the row are not null, and their product does not fit. -/
def Overflows (inputs : Inputs T) (idx : ℕ) : Prop :=
  ∃ x y, inputs.factors idx = some (x, y) ∧ ¬Fits T.bits (x.toInt * y.toInt)

/-- The first row that overflows. -/
structure FirstOverflow (inputs : Inputs T) (idx : ℕ) : Prop where
  lt_numRows : idx < inputs.numRows
  overflows : inputs.Overflows idx
  not_before : ∀ j < idx, ¬inputs.Overflows j

/-- A row of the result: the exact product with a check for overflow, and without it the product modulo
`2 ^ w`. -/
def productRow (inputs : Inputs T) (checkOverflow : Bool) (idx : ℕ) : Option ℤ :=
  (inputs.factors idx).bind fun (x, y) =>
    if !checkOverflow then some ((x.toInt * y.toInt).bmod (2 ^ T.bits))
    else if Fits T.bits (x.toInt * y.toInt) then some (x.toInt * y.toInt) else none

/-- What `multiply` is to do: in ANSI mode it throws at the first row that overflows, if there is one;
otherwise each row is the product. -/
def MultipliesExactly (inputs : Inputs T) (isAnsiMode isTryMode : Bool) : Prop :=
  match multiply inputs isAnsiMode isTryMode with
  | .ok result =>
    result.size = inputs.numRows ∧
      (∀ idx < inputs.numRows,
        result.row idx = inputs.productRow (isAnsiMode || isTryMode) idx) ∧
      (isAnsiMode → ∀ idx < inputs.numRows, ¬inputs.Overflows idx)
  | .error (.exceptionWithRowIndex rowIndex) => isAnsiMode ∧ inputs.FirstOverflow rowIndex
  | .error (.logicError _) => False

/-- The bits of the masks at the number of a row are set: what `throw_row_error_if_any` takes for rows
that are not null. -/
def BitsSet : Inputs T → ℕ → Prop
  | columns left right, idx =>
    isNotNull left.nullMask idx = true ∧ isNotNull right.nullMask idx = true
  | columnScalar left _, idx => isNotNull left.nullMask idx = true
  | scalarColumn _ right, idx => isNotNull right.nullMask idx = true

/-- The bits at the number of a row agree with the row, as far as the first overflow: they are set there,
and not set where an input is null before it. With a scalar, they are looked at only if there is an
overflow. -/
def MasksAgree (inputs : Inputs T) : Prop :=
  (∀ e, inputs.FirstOverflow e → inputs.BitsSet e) ∧
    match inputs with
    | columns _ _ => ∀ idx < inputs.numRows, (∀ j ≤ idx, ¬inputs.Overflows j) → inputs.BitsSet idx →
        (inputs.factors idx).isSome
    | _ => ∀ e, inputs.FirstOverflow e → ∀ idx < e, inputs.BitsSet idx → (inputs.factors idx).isSome

end Inputs

/-! ### The rows of the result -/

section Rows

variable {idx numRows : ℕ} {left right : Accessor T} {checkOverflow : Bool} {inputs : Inputs T}

theorem ColumnView.isValid_of_hasNulls {c : ColumnView T} (h : c.hasNulls = false) (hidx : idx < c.size) :
    c.isValid idx = true := by
  by_contra hvalid
  rw [Bool.not_eq_true] at hvalid
  have hcount : 0 < c.nullCount := by
    apply Finset.card_pos.2
    exact ⟨idx, Finset.mem_filter.2 ⟨Finset.mem_range.2 hidx, hvalid⟩⟩
  exact absurd (decide_eq_true hcount) (by rw [show decide (0 < c.nullCount) = false from h]; decide)

/-- Without nulls, the iterator may take every row for valid. -/
theorem ColumnView.pairIterator_eq {c : ColumnView T} (hidx : idx < c.size) :
    c.pairIterator c.hasNulls idx = (c.element idx, c.isValid idx) := by
  unfold ColumnView.pairIterator
  cases h : c.hasNulls with
  | true => rfl
  | false => rw [if_neg Bool.false_ne_true, isValid_of_hasNulls h hidx]

/-- The iterators give the factors, and no null if `both` says so. -/
structure Supplies (left right : Accessor T) (both : Bool) (inputs : Inputs T) : Prop where
  factors_eq : ∀ idx < inputs.numRows, inputs.factors idx =
    if (left idx).2 && (right idx).2 then some ((left idx).1, (right idx).1) else none
  both_valid : both = true → ∀ idx < inputs.numRows, (left idx).2 = true ∧ (right idx).2 = true

theorem dispatchMultiply_eq (h : inputs.SizesMatch) : ∃ left right both,
    dispatchMultiply checkOverflow inputs =
      multiplyImpl inputs.numRows left right checkOverflow both ∧
    Supplies left right both inputs := by
  cases inputs with
  | columns l r =>
    refine ⟨_, _, _, rfl, ⟨fun idx hidx => ?_, fun hboth idx hidx => ?_⟩⟩
    · rw [ColumnView.pairIterator_eq hidx, ColumnView.pairIterator_eq (h ▸ hidx)]
      rfl
    · rw [ColumnView.pairIterator_eq hidx, ColumnView.pairIterator_eq (h ▸ hidx)]
      rw [Bool.and_eq_true, Bool.not_eq_true', Bool.not_eq_true'] at hboth
      exact ⟨ColumnView.isValid_of_hasNulls hboth.1 hidx,
        ColumnView.isValid_of_hasNulls hboth.2 (h ▸ hidx)⟩
  | columnScalar l r =>
    -- with and without nulls, the iterator is the same up to its parameter
    refine ⟨l.pairIterator l.hasNulls, r.pairIterator, !l.hasNulls && r.isValid, ?_,
      ⟨fun idx hidx => ?_, fun hboth idx hidx => ?_⟩⟩
    · unfold dispatchMultiply
      dsimp only
      cases l.hasNulls with
      | true => exact if_pos rfl
      | false => exact if_neg Bool.false_ne_true
    · rw [ColumnView.pairIterator_eq hidx]
      rfl
    · rw [ColumnView.pairIterator_eq hidx]
      rw [Bool.and_eq_true, Bool.not_eq_true'] at hboth
      exact ⟨ColumnView.isValid_of_hasNulls hboth.1 hidx, hboth.2⟩
  | scalarColumn l r =>
    refine ⟨l.pairIterator, r.pairIterator r.hasNulls, l.isValid && !r.hasNulls, ?_,
      ⟨fun idx hidx => ?_, fun hboth idx hidx => ?_⟩⟩
    · unfold dispatchMultiply
      dsimp only
      cases r.hasNulls with
      | true => rw [Bool.not_true, Bool.and_false]; exact if_pos rfl
      | false => exact if_neg Bool.false_ne_true
    · rw [ColumnView.pairIterator_eq hidx]
      rfl
    · rw [ColumnView.pairIterator_eq hidx]
      rw [Bool.and_eq_true, Bool.not_eq_true'] at hboth
      exact ⟨hboth.1, ColumnView.isValid_of_hasNulls hboth.2 hidx⟩

/-- The new column has the rows it is made of. -/
theorem row_ofRows {rows : ℕ → Option T.Value} (hidx : idx < numRows) :
    (ofRows numRows rows).row idx = (rows idx).map BitVec.toInt := by
  have hvalid : (ofRows numRows rows).isValid idx = (rows idx).isSome := by
    by_cases hcard : ((Finset.range numRows).filter fun idx => (rows idx).isSome = false).card > 0
    · have hmask : (ofRows numRows rows).nullMask = some fun idx => (rows idx).isSome := if_pos hcard
      rw [ColumnView.isValid, hmask]
      show (rows (0 + idx)).isSome = _
      rw [Nat.zero_add]
    · have hmask : (ofRows numRows rows).nullMask = none := if_neg hcard
      rw [ColumnView.isValid, hmask]
      by_contra hne
      apply hcard
      apply Finset.card_pos.2
      refine ⟨idx, Finset.mem_filter.2 ⟨Finset.mem_range.2 hidx, ?_⟩⟩
      rw [← Bool.not_eq_true]
      exact fun h => hne h.symm
  have helement : (ofRows numRows rows).element idx = (rows idx).getD 0 := by
    show (rows (0 + idx)).getD 0 = _
    rw [Nat.zero_add]
  rw [ColumnView.row, hvalid, helement]
  cases rows idx <;> rfl

/-- A row of the kernel is the product. -/
theorem map_multiplyFn {both : Bool} (h : Supplies left right both inputs)
    (hidx : idx < inputs.numRows) : (multiplyFn left right checkOverflow idx).map BitVec.toInt =
      inputs.productRow checkOverflow idx := by
  unfold multiplyFn Inputs.productRow
  rw [h.factors_eq idx hidx, ← Bool.not_and]
  cases (left idx).2 && (right idx).2 with
  | false => rfl
  | true =>
    show (multiplyValues T _ _ checkOverflow).map BitVec.toInt = _
    rw [multiplyValues_eq]
    cases checkOverflow with
    | false => exact congrArg some (toInt_mul _ _)
    | true =>
      by_cases hfits : Fits T.bits ((left idx).1.toInt * (right idx).1.toInt)
      · simp [hfits, toInt_mul_of_fits hfits]
      · simp [hfits]

/-- The result of the kernel: a new column of the products. -/
structure IsResult (inputs : Inputs T) (checkOverflow : Bool) (result : ColumnView T) : Prop where
  size_eq : result.size = inputs.numRows
  offset_eq : result.offset = 0
  row_eq : ∀ idx < inputs.numRows, result.row idx = inputs.productRow checkOverflow idx

theorem isResult_dispatchMultiply (h : inputs.SizesMatch) (checkOverflow : Bool) :
    IsResult inputs checkOverflow (dispatchMultiply checkOverflow inputs) := by
  obtain ⟨left, right, both, heq, hsupplies⟩ := @dispatchMultiply_eq T checkOverflow inputs h
  rw [heq, multiplyImpl]
  by_cases hshort : (both && !checkOverflow) = true
  · rw [if_pos hshort]
    refine ⟨rfl, rfl, fun idx hidx => ?_⟩
    rw [Bool.and_eq_true, Bool.not_eq_true'] at hshort
    obtain ⟨hboth, rfl⟩ := hshort
    obtain ⟨hleft, hright⟩ := hsupplies.both_valid hboth idx hidx
    -- no row is null, and none is checked
    rw [← map_multiplyFn hsupplies hidx, multiplyFn, hleft, hright, multiplyValues_eq]
    show some (times T (left (0 + idx)).1 (right (0 + idx)).1).toInt = _
    rw [times_eq, Nat.zero_add]
    rfl
  · rw [if_neg hshort]
    exact ⟨rfl, rfl, fun idx hidx => (row_ofRows hidx).trans (map_multiplyFn hsupplies hidx)⟩

end Rows

/-! ### The row that is thrown -/

section Errors

variable {inputs : Inputs T} {result : ColumnView T} {invalid : ℕ → Bool} {n idx e : ℕ}

theorem Inputs.exists_firstOverflow (hlt : idx < inputs.numRows) (h : inputs.Overflows idx) :
    ∃ e ≤ idx, inputs.FirstOverflow e := by
  classical
  have hex : ∃ idx, inputs.Overflows idx := ⟨idx, h⟩
  have hle : Nat.find hex ≤ idx := Nat.find_min' hex h
  exact ⟨Nat.find hex, hle, hle.trans_lt hlt, Nat.find_spec hex, fun j hj => Nat.find_min hex hj⟩

theorem Inputs.Overflows.isSome (h : inputs.Overflows idx) : (inputs.factors idx).isSome := by
  obtain ⟨x, y, hfactors, _⟩ := h
  rw [hfactors]
  rfl

section

variable (h : IsResult inputs true result)
include h

/-- A row of the result is null if an input is null or the product overflows. -/
theorem IsResult.isNull_iff (hidx : idx < inputs.numRows) :
    isNull result.nullMask idx = true ↔
      ((inputs.factors idx).isSome → inputs.Overflows idx) := by
  have hnull : isNull result.nullMask idx = true ↔ result.row idx = none := by
    have hvalid : isNotNull result.nullMask idx = result.isValid idx := by
      rw [isNotNull, ColumnView.isValid, h.offset_eq, Nat.zero_add]
    rw [isNull, hvalid, ColumnView.row]
    cases result.isValid idx with
    | true => simp
    | false => simp
  rw [hnull, h.row_eq idx hidx, Inputs.productRow, Inputs.Overflows]
  cases inputs.factors idx with
  | none => simp
  | some p =>
    obtain ⟨x, y⟩ := p
    simp

/-- What a check of the rows is to report. -/
def Reports (inputs : Inputs T) : Except Exception Unit → Prop
  | .ok () => ∀ idx < inputs.numRows, ¬inputs.Overflows idx
  | .error (.exceptionWithRowIndex rowIndex) => inputs.FirstOverflow rowIndex
  | .error (.logicError _) => False

omit h in
/-- The search for a row ends at the first one, or there is none. -/
theorem throwFirst_cases (n : ℕ) (invalid : ℕ → Bool) :
    (throwFirst n invalid = .ok () ∧ ∀ idx < n, invalid idx = false) ∨
      ∃ e, throwFirst n invalid = .error (.exceptionWithRowIndex e) ∧ e < n ∧ invalid e = true ∧
        ∀ j < e, invalid j = false := by
  unfold throwFirst
  cases h : (List.range n).find? invalid with
  | none =>
    left
    refine ⟨rfl, fun idx hidx => ?_⟩
    rw [List.find?_eq_none] at h
    exact Bool.eq_false_iff.2 (h idx (List.mem_range.2 hidx))
  | some e =>
    right
    obtain ⟨hinvalid, hmem, hbefore⟩ := List.find?_range_eq_some.1 h
    refine ⟨e, rfl, List.mem_range.1 hmem, hinvalid, fun j hj => ?_⟩
    rw [← Bool.not_eq_true']
    exact hbefore j hj

omit h in
/-- The search looks for a row whose bits are set although the result is null. It reports the first
overflow if the bits are set there and at no row before where an input is null. -/
theorem reports_throwFirst_iff (hinvalid : ∀ idx < inputs.numRows, invalid idx = true ↔
      inputs.BitsSet idx ∧ ((inputs.factors idx).isSome → inputs.Overflows idx)) :
    Reports inputs (throwFirst inputs.numRows invalid) ↔
      (∀ e, inputs.FirstOverflow e → inputs.BitsSet e) ∧
        ∀ idx < inputs.numRows, (∀ j ≤ idx, ¬inputs.Overflows j) → inputs.BitsSet idx →
          (inputs.factors idx).isSome := by
  -- at a row that the search passes, set bits mean that the inputs are valid
  have hpassed : ∀ idx < inputs.numRows, invalid idx = false → inputs.BitsSet idx →
      (inputs.factors idx).isSome ∧ ¬inputs.Overflows idx := by
    intro idx hidx hfalse hbits
    have hnot : ¬((inputs.factors idx).isSome → inputs.Overflows idx) := by
      intro h
      rw [(hinvalid idx hidx).2 ⟨hbits, h⟩] at hfalse
      exact absurd hfalse (by decide)
    rwa [Classical.not_imp] at hnot
  constructor
  · intro hreports
    rcases throwFirst_cases inputs.numRows invalid with ⟨hok, hall⟩ | ⟨e, herror, hlt, hthrown, hbefore⟩
    · rw [hok] at hreports
      refine ⟨fun e he => absurd he.overflows (hreports e he.lt_numRows), ?_⟩
      intro idx hidx _ hbits
      exact (hpassed idx hidx (hall idx hidx) hbits).1
    · rw [herror] at hreports
      have hfirst : inputs.FirstOverflow e := hreports
      constructor
      · intro e' he'
        obtain rfl : e' = e := by
          apply le_antisymm
          · by_contra! hlt'
            exact he'.not_before e hlt' hfirst.overflows
          · by_contra! hlt'
            exact hfirst.not_before e' hlt' he'.overflows
        exact ((hinvalid e' hlt).1 hthrown).1
      · intro idx hidx hnone hbits
        have hlt' : idx < e := by
          by_contra! hle
          exact hnone e hle hfirst.overflows
        exact (hpassed idx hidx (hbefore idx hlt') hbits).1
  · rintro ⟨hset, hvalid⟩
    -- the search does not pass a row that overflows
    have hstops : ∀ idx < inputs.numRows, (∀ j ≤ idx, invalid j = false) → ¬inputs.Overflows idx := by
      intro idx hidx hpass hover
      obtain ⟨e, hle, hfirst⟩ := Inputs.exists_firstOverflow hidx hover
      exact (hpassed e hfirst.lt_numRows (hpass e hle) (hset e hfirst)).2 hfirst.overflows
    rcases throwFirst_cases inputs.numRows invalid with ⟨hok, hall⟩ | ⟨e, herror, hlt, hthrown, hbefore⟩
    · rw [hok]
      exact fun idx hidx => hstops idx hidx fun j hj => hall j (hj.trans_lt hidx)
    · rw [herror]
      obtain ⟨hbits, hnull⟩ := (hinvalid e hlt).1 hthrown
      have hearlier : ∀ j < e, ¬inputs.Overflows j := fun j hj =>
        hstops j (hj.trans hlt) fun i hi => hbefore i (hi.trans_lt hj)
      refine ⟨hlt, ?_, hearlier⟩
      by_contra hnot
      have hnone : ∀ j ≤ e, ¬inputs.Overflows j := by
        intro j hj
        rcases hj.lt_or_eq with hj' | rfl
        · exact hearlier j hj'
        · exact hnot
      exact hnot (hnull (hvalid e hlt hnone hbits))

/-- With a scalar, the search is made only if an overflow has added a null to those of the column. -/
theorem IsResult.nullCount_lt_iff {c : ColumnView T} (hsize : c.size = inputs.numRows)
    (hvalid : ∀ idx < inputs.numRows, c.isValid idx = (inputs.factors idx).isSome) :
    c.nullCount < result.nullCount ↔ ∃ idx < inputs.numRows, inputs.Overflows idx := by
  -- a row of the result is valid if the inputs are and the product fits
  have hresult : ∀ idx < inputs.numRows, result.isValid idx = false ↔
      ((inputs.factors idx).isSome → inputs.Overflows idx) := by
    intro idx hidx
    rw [← h.isNull_iff hidx, isNull, Bool.not_eq_true', isNotNull, ColumnView.isValid, h.offset_eq,
      Nat.zero_add]
  have hsub : ((Finset.range c.size).filter fun idx => c.isValid idx = false) ⊆
      (Finset.range result.size).filter fun idx => result.isValid idx = false := by
    intro idx hidx
    rw [Finset.mem_filter, Finset.mem_range, hsize] at hidx
    rw [Finset.mem_filter, Finset.mem_range, h.size_eq, hresult idx hidx.1]
    refine ⟨hidx.1, fun hsome => ?_⟩
    rw [← hvalid idx hidx.1, hidx.2] at hsome
    exact absurd hsome (by decide)
  constructor
  · intro hlt
    by_contra! hnone
    refine absurd (Finset.card_le_card ?_) hlt.not_ge
    intro idx hidx
    rw [Finset.mem_filter, Finset.mem_range, h.size_eq] at hidx
    rw [Finset.mem_filter, Finset.mem_range, hsize, hvalid idx hidx.1, Bool.eq_false_iff]
    exact ⟨hidx.1, fun hsome => hnone idx hidx.1 ((hresult idx hidx.1).1 hidx.2 hsome)⟩
  · rintro ⟨idx, hidx, hover⟩
    refine Finset.card_lt_card (Finset.ssubset_iff_subset_ne.2 ⟨hsub, fun heq => ?_⟩)
    have hmem : idx ∈ (Finset.range c.size).filter fun idx => c.isValid idx = false := by
      rw [heq, Finset.mem_filter, Finset.mem_range, h.size_eq, hresult idx hidx]
      exact ⟨hidx, fun _ => hover⟩
    rw [Finset.mem_filter, hvalid idx hidx, hover.isSome] at hmem
    exact absurd hmem.2 (by decide)

/-- The check of a column and a scalar that is not null. -/
theorem reports_throwRowErrorIfAny_iff {c : ColumnView T} (hsize : c.size = inputs.numRows)
    (hvalid : ∀ idx < inputs.numRows, c.isValid idx = (inputs.factors idx).isSome)
    (hbits : ∀ idx, inputs.BitsSet idx ↔ isNotNull c.nullMask idx = true) :
    Reports inputs (throwRowErrorIfAny c result) ↔
      (∀ e, inputs.FirstOverflow e → inputs.BitsSet e) ∧
        ∀ e, inputs.FirstOverflow e → ∀ idx < e, inputs.BitsSet idx →
          (inputs.factors idx).isSome := by
  have hsame : (c.size = result.size : Bool) = true := by
    rw [decide_eq_true_iff, hsize, h.size_eq]
  unfold throwRowErrorIfAny
  rw [hsame, expects_true]
  show Reports inputs (if result.size = 0 then _ else if _ then _ else _) ↔ _
  by_cases hover : ∃ idx < inputs.numRows, inputs.Overflows idx
  · obtain ⟨idx, hidx, hoveridx⟩ := hover
    have hne : result.size ≠ 0 := by
      rw [h.size_eq]
      exact (Nat.zero_lt_of_lt hidx).ne'
    obtain ⟨e, _, hfirst⟩ := Inputs.exists_firstOverflow hidx hoveridx
    rw [if_neg hne, if_pos ((h.nullCount_lt_iff hsize hvalid).2 ⟨idx, hidx, hoveridx⟩), h.size_eq]
    rw [reports_throwFirst_iff fun idx hidx => by
      rw [Bool.and_eq_true, ← hbits, h.isNull_iff hidx]]
    refine and_congr_right fun _ => ⟨fun hall e' he' idx hidx hset => ?_,
      fun hall idx hidx hnone hset => ?_⟩
    · exact hall idx (hidx.trans he'.lt_numRows) (fun j hj => he'.not_before j (hj.trans_lt hidx)) hset
    · have hlt : idx < e := by
        by_contra! hle
        exact hnone e hle hfirst.overflows
      exact hall e hfirst idx hlt hset
  · -- no null has been added
    have hnot : ¬result.nullCount > c.nullCount := fun hlt =>
      hover ((h.nullCount_lt_iff hsize hvalid).1 hlt)
    rw [if_neg hnot, ite_self]
    have hnone : ∀ e, ¬inputs.FirstOverflow e := fun e he => hover ⟨e, he.lt_numRows, he.overflows⟩
    refine iff_of_true (fun idx hidx hoveridx => hover ⟨idx, hidx, hoveridx⟩) ⟨?_, ?_⟩
    · exact fun e he => absurd he (hnone e)
    · exact fun e he => absurd he (hnone e)

/-- The check of a column and a scalar. -/
theorem reports_throwRowErrorIfAnyScalar_iff {c : ColumnView T} {s : Scalar T}
    (hsize : c.size = inputs.numRows)
    (hfactors : ∀ idx, (inputs.factors idx).isSome = (c.isValid idx && s.isValid))
    (hbits : ∀ idx, inputs.BitsSet idx ↔ isNotNull c.nullMask idx = true) :
    Reports inputs (throwRowErrorIfAnyScalar c s result) ↔
      (∀ e, inputs.FirstOverflow e → inputs.BitsSet e) ∧
        ∀ e, inputs.FirstOverflow e → ∀ idx < e, inputs.BitsSet idx →
          (inputs.factors idx).isSome := by
  have hsame : (c.size = result.size : Bool) = true := by
    rw [decide_eq_true_iff, hsize, h.size_eq]
  unfold throwRowErrorIfAnyScalar
  rw [hsame, expects_true]
  show Reports inputs (if _ then _ else _) ↔ _
  cases hs : s.isValid with
  | true =>
    rw [if_pos rfl]
    refine reports_throwRowErrorIfAny_iff h hsize (fun idx _ => ?_) hbits
    rw [hfactors idx, hs, Bool.and_true]
  | false =>
    -- every row of the result is null
    have hnull : ∀ idx, ¬inputs.Overflows idx := by
      intro idx hover
      have hsome := hover.isSome
      rw [hfactors idx, hs, Bool.and_false] at hsome
      exact absurd hsome (by decide)
    have hall : ((Finset.range result.size).filter fun idx => result.isValid idx = false) =
        Finset.range result.size := by
      apply Finset.filter_true_of_mem
      intro idx hidx
      rw [Finset.mem_range, h.size_eq] at hidx
      have hiff := h.isNull_iff hidx
      rw [isNull, Bool.not_eq_true', hfactors idx, hs, Bool.and_false] at hiff
      rw [ColumnView.isValid, h.offset_eq, Nat.zero_add]
      exact hiff.2 fun hfalse => absurd hfalse (by decide)
    have hcount : (result.nullCount = result.size : Bool) = true := by
      rw [decide_eq_true_iff, ColumnView.nullCount, hall, Finset.card_range]
    rw [if_neg Bool.false_ne_true, hcount, expects_true]
    refine iff_of_true (fun idx _ => hnull idx) ⟨?_, ?_⟩
    · exact fun e he => absurd he.overflows (hnull e)
    · exact fun e he => absurd he.overflows (hnull e)

end

theorem reports_throwIfOverflow_iff (hsizes : inputs.SizesMatch) (h : IsResult inputs true result) :
    Reports inputs (throwIfOverflow result inputs) ↔ inputs.MasksAgree := by
  cases inputs with
  | columns left right =>
    have hleft : left.size = result.size := h.size_eq.symm
    have hsame : (left.size = right.size && right.size = result.size : Bool) = true := by
      rw [Bool.and_eq_true, decide_eq_true_iff, decide_eq_true_iff]
      exact ⟨hsizes, hsizes.symm.trans hleft⟩
    show Reports _ (throwRowErrorIfAny₂ left right result) ↔ _
    unfold throwRowErrorIfAny₂
    rw [hsame, expects_true]
    show Reports _ (if result.size = 0 then _ else _) ↔ _
    by_cases hzero : result.size = 0
    · have hnone : ∀ idx, ¬idx < (Inputs.columns left right).numRows := by
        rw [← h.size_eq, hzero]
        exact Nat.not_lt_zero
      rw [if_pos hzero]
      refine iff_of_true (fun idx hidx => absurd hidx (hnone idx)) ⟨?_, ?_⟩
      · exact fun e he => absurd he.lt_numRows (hnone e)
      · exact fun idx hidx => absurd hidx (hnone idx)
    · rw [if_neg hzero, h.size_eq]
      apply reports_throwFirst_iff
      intro idx hidx
      rw [Bool.and_eq_true, Bool.and_eq_true, h.isNull_iff hidx]
      rfl
  | columnScalar left right =>
    refine reports_throwRowErrorIfAnyScalar_iff h rfl (fun idx => ?_) fun idx => Iff.rfl
    unfold Inputs.factors
    dsimp only
    cases left.isValid idx && right.isValid <;> rfl
  | scalarColumn left right =>
    refine reports_throwRowErrorIfAnyScalar_iff h rfl (fun idx => ?_) fun idx => Iff.rfl
    unfold Inputs.factors
    dsimp only
    rw [Bool.and_comm]
    cases right.isValid idx && left.isValid <;> rfl

end Errors

theorem checkInputs_eq {isAnsiMode isTryMode : Bool} {inputs : Inputs T}
    (hsizes : inputs.SizesMatch) (hmodes : ¬(isAnsiMode = true ∧ isTryMode = true)) :
    checkInputs isAnsiMode isTryMode inputs = .ok () := by
  have hmode : (!(isAnsiMode && isTryMode)) = true := by
    rw [Bool.not_eq_true', Bool.eq_false_iff, ne_eq, Bool.and_eq_true]
    exact hmodes
  have hcheck : ∀ n m, n = m → checkMultiplyInputs n m isAnsiMode isTryMode = .ok () := by
    intro n m hnm
    unfold checkMultiplyInputs
    rw [decide_eq_true hnm, hmode]
    rfl
  cases inputs with
  | columns left right => exact hcheck _ _ hsizes
  | columnScalar left right => exact hcheck _ _ rfl
  | scalarColumn left right => exact hcheck _ _ rfl

/-- **Integer multiplication**: in ANSI mode, `multiply` throws at the first row that overflows, or not
at all, exactly if the bits that `throw_row_error_if_any` reads agree with the rows up to there. In the
other two modes the products are right in any case. -/
theorem multipliesExactly_iff (inputs : Inputs T) (isAnsiMode isTryMode : Bool)
    (hsizes : inputs.SizesMatch) (hmodes : ¬(isAnsiMode = true ∧ isTryMode = true)) :
    inputs.MultipliesExactly isAnsiMode isTryMode ↔ (isAnsiMode = true → inputs.MasksAgree) := by
  have hresult := isResult_dispatchMultiply hsizes (isAnsiMode || isTryMode)
  unfold Inputs.MultipliesExactly multiply
  rw [checkInputs_eq hsizes hmodes]
  set result := dispatchMultiply (isAnsiMode || isTryMode) inputs
  cases isAnsiMode with
  | false =>
    refine iff_of_true ⟨hresult.size_eq, hresult.row_eq, ?_⟩ ?_
    · exact fun hansi => absurd hansi (by decide)
    · exact fun hansi => absurd hansi (by decide)
  | true =>
    have hansi : (true = true → inputs.MasksAgree) ↔ inputs.MasksAgree := forall_prop_of_true rfl
    rw [hansi, ← reports_throwIfOverflow_iff hsizes hresult]
    show (match (throwIfOverflow result inputs).bind fun _ => .ok result with
      | .ok result => _
      | .error (.exceptionWithRowIndex rowIndex) => _
      | .error (.logicError _) => _) ↔ _
    -- the check throws, or the result is returned
    rcases throwIfOverflow result inputs with (what | rowIndex) | _
    · exact Iff.rfl
    · exact and_iff_right rfl
    · exact ⟨fun h => h.2.2 rfl, fun h => ⟨hresult.size_eq, hresult.row_eq, fun _ => h⟩⟩

/-- A view of one row: the bit of the row is set, and the one before it, which is not in the view, is
not. -/
def slicedColumn : ColumnView .int32 where
  data _ := BitVec.intMax 32
  nullMask := some fun idx => idx ≠ 0
  offset := 1
  size := 1

def two : Scalar .int32 where
  value := 2#32
  isValid := true

theorem multipliesExactly_iff_slicedColumn :
    (Inputs.columnScalar slicedColumn two).MultipliesExactly true false ↔
      (true = true → (Inputs.columnScalar slicedColumn two).MasksAgree) :=
  multipliesExactly_iff _ true false trivial (by decide)

/-- The only row of the view overflows, and nothing is thrown: bit 0 of the mask is looked at. -/
theorem not_multipliesExactly :
    ¬∀ (T : NumericType) (inputs : Inputs T) (isAnsiMode isTryMode : Bool), inputs.SizesMatch →
      ¬(isAnsiMode = true ∧ isTryMode = true) → inputs.MultipliesExactly isAnsiMode isTryMode := by
  intro hall
  have h := hall .int32 (.columnScalar slicedColumn two) true false trivial (by decide)
  have hok : (multiply (.columnScalar slicedColumn two) true false).map ColumnView.size = .ok 1 := by
    decide +kernel
  have hover : (Inputs.columnScalar slicedColumn two).Overflows 0 :=
    ⟨BitVec.intMax 32, 2#32, rfl, by decide⟩
  unfold Inputs.MultipliesExactly at h
  revert h hok
  rcases multiply (.columnScalar slicedColumn two) true false with error | result
  · exact fun h hok => nomatch hok
  · exact fun h _ => h.2.2 rfl 0 Nat.one_pos hover

end SparkRapids.Multiply
