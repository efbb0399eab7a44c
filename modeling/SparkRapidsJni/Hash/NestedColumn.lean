import Mathlib.Data.List.Basic
import Mathlib.Order.Hom.Basic
import SparkRapidsJni.Lib.WhileLoop

/-!
# Nested columns

A column of leaves, lists or structs, as a device view sees it, and what the hash functions need of
it: slices, the sliced child of a list or a struct, and the depth that `check_nested_depth` limits.

A null list or struct still has rows below it. In a column with `NullsConsistent` these say nothing
either: a null list has an empty range (`NullListsEmpty`), and the nulls of a struct are superimposed
on its children.
-/

namespace SparkRapids.Hash

/-- `MAX_STACK_DEPTH` -/
def maxStackDepth : Nat := 8

/-- A column. Positions count from the start of the column, and a list's offsets may not decrease. -/
inductive Column (α : Type)
  /-- The value at each position, `none` for a null. -/
  | leaf (element : Nat → Option α)
  | list (isValid : Nat → Bool) (offsets : Nat →o Nat) (child : Column α)
  | struct (isValid : Nat → Bool) (children : List (Column α))

namespace Column

variable {α : Type}

/-- A property of all columns, from the one of the children. -/
@[elab_as_elim]
theorem induct {motive : Column α → Prop} (leaf : ∀ element, motive (.leaf element))
    (list : ∀ isValid offsets child, motive child → motive (.list isValid offsets child))
    (struct : ∀ isValid children, (∀ c ∈ children, motive c) → motive (.struct isValid children))
    (c : Column α) : motive c :=
  Column.rec (motive_1 := motive) (motive_2 := fun cs => ∀ c ∈ cs, motive c) leaf list struct
    (fun _ hc => absurd hc List.not_mem_nil)
    (fun _ _ hc hcs => List.forall_mem_cons.2 ⟨hc, hcs⟩) c

/-- The type is `LIST` or `STRUCT`. -/
def isNested : Column α → Bool
  | leaf _ => false
  | list _ _ _ => true
  | struct _ _ => true

/-- The row is null. -/
def IsNull : Column α → Nat → Prop
  | leaf element, row => element row = none
  | list isValid _ _, row => isValid row = false
  | struct isValid _, row => isValid row = false

/-- Null lists are empty. -/
inductive NullListsEmpty : Column α → Prop
  | leaf (element : Nat → Option α) : NullListsEmpty (.leaf element)
  | list {isValid : Nat → Bool} {offsets : Nat →o Nat} {child : Column α} :
      (∀ row, isValid row = false → offsets row = offsets (row + 1)) → NullListsEmpty child →
      NullListsEmpty (.list isValid offsets child)
  | struct {isValid : Nat → Bool} {children : List (Column α)} :
      (∀ c ∈ children, NullListsEmpty c) → NullListsEmpty (.struct isValid children)

/-- Null lists are empty, and nulls of structs are superimposed on the children. -/
inductive NullsConsistent : Column α → Prop
  | leaf (element : Nat → Option α) : NullsConsistent (.leaf element)
  | list {isValid : Nat → Bool} {offsets : Nat →o Nat} {child : Column α} :
      (∀ row, isValid row = false → offsets row = offsets (row + 1)) → NullsConsistent child →
      NullsConsistent (.list isValid offsets child)
  | struct {isValid : Nat → Bool} {children : List (Column α)} :
      (∀ row, isValid row = false → ∀ c ∈ children, c.IsNull row) →
      (∀ c ∈ children, NullsConsistent c) → NullsConsistent (.struct isValid children)

section

variable {isValid : Nat → Bool} {offsets : Nat →o Nat} {child : Column α}
  {children : List (Column α)}

theorem NullsConsistent.of_list (h : (Column.list isValid offsets child).NullsConsistent) :
    (∀ row, isValid row = false → offsets row = offsets (row + 1)) ∧ child.NullsConsistent := by
  cases h with
  | list hempty hchild => exact ⟨hempty, hchild⟩

theorem NullsConsistent.of_struct (h : (Column.struct isValid children).NullsConsistent) :
    (∀ row, isValid row = false → ∀ c ∈ children, c.IsNull row) ∧
      ∀ c ∈ children, c.NullsConsistent := by
  cases h with
  | struct hnull hchildren => exact ⟨hnull, hchildren⟩

end

end Column

/-- A view of some of the rows of a column. -/
structure View (α : Type) where
  column : Column α
  offset : Nat
  size : Nat

namespace View

variable {α : Type}

/-- `slice` -/
def slice (v : View α) (offset size : Nat) : View α :=
  { column := v.column, offset := v.offset + offset, size }

/-- `lists_column_device_view::get_sliced_child`, of a list column with these offsets and this
child. -/
def slicedListChild (v : View α) (offsets : Nat →o Nat) (child : Column α) : View α where
  column := child
  offset := offsets v.offset
  size := offsets (v.offset + v.size) - offsets v.offset

/-- `structs_column_device_view::get_sliced_child`, of this child. -/
def slicedStructChild (v : View α) (child : Column α) : View α :=
  { v with column := child }

end View

/-- The deepest of some columns is at least as deep as each of them. -/
theorem depth_le_of_mem {α : Type} {depth : Column α → Nat} {deepest : List (Column α) → Nat}
    (h : ∀ c cs, deepest (c :: cs) = max (depth c) (deepest cs)) {c : Column α}
    {cs : List (Column α)} (hc : c ∈ cs) : depth c ≤ deepest cs := by
  induction cs with
  | nil => cases hc
  | cons d ds ih =>
    rw [h]
    rcases List.mem_cons.1 hc with rfl | hc
    · exact le_max_left ..
    · exact (ih hc).trans (le_max_right ..)

/-- `check_nested_depth`, for a measure of the depth of a column. -/
def checkNestedDepth {α : Type} (getNestedDepth : Column α → Nat) (input : List (Column α)) :
    Except String Unit :=
  forM input.zipIdx fun p =>
    if getNestedDepth p.1 ≤ maxStackDepth then .ok ()
    else
      .error (s!"The {p.2}-th column exceeds the maximum allowed nested depth. " ++
        s!"Current depth: {getNestedDepth p.1}, Maximum allowed depth: {maxStackDepth}")

/-- The columns that pass are within the limit. -/
theorem depth_le_of_checkNestedDepth {α : Type} {getNestedDepth : Column α → Nat}
    {input : List (Column α)} (h : checkNestedDepth getNestedDepth input = .ok ()) :
    ∀ col ∈ input, getNestedDepth col ≤ maxStackDepth := by
  unfold checkNestedDepth at h
  generalize 0 = k at h
  induction input generalizing k with
  | nil => exact fun col hcol => absurd hcol List.not_mem_nil
  | cons c cs ih =>
    rw [List.zipIdx_cons, List.forM_cons] at h
    dsimp only at h
    by_cases hc : getNestedDepth c ≤ maxStackDepth
    · rw [if_pos hc] at h
      exact List.forall_mem_cons.2 ⟨hc, ih (k + 1) h⟩
    · rw [if_neg hc] at h
      cases h

end SparkRapids.Hash
