import SparkRapidsJni.Kudo.Column
import SparkRapidsJni.Lib.PrefixSums

/-!
# `shuffle_assemble.cu`: the rows of the column instances

The header of a part has the number of its rows, which is only the one of the columns that are in
no list. The others have as many rows as the list above them refers to, and that is in its offsets.
`compute_offset_child_row_counts` walks over the offset section of a part, column by column, and
finds out.

The walk comes to the offsets of a column where the sizes of the columns before it say
(`columnInstances_eq`). The child of a list gets the rows that the offsets of the list go over
(`numRows_child`).
-/

namespace SparkRapids.ShuffleAssemble

open Kudo PrefixSums

/-! ### The code -/

/-- The types of the columns, nested ones included: `col_info`. -/
def colInfo (schema : Schema) : List DType :=
  (Nested.flattenAll (fun _ context => context) schema ()).map FlatNode.kind

/-- `offset_column_info` -/
structure OffsetColumnInfo where
  colIndex : ℕ
  parent : Option ℕ

mutual

/-- `compute_offset_column_info_traverse`: the index behind the column, and what is pushed. -/
def computeOffsetColumnInfoTraverse (colIndex : ℕ) (offsetInfoParent : Option ℕ) :
    Nested LeafType Unit → ℕ × List OffsetColumnInfo
  | .leaf t _ =>
    -- add any column that affects row counts, or has a parent that does
    (colIndex + 1, if t.hasOffsets ∨ offsetInfoParent.isSome then [⟨colIndex, offsetInfoParent⟩] else [])
  | .list _ child =>
    -- list columns update the offset parent
    let traversed := computeOffsetColumnInfoTraverse (colIndex + 1) (some colIndex) child
    (traversed.1, ⟨colIndex, offsetInfoParent⟩ :: traversed.2)
  | .struct _ children =>
    let traversed := computeOffsetColumnInfoTraverseAll (colIndex + 1) offsetInfoParent children
    (traversed.1,
      (if offsetInfoParent.isSome then [⟨colIndex, offsetInfoParent⟩] else []) ++ traversed.2)

/-- Its loops over the columns: the children of a struct, or the ones at the top. -/
def computeOffsetColumnInfoTraverseAll (colIndex : ℕ) (offsetInfoParent : Option ℕ) :
    List (Nested LeafType Unit) → ℕ × List OffsetColumnInfo
  | [] => (colIndex, [])
  | column :: columns =>
    let traversed := computeOffsetColumnInfoTraverse colIndex offsetInfoParent column
    let rest := computeOffsetColumnInfoTraverseAll traversed.1 offsetInfoParent columns
    (rest.1, traversed.2 ++ rest.2)

end

/-- `compute_offset_column_info` -/
def computeOffsetColumnInfo (schema : Schema) : List OffsetColumnInfo :=
  (computeOffsetColumnInfoTraverseAll 0 none schema).2

/-- What is read of a part here: the number of rows and the row index of its header, and the
values of its offset section. -/
structure Partition where
  numRows : ℕ
  rowIndex : ℕ
  offsets : ℕ → ℕ

/-- `assemble_column_info`, of a column instance, without the indices in the result. -/
structure AssembleColumnInfo where
  numRows : ℕ
  srcRowIndex : ℕ
  numChars : ℕ
  childNumRows : ℕ
  childSrcRowIndex : ℕ

/-- Where the walk over the offset section is, and the column instances of the part. -/
structure OffsetWalk where
  offsets : ℕ
  columnInstances : ℕ → AssembleColumnInfo

/-- What a column instance with so many rows has in the offset section. There are no offsets of no
rows, not even the first. -/
def numOffsets (type : DType) (numRows : ℕ) : ℕ :=
  if hasOffsets type ∧ 0 < numRows then numRows + 1 else 0

/-- A column instance with so many rows, and its offsets. -/
def AssembleColumnInfo.withRows (inst : AssembleColumnInfo) (type : DType) (numRows srcRowIndex : ℕ)
    (offsets : ℕ → ℕ) : AssembleColumnInfo :=
  let inst := { inst with numRows := numRows, srcRowIndex := srcRowIndex }
  match type with
  -- strings also compute their char count
  | .leaf .string =>
    if 0 < numRows then { inst with numChars := offsets numRows - offsets 0 }
    else { inst with numChars := 0 }
  -- lists change row counts and src row indices
  | .list =>
    if 0 < numRows then
      { inst with childSrcRowIndex := offsets 0, childNumRows := offsets numRows - offsets 0 }
    else { inst with childSrcRowIndex := srcRowIndex, childNumRows := 0 }
  | _ => inst

namespace Partition

variable (part : Partition)

/-- The number of rows and the source row index of a column instance: the ones of the part for a
root column, or what the parent has computed. -/
def rowsOf (columnInstances : ℕ → AssembleColumnInfo) (info : OffsetColumnInfo) : ℕ × ℕ :=
  match info.parent with
  | none => (part.numRows, part.rowIndex)
  | some parent =>
    if part.numRows = 0 then (part.numRows, part.rowIndex)
    else ((columnInstances parent).childNumRows, (columnInstances parent).childSrcRowIndex)

/-- A turn of the loop of `compute_offset_child_row_counts`. -/
def offsetChildRowCount (types : List DType) (walk : OffsetWalk) (info : OffsetColumnInfo) :
    OffsetWalk :=
  let type := types.getD info.colIndex .struct
  let rows := part.rowsOf walk.columnInstances info
  let offsets := fun i => part.offsets (walk.offsets + i)
  { offsets := walk.offsets + numOffsets type rows.1
    columnInstances := Function.update walk.columnInstances info.colIndex
      ((walk.columnInstances info.colIndex).withRows type rows.1 rows.2 offsets) }

/-- `compute_offset_child_row_counts`: at first, all instances have the rows of the header. -/
def computeOffsetChildRowCounts (schema : Schema) : OffsetWalk :=
  (computeOffsetColumnInfo schema).foldl (part.offsetChildRowCount (colInfo schema))
    ⟨0, fun _ => ⟨part.numRows, part.rowIndex, 0, 0, 0⟩⟩

/-- The column instances of a part. -/
def columnInstances (schema : Schema) : ℕ → AssembleColumnInfo :=
  (part.computeOffsetChildRowCounts schema).columnInstances

/-- The number of offsets of a column in the offset section. -/
def offsetsOf (schema : Schema) (column : ℕ) : ℕ :=
  numOffsets ((colInfo schema).getD column .struct) (part.columnInstances schema column).numRows

/-- A column's offset, of its own ones. -/
def offset (schema : Schema) (column i : ℕ) : ℕ :=
  part.offsets (exclusiveScan (part.offsetsOf schema) column + i)

/-- A part as the writer makes one: the offsets of a column do not decrease, and are numbers of a
`size_type`. The size of the offset section is in the header, as a `uint32_t`. -/
structure WellFormed (schema : Schema) : Prop where
  offset_mono : ∀ column i, i + 1 < part.offsetsOf schema column →
    part.offset schema column i ≤ part.offset schema column (i + 1)
  offset_lt : ∀ column i, i < part.offsetsOf schema column →
    part.offset schema column i < 2 ^ 31
  offsetSize_lt : 4 * exclusiveScan (part.offsetsOf schema) (colInfo schema).length < 2 ^ 32

end Partition

/-! ### What is pushed -/

/-- What a traversal pushes of columns of these types, which start at an index. -/
structure Traversed (start : ℕ) (parent : Option ℕ) (types : List DType)
    (infos : List OffsetColumnInfo) : Prop where
  start_le : ∀ info ∈ infos, start ≤ info.colIndex
  lt_stop : ∀ info ∈ infos, info.colIndex < start + types.length
  sorted : infos.Pairwise (·.colIndex < ·.colIndex)
  pushed : ∀ i type, types[i]? = some type → hasOffsets type →
    ∃ info ∈ infos, info.colIndex = start + i
  parents : ∀ info ∈ infos, ∀ q, info.parent = some q →
    parent = some q ∨ start ≤ q ∧ q < info.colIndex ∧ types[q - start]? = some .list
  child : ∀ i, types[i]? = some .list → ⟨start + i + 1, some (start + i)⟩ ∈ infos

section Traverse

variable {start : ℕ} {parent : Option ℕ} {types types' : List DType}
  {infos infos' : List OffsetColumnInfo}

theorem Traversed.nil : Traversed start parent [] [] where
  start_le := fun _ h => absurd h List.not_mem_nil
  lt_stop := fun _ h => absurd h List.not_mem_nil
  sorted := .nil
  pushed := fun _ _ h => absurd h (by simp)
  parents := fun _ h => absurd h List.not_mem_nil
  child := fun _ h => absurd h (by simp)

/-- A column that is no list. -/
theorem Traversed.single {type : DType} (hlist : type ≠ .list) {pushed : Prop} [Decidable pushed]
    (hpushed : hasOffsets type → pushed) :
    Traversed start parent [type] (if pushed then [⟨start, parent⟩] else []) where
  start_le := by
    intro info hinfo
    split_ifs at hinfo
    · rw [List.mem_singleton.1 hinfo]
    · exact absurd hinfo List.not_mem_nil
  lt_stop := by
    intro info hinfo
    split_ifs at hinfo
    · rw [List.mem_singleton.1 hinfo]
      exact Nat.lt_succ_self start
    · exact absurd hinfo List.not_mem_nil
  sorted := by
    split_ifs
    · exact List.pairwise_singleton ..
    · exact .nil
  pushed := by
    intro i type' htype hoffsets
    cases i with
    | zero =>
      obtain rfl : type = type' := Option.some.inj htype
      rw [if_pos (hpushed hoffsets)]
      exact ⟨_, List.mem_singleton.2 rfl, rfl⟩
    | succ i => exact absurd htype (by simp)
  parents := by
    intro info hinfo q hq
    split_ifs at hinfo
    · rw [List.mem_singleton.1 hinfo] at hq
      exact .inl hq
    · exact absurd hinfo List.not_mem_nil
  child := by
    intro i htype
    cases i with
    | zero => exact absurd (Option.some.inj htype) hlist
    | succ i => exact absurd htype (by simp)

theorem Traversed.append (h : Traversed start parent types infos)
    (h' : Traversed (start + types.length) parent types' infos') :
    Traversed start parent (types ++ types') (infos ++ infos') where
  start_le := by
    intro info hinfo
    rcases List.mem_append.1 hinfo with hinfo | hinfo
    · exact h.start_le info hinfo
    · have hle := h'.start_le info hinfo
      omega
  lt_stop := by
    intro info hinfo
    rw [List.length_append]
    rcases List.mem_append.1 hinfo with hinfo | hinfo
    · have hlt := h.lt_stop info hinfo
      omega
    · have hlt := h'.lt_stop info hinfo
      omega
  sorted := by
    refine List.pairwise_append.2 ⟨h.sorted, h'.sorted, ?_⟩
    intro info hinfo info' hinfo'
    exact Nat.lt_of_lt_of_le (h.lt_stop info hinfo) (h'.start_le info' hinfo')
  pushed := by
    intro i type htype hoffsets
    rcases Nat.lt_or_ge i types.length with hi | hi
    · rw [List.getElem?_append_left hi] at htype
      obtain ⟨info, hinfo, hcol⟩ := h.pushed i type htype hoffsets
      exact ⟨info, List.mem_append_left _ hinfo, hcol⟩
    · rw [List.getElem?_append_right hi] at htype
      obtain ⟨info, hinfo, hcol⟩ := h'.pushed _ type htype hoffsets
      exact ⟨info, List.mem_append_right _ hinfo, by omega⟩
  parents := by
    intro info hinfo q hq
    rcases List.mem_append.1 hinfo with hinfo | hinfo
    · rcases h.parents info hinfo q hq with hparent | ⟨hle, hlt, hlist⟩
      · exact .inl hparent
      · right
        have hinside := (List.getElem?_eq_some_iff.1 hlist).1
        exact ⟨hle, hlt, by rwa [List.getElem?_append_left hinside]⟩
    · rcases h'.parents info hinfo q hq with hparent | ⟨hle, hlt, hlist⟩
      · exact .inl hparent
      · right
        -- the parent is a list of the second part
        refine ⟨by omega, hlt, ?_⟩
        rw [List.getElem?_append_right (by omega)]
        rwa [show q - start - types.length = q - (start + types.length) by omega]
  child := by
    intro i htype
    rcases Nat.lt_or_ge i types.length with hi | hi
    · rw [List.getElem?_append_left hi] at htype
      exact List.mem_append_left _ (h.child i htype)
    · rw [List.getElem?_append_right hi] at htype
      refine List.mem_append_right _ ?_
      have hmem := h'.child _ htype
      rwa [show start + types.length + (i - types.length) = start + i by omega] at hmem

/-- A list in front of its child, which was pushed. -/
theorem Traversed.list (h : Traversed (start + 1) (some start) types infos)
    (hchild : ⟨start + 1, some start⟩ ∈ infos) :
    Traversed start parent (.list :: types) (⟨start, parent⟩ :: infos) where
  start_le := by
    intro info hinfo
    rcases List.mem_cons.1 hinfo with rfl | hinfo
    · exact Nat.le_refl start
    · have hle := h.start_le info hinfo
      omega
  lt_stop := by
    intro info hinfo
    rw [List.length_cons]
    rcases List.mem_cons.1 hinfo with rfl | hinfo
    · exact Nat.lt_add_of_pos_right (Nat.succ_pos _)
    · have hlt := h.lt_stop info hinfo
      omega
  sorted := List.pairwise_cons.2 ⟨fun info hinfo => h.start_le info hinfo, h.sorted⟩
  pushed := by
    intro i type htype hoffsets
    cases i with
    | zero => exact ⟨_, List.mem_cons_self .., rfl⟩
    | succ i =>
      obtain ⟨info, hinfo, hcol⟩ := h.pushed i type htype hoffsets
      exact ⟨info, List.mem_cons_of_mem _ hinfo, by omega⟩
  parents := by
    intro info hinfo q hq
    rcases List.mem_cons.1 hinfo with rfl | hinfo
    · exact .inl hq
    · right
      have hstart := h.start_le info hinfo
      rcases h.parents info hinfo q hq with hparent | ⟨hle, hlt, hlist⟩
      · -- a direct child: its parent is this list
        obtain rfl := Option.some.inj hparent
        exact ⟨Nat.le_refl _, hstart, by rw [Nat.sub_self]; rfl⟩
      · refine ⟨by omega, hlt, ?_⟩
        rwa [show q - start = q - (start + 1) + 1 by omega, List.getElem?_cons_succ]
  child := by
    intro i htype
    cases i with
    | zero => exact List.mem_cons_of_mem _ hchild
    | succ i =>
      have hmem := h.child i htype
      rw [show start + 1 + i = start + (i + 1) by omega] at hmem
      exact List.mem_cons_of_mem _ hmem

end Traverse

/-- The types of a column and the ones below it. -/
def typesOf (column : Nested LeafType Unit) : List DType :=
  (Nested.flatten (fun _ context => context) column ()).map FlatNode.kind

theorem colInfo_cons (column : Nested LeafType Unit) (columns : Schema) :
    colInfo (column :: columns) = typesOf column ++ colInfo columns := by
  show List.map _ (_ ++ _) = _
  rw [List.map_append]
  rfl

/-- In a list, a column is pushed itself. -/
theorem mem_traverse (start q : ℕ) (column : Nested LeafType Unit) :
    ⟨start, some q⟩ ∈ (computeOffsetColumnInfoTraverse start (some q) column).2 := by
  cases column with
  | leaf t a =>
    show _ ∈ (if _ then _ else _)
    rw [if_pos (.inr rfl)]
    exact List.mem_singleton.2 rfl
  | list a child => exact List.mem_cons_self ..
  | struct a children => exact List.mem_append_left _ (List.mem_singleton.2 rfl)

mutual

theorem traverse_spec (start : ℕ) (parent : Option ℕ) (column : Nested LeafType Unit) :
    (computeOffsetColumnInfoTraverse start parent column).1 = start + (typesOf column).length ∧
      Traversed start parent (typesOf column)
        (computeOffsetColumnInfoTraverse start parent column).2 := by
  cases column with
  | leaf t a => exact ⟨rfl, .single (by simp) .inl⟩
  | list a child =>
    obtain ⟨hstop, htraversed⟩ := traverse_spec (start + 1) (some start) child
    refine ⟨?_, htraversed.list (mem_traverse (start + 1) start child)⟩
    show (computeOffsetColumnInfoTraverse (start + 1) (some start) child).1 =
      start + ((typesOf child).length + 1)
    omega
  | struct a children =>
    obtain ⟨hstop, htraversed⟩ := traverseAll_spec (start + 1) parent children
    constructor
    · show (computeOffsetColumnInfoTraverseAll (start + 1) parent children).1 =
        start + ((colInfo children).length + 1)
      omega
    · have hsingle : Traversed start parent [.struct] (if parent.isSome then [⟨start, parent⟩] else []) :=
        .single (by simp) (by simp [hasOffsets])
      exact hsingle.append htraversed

theorem traverseAll_spec (start : ℕ) (parent : Option ℕ) (columns : Schema) :
    (computeOffsetColumnInfoTraverseAll start parent columns).1 = start + (colInfo columns).length ∧
      Traversed start parent (colInfo columns)
        (computeOffsetColumnInfoTraverseAll start parent columns).2 := by
  cases columns with
  | nil => exact ⟨rfl, .nil⟩
  | cons column columns =>
    obtain ⟨hstop, htraversed⟩ := traverse_spec start parent column
    have hrest := traverseAll_spec (start + (typesOf column).length) parent columns
    rw [← hstop] at hrest
    rw [colInfo_cons]
    constructor
    · show (computeOffsetColumnInfoTraverseAll _ parent columns).1 = _
      rw [hrest.1, hstop, List.length_append, Nat.add_assoc]
    · refine htraversed.append ?_
      rw [← hstop]
      exact hrest.2

end

/-- What is pushed of a schema. -/
theorem computeOffsetColumnInfo_spec (schema : Schema) :
    Traversed 0 none (colInfo schema) (computeOffsetColumnInfo schema) :=
  (traverseAll_spec 0 none schema).2

/-! ### The walk over the offset section -/

section WithRows

variable (inst : AssembleColumnInfo) (type : DType) (numRows srcRowIndex : ℕ) (offsets : ℕ → ℕ)

theorem AssembleColumnInfo.numRows_withRows :
    (inst.withRows type numRows srcRowIndex offsets).numRows = numRows := by
  unfold AssembleColumnInfo.withRows
  dsimp only
  split
  · split_ifs <;> rfl
  · split_ifs <;> rfl
  · rfl

theorem AssembleColumnInfo.numChars_withRows :
    (inst.withRows (.leaf .string) numRows srcRowIndex offsets).numChars =
      if 0 < numRows then offsets numRows - offsets 0 else 0 := by
  unfold AssembleColumnInfo.withRows
  split_ifs <;> rfl

theorem AssembleColumnInfo.childNumRows_withRows :
    (inst.withRows .list numRows srcRowIndex offsets).childNumRows =
      if 0 < numRows then offsets numRows - offsets 0 else 0 := by
  unfold AssembleColumnInfo.withRows
  split_ifs <;> rfl

end WithRows

namespace Partition

variable {part : Partition} {schema : Schema} {types : List DType} {walk : OffsetWalk}
  {infos before after : List OffsetColumnInfo} {info : OffsetColumnInfo} {column : ℕ}

/-- The walk leaves the columns alone that were not pushed. -/
theorem walk_frame (h : ∀ info ∈ infos, info.colIndex ≠ column) :
    (infos.foldl (part.offsetChildRowCount types) walk).columnInstances column =
      walk.columnInstances column := by
  induction infos generalizing walk with
  | nil => rfl
  | cons info infos ih =>
    rw [List.foldl_cons, ih fun info' hinfo' => h info' (List.mem_cons_of_mem _ hinfo')]
    exact Function.update_of_ne (Ne.symm (h info (List.mem_cons_self ..))) ..

/-- The walk over what was pushed before a column. -/
def walkTo (part : Partition) (schema : Schema) (before : List OffsetColumnInfo) : OffsetWalk :=
  before.foldl (part.offsetChildRowCount (colInfo schema))
    ⟨0, fun _ => ⟨part.numRows, part.rowIndex, 0, 0, 0⟩⟩

theorem walkTo_snoc (before : List OffsetColumnInfo) (info : OffsetColumnInfo) :
    part.walkTo schema (before ++ [info]) =
      part.offsetChildRowCount (colInfo schema) (part.walkTo schema before) info := by
  unfold walkTo
  rw [List.foldl_append]
  rfl

/-- A column that was pushed is not touched again. -/
theorem columnInstances_of_before (hsplit : computeOffsetColumnInfo schema = before ++ after)
    (h : ∀ info ∈ after, info.colIndex ≠ column) :
    part.columnInstances schema column =
      (part.walkTo schema before).columnInstances column := by
  show (part.walkTo schema (computeOffsetColumnInfo schema)).columnInstances column = _
  rw [hsplit]
  unfold walkTo
  rw [List.foldl_append]
  exact walk_frame h

theorem exists_split (hinfo : info ∈ computeOffsetColumnInfo schema) : ∃ before after,
    computeOffsetColumnInfo schema = before ++ info :: after ∧
      (∀ info' ∈ before, info'.colIndex < info.colIndex) ∧
        ∀ info' ∈ after, info.colIndex < info'.colIndex := by
  obtain ⟨before, after, hsplit⟩ := List.append_of_mem hinfo
  have hsorted := (computeOffsetColumnInfo_spec schema).sorted
  rw [hsplit, List.pairwise_append, List.pairwise_cons] at hsorted
  refine ⟨before, after, hsplit, fun info' hinfo' => ?_, hsorted.2.1.1⟩
  exact hsorted.2.2 info' hinfo' info (List.mem_cons_self ..)

/-- What the walk makes of a column, from what it is there. -/
theorem columnInstances_split (hsplit : computeOffsetColumnInfo schema = before ++ info :: after)
    (hafter : ∀ info' ∈ after, info.colIndex < info'.colIndex) :
    part.columnInstances schema info.colIndex =
      (part.offsetChildRowCount (colInfo schema) (part.walkTo schema before)
        info).columnInstances info.colIndex := by
  have hsnoc : computeOffsetColumnInfo schema = (before ++ [info]) ++ after := by
    rw [hsplit, List.append_assoc, List.singleton_append]
  rw [columnInstances_of_before hsnoc fun info' hinfo' => Nat.ne_of_gt (hafter info' hinfo'),
    walkTo_snoc]

/-- The walk is behind the offsets of the columns that were pushed before. -/
theorem walkTo_offsets (hsplit : computeOffsetColumnInfo schema = before ++ after) :
    (part.walkTo schema before).offsets =
      (before.map fun info => part.offsetsOf schema info.colIndex).sum := by
  -- by induction from the end, as the walk goes on there
  induction before using List.reverseRecOn generalizing after with
  | nil => rfl
  | append_singleton before info ih =>
    have hsplit' : computeOffsetColumnInfo schema = before ++ info :: after := by
      rw [hsplit, List.append_assoc, List.singleton_append]
    have hsorted := (computeOffsetColumnInfo_spec schema).sorted
    rw [hsplit', List.pairwise_append, List.pairwise_cons] at hsorted
    have hinst := @columnInstances_split part _ _ _ _ hsplit' hsorted.2.1.1
    rw [walkTo_snoc, List.map_append, List.sum_append, ← ih hsplit', List.map_singleton,
      List.sum_singleton]
    have hrows : (part.columnInstances schema info.colIndex).numRows =
        (part.rowsOf (part.walkTo schema before).columnInstances info).1 := by
      rw [hinst]
      unfold offsetChildRowCount
      dsimp only
      rw [Function.update_self, AssembleColumnInfo.numRows_withRows]
    unfold offsetsOf
    rw [hrows]
    rfl

/-- Only what was pushed has offsets. -/
theorem exists_pushed (h : 0 < part.offsetsOf schema column) :
    ∃ info ∈ computeOffsetColumnInfo schema, info.colIndex = column := by
  have hoffsets : hasOffsets ((colInfo schema).getD column .struct) := by
    unfold offsetsOf numOffsets at h
    split_ifs at h with hif
    · exact hif.1
    · exact absurd h (Nat.lt_irrefl 0)
  rw [List.getD_eq_getElem?_getD] at hoffsets
  cases htype : (colInfo schema)[column]? with
  | none =>
    rw [htype] at hoffsets
    exact absurd hoffsets (by simp [hasOffsets])
  | some type =>
    rw [htype] at hoffsets
    obtain ⟨info, hinfo, hcol⟩ := (computeOffsetColumnInfo_spec schema).pushed column type htype hoffsets
    exact ⟨info, hinfo, by omega⟩

/-- Where the walk comes to a column, the sizes of the columns before it say. -/
theorem walkTo_offsets_eq (hsplit : computeOffsetColumnInfo schema = before ++ info :: after)
    (hbefore : ∀ info' ∈ before, info'.colIndex < info.colIndex)
    (hafter : ∀ info' ∈ after, info.colIndex < info'.colIndex) :
    (part.walkTo schema before).offsets =
      exclusiveScan (part.offsetsOf schema) info.colIndex := by
  have hsorted := (computeOffsetColumnInfo_spec schema).sorted
  rw [hsplit, List.pairwise_append] at hsorted
  have hnodup : (before.map OffsetColumnInfo.colIndex).Nodup :=
    List.pairwise_map.2 (hsorted.1.imp fun h => Nat.ne_of_lt h)
  calc (part.walkTo schema before).offsets
      = ((before.map OffsetColumnInfo.colIndex).map (part.offsetsOf schema)).sum := by
        rw [walkTo_offsets hsplit, List.map_map]
        rfl
    _ = ∑ column ∈ (before.map OffsetColumnInfo.colIndex).toFinset,
          part.offsetsOf schema column := (List.sum_toFinset _ hnodup).symm
    _ = exclusiveScan (part.offsetsOf schema) info.colIndex := by
        refine Finset.sum_subset (fun column hcolumn => ?_) (fun column hcolumn hnot => ?_)
        · obtain ⟨info', hinfo', rfl⟩ := List.mem_map.1 (List.mem_toFinset.1 hcolumn)
          exact Finset.mem_range.2 (hbefore info' hinfo')
        · -- the columns between have no offsets, or they were pushed before
          by_contra hne
          obtain ⟨info', hinfo', rfl⟩ := exists_pushed (Nat.pos_of_ne_zero hne)
          have hlt := Finset.mem_range.1 hcolumn
          rw [hsplit] at hinfo'
          rcases List.mem_append.1 hinfo' with hinfo' | hinfo'
          · exact hnot (List.mem_toFinset.2 (List.mem_map_of_mem hinfo'))
          · rcases List.mem_cons.1 hinfo' with rfl | hinfo'
            · exact Nat.lt_irrefl _ hlt
            · exact Nat.lt_asymm hlt (hafter info' hinfo')

/-- The instance of a column that was pushed: with the rows that its parent has computed, and its own
offsets. -/
theorem columnInstances_eq (hinfo : info ∈ computeOffsetColumnInfo schema) :
    ∃ inst : AssembleColumnInfo, part.columnInstances schema info.colIndex =
      inst.withRows ((colInfo schema).getD info.colIndex .struct)
        (part.rowsOf (part.columnInstances schema) info).1
        (part.rowsOf (part.columnInstances schema) info).2
        (part.offset schema info.colIndex) := by
  obtain ⟨before, after, hsplit, hbefore, hafter⟩ := exists_split hinfo
  have hrows : part.rowsOf (part.walkTo schema before).columnInstances info =
      part.rowsOf (part.columnInstances schema) info := by
    unfold rowsOf
    cases hparent : info.parent with
    | none => rfl
    | some q =>
      -- the parent is in front, and is not touched again
      have hq : q < info.colIndex := by
        rcases (computeOffsetColumnInfo_spec schema).parents info hinfo q hparent with h | h
        · exact absurd h (by simp)
        · exact h.2.1
      have hsame := @columnInstances_of_before part schema before (info :: after) q hsplit (by
        intro info' hinfo'
        rcases List.mem_cons.1 hinfo' with rfl | hinfo'
        · exact Nat.ne_of_gt hq
        · exact Nat.ne_of_gt (Nat.lt_trans hq (hafter info' hinfo')))
      dsimp only
      rw [hsame]
  refine ⟨(part.walkTo schema before).columnInstances info.colIndex, ?_⟩
  rw [columnInstances_split hsplit hafter]
  unfold offsetChildRowCount
  dsimp only
  rw [Function.update_self, hrows, walkTo_offsets_eq hsplit hbefore hafter]
  rfl

/-- The columns of a part without rows have no rows either. -/
theorem numRows_eq_zero (h : part.numRows = 0) (column : ℕ) :
    (part.columnInstances schema column).numRows = 0 := by
  by_cases hpushed : ∃ info ∈ computeOffsetColumnInfo schema, info.colIndex = column
  · obtain ⟨info, hinfo, rfl⟩ := hpushed
    obtain ⟨inst, hinst⟩ := @columnInstances_eq part _ _ hinfo
    rw [hinst, AssembleColumnInfo.numRows_withRows]
    unfold rowsOf
    cases info.parent with
    | none => exact h
    | some q =>
      dsimp only
      rw [if_pos h]
      exact h
  · push Not at hpushed
    have hsame := @columnInstances_of_before part schema [] _ column rfl hpushed
    rw [hsame]
    exact h

/-- The characters of a string column are the ones that its offsets go over. -/
theorem numChars_string (htype : (colInfo schema)[column]? = some (.leaf .string)) :
    (part.columnInstances schema column).numChars =
      if 0 < (part.columnInstances schema column).numRows then
        part.offset schema column (part.columnInstances schema column).numRows -
          part.offset schema column 0
      else 0 := by
  obtain ⟨info, hinfo, hcol⟩ := (computeOffsetColumnInfo_spec schema).pushed column _ htype rfl
  obtain rfl : info.colIndex = column := by omega
  have htype' : (colInfo schema).getD info.colIndex .struct = .leaf .string := by
    rw [List.getD_eq_getElem?_getD, htype]
    rfl
  obtain ⟨inst, hinst⟩ := @columnInstances_eq part _ _ hinfo
  rw [htype'] at hinst
  rw [hinst, AssembleColumnInfo.numChars_withRows, AssembleColumnInfo.numRows_withRows]

/-- The rows of a list's child are the ones that the offsets of the list go over. -/
theorem numRows_child (htype : (colInfo schema)[column]? = some .list) :
    (part.columnInstances schema (column + 1)).numRows =
      if 0 < (part.columnInstances schema column).numRows then
        part.offset schema column (part.columnInstances schema column).numRows -
          part.offset schema column 0
      else 0 := by
  have hspec := computeOffsetColumnInfo_spec schema
  by_cases hzero : part.numRows = 0
  · rw [numRows_eq_zero hzero, numRows_eq_zero hzero]
    rfl
  · obtain ⟨info, hinfo, hcol⟩ := hspec.pushed column _ htype rfl
    obtain rfl : info.colIndex = column := by omega
    have htype' : (colInfo schema).getD info.colIndex .struct = .list := by
      rw [List.getD_eq_getElem?_getD, htype]
      rfl
    obtain ⟨inst, hinst⟩ := @columnInstances_eq part _ _ hinfo
    have hchild := hspec.child info.colIndex htype
    rw [Nat.zero_add] at hchild
    obtain ⟨childInst, hchildInst⟩ := @columnInstances_eq part _ _ hchild
    rw [htype'] at hinst
    dsimp only at hchildInst
    rw [hchildInst, AssembleColumnInfo.numRows_withRows]
    unfold rowsOf
    dsimp only
    rw [if_neg hzero, hinst, AssembleColumnInfo.childNumRows_withRows,
      AssembleColumnInfo.numRows_withRows]

end Partition

end SparkRapids.ShuffleAssemble
