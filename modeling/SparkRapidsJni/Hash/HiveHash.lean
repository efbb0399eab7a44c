import Mathlib.Data.BitVec
import SparkRapidsJni.Hash.NestedColumn

/-!
# HiveHash of nested columns

Hive hashes a struct or a list recursively: `h ↦ 31 * h + hash(child)` over the children or elements,
from `0`. The kernel has no recursion; `element_hasher_adapter` keeps a stack of frames, each with
the hash so far and the index of the child or element to process next. A frame that is done is
popped into its parent. Structs go on over a run of primitive children in one turn, and a list of
primitives is done in one turn.

`hiveHash_recursion` is the simulation: the loop ends, never has more than `MAX_STACK_DEPTH` frames on
the stack, and gives the hash of the recursion. The kernel never looks at the null mask of a list or
a struct, so the hash of one that is null is `0` only where what is below it is empty or null
(`Column.NullsConsistent`), as `null_struct_hashed` shows.
-/

namespace SparkRapids.Hash.HiveHash

variable {α : Type}

/-- `hive_hash_value_t`: an `int32_t`, which wraps around. -/
abbrev Value := BitVec 32

/-- `HIVE_HASH_FACTOR` -/
def hiveHashFactor : Value := 31

/-- `HIVE_INIT_HASH` -/
def hiveInitHash : Value := 0

/-- `hash_functor`, on the element of a primitive column: a null hashes to the initial hash. `hash` is
`hive_hash_function`. -/
def elementHash (hash : α → Value) (element : Nat → Option α) (row : Nat) : Value :=
  match element row with
  | none => hiveInitHash
  | some a => hash a

/-! ### The stack machine -/

/-- `col_stack_frame` -/
structure Frame (α : Type) where
  /-- A view of one row. -/
  column : View α
  curHash : Value := hiveInitHash
  idxToProcess : Nat := 0

/-- `update_cur_hash` -/
def Frame.updateCurHash (f : Frame α) (hash : Value) : Frame α :=
  { f with curHash := f.curHash * hiveHashFactor + hash }

/-- The frames in use, the top first, and the hash in `col_stack[0]` once that frame is popped. -/
structure Machine (α : Type) where
  stack : List (Frame α)
  root : Value := hiveInitHash

namespace Machine

/-- `col_stack[stack_size++] = frame`, which has to stay within the array. -/
def push (m : Machine α) (frame : Frame α) : Option (Machine α) :=
  if m.stack.length < maxStackDepth then some { m with stack := frame :: m.stack } else none

/-- `--stack_size`, of a frame with this hash, over the frames `rest`: the hash goes to the
parent, if there is one. -/
def popped (m : Machine α) (hash : Value) (rest : List (Frame α)) : Machine α :=
  match rest with
  | [] => { stack := [], root := hash }
  | parent :: rest => { m with stack := parent.updateCurHash hash :: rest }

end Machine

/-- The inner loop of a struct, over the children that are left: the primitive ones are hashed,
up to the first nested one. -/
def processChildren (hash : α → Value) : List (Column α) → Frame α → Frame α × Option (View α)
  | [], top => (top, none)
  | child :: rest, top =>
    let top := { top with idxToProcess := top.idxToProcess + 1 }
    match child with
    | .leaf element =>
      processChildren hash rest (top.updateCurHash (elementHash hash element top.column.offset))
    | child => (top, some (top.column.slicedStructChild child))

/-- The hash of a list of primitives, from its sliced child. -/
def singleLevelListHash (hash : α → Value) (element : Nat → Option α) (child : View α) : Value :=
  (List.range child.size).foldl
    (fun h i => hiveHashFactor * h + elementHash hash element (child.offset + i)) hiveInitHash

/-- A turn of the loop. -/
def step (hash : α → Value) (m : Machine α) : Option (Machine α) :=
  match m.stack with
  | [] => none
  | top :: rest =>
    match top.column.column with
    | .struct _ children =>
      if top.idxToProcess = children.length then some (m.popped top.curHash rest)
      else
        match processChildren hash (children.drop top.idxToProcess) top with
        | (top, none) => some { m with stack := top :: rest }
        | (top, some child) => { m with stack := top :: rest }.push { column := child }
    | .list _ offsets child =>
      let childCol := top.column.slicedListChild offsets child
      match child with
      | .leaf element =>
        let top := top.updateCurHash (singleLevelListHash hash element childCol)
        some (m.popped top.curHash rest)
      | _ =>
        if top.idxToProcess = childCol.size then some (m.popped top.curHash rest)
        else
          let top' := { top with idxToProcess := top.idxToProcess + 1 }
          { m with stack := top' :: rest }.push { column := childCol.slice top.idxToProcess 1 }
    -- a primitive column is never pushed, and would stay on the stack
    | .leaf _ => some m

/-- `stack_size > 0` is false. -/
def Machine.done (m : Machine α) : Bool := m.stack.isEmpty

/-- `element_hasher_adapter::operator()`, with a bound on the turns of its loop. -/
def elementHasherAdapter (hash : α → Value) (turns : Nat) (col : Column α) (row : Nat) :
    Option Value :=
  match col with
  | .leaf element => some (elementHash hash element row)
  | col =>
    (whileLoop Machine.done (step hash) turns
      { stack := [{ column := { column := col, offset := row, size := 1 } }] }).map Machine.root

/-- `hive_device_row_hasher::operator()` -/
def rowHasher (hash : α → Value) (turns : Nat) (table : List (Column α)) (row : Nat) :
    Option Value :=
  table.foldlM
    (fun h column =>
      (elementHasherAdapter hash turns column row).map fun curHash => hiveHashFactor * h + curHash)
    hiveInitHash

mutual

/-- `get_nested_depth` -/
def getNestedDepth : Column α → Nat
  | .leaf _ => 0
  | .list _ _ child => 1 + getNestedDepth child
  | .struct _ children => 1 + maxChildDepth children

def maxChildDepth : List (Column α) → Nat
  | [] => 0
  | c :: cs => max (getNestedDepth c) (maxChildDepth cs)

end

/-! ### The recursion -/

/-- `h ↦ 31 * h + hash`, over hashes. -/
def fold (hashes : List Value) (init : Value) : Value :=
  hashes.foldl (fun h hash => hiveHashFactor * h + hash) init

mutual

/-- The hash of a row as Spark defines it. -/
@[grind] def sparkHash (hash : α → Value) : Column α → Nat → Value
  | .leaf element, row => elementHash hash element row
  | .list isValid offsets child, row =>
    if isValid row then
      fold ((List.range' (offsets row) (offsets (row + 1) - offsets row)).map
        (sparkHash hash child)) hiveInitHash
    else 0
  | .struct isValid children, row =>
    if isValid row then fold (sparkHashes hash children row) hiveInitHash else 0

def sparkHashes (hash : α → Value) : List (Column α) → Nat → List Value
  | [], _ => []
  | c :: cs, row => sparkHash hash c row :: sparkHashes hash cs row

end

variable {hash : α → Value}

theorem sparkHash_of_isNull {c : Column α} {row : Nat} (h : c.IsNull row) :
    sparkHash hash c row = 0 := by
  cases c with
  | leaf element =>
    unfold sparkHash elementHash
    rw [show element row = none from h]
    rfl
  | list isValid offsets child =>
    unfold sparkHash
    rw [if_neg (by rw [show isValid row = false from h]; decide)]
  | struct isValid cs =>
    unfold sparkHash
    rw [if_neg (by rw [show isValid row = false from h]; decide)]

/-- The fold of a null struct's children. -/
theorem fold_sparkHashes_of_isNull {cs : List (Column α)} {row : Nat}
    (h : ∀ c ∈ cs, c.IsNull row) : fold (sparkHashes hash cs row) hiveInitHash = 0 := by
  induction cs with
  | nil => rfl
  | cons c cs ih =>
    obtain ⟨hc, hcs⟩ := List.forall_mem_cons.1 h
    have hzero : hiveHashFactor * hiveInitHash + (0 : Value) = hiveInitHash := by decide
    unfold sparkHashes fold
    rw [List.foldl_cons, sparkHash_of_isNull hc, hzero]
    exact ih hcs

/-- Where nulls are consistent, the hash of a struct is the fold over its children, null or not. -/
theorem sparkHash_struct {isValid : Nat → Bool} {cs : List (Column α)}
    (h : (Column.struct isValid cs).NullsConsistent) (row : Nat) :
    sparkHash hash (.struct isValid cs) row =
      fold (sparkHashes hash cs row) hiveInitHash := by
  obtain ⟨hnull, -⟩ := h.of_struct
  cases hvalid : isValid row with
  | true =>
    rw [sparkHash]
    exact if_pos hvalid
  | false =>
    have hrow : (Column.struct isValid cs).IsNull row := hvalid
    rw [sparkHash_of_isNull hrow, fold_sparkHashes_of_isNull (hnull row hvalid)]

theorem sparkHash_list {isValid : Nat → Bool} {offsets : Nat →o Nat} {child : Column α}
    (h : (Column.list isValid offsets child).NullsConsistent) (row : Nat) :
    sparkHash hash (.list isValid offsets child) row =
      fold ((List.range' (offsets row) (offsets (row + 1) - offsets row)).map
        (sparkHash hash child)) hiveInitHash := by
  obtain ⟨hnull, -⟩ := h.of_list
  cases hvalid : isValid row with
  | true =>
    rw [sparkHash]
    exact if_pos hvalid
  | false =>
    have hrow : (Column.list isValid offsets child).IsNull row := hvalid
    -- the range of a null list is empty
    rw [sparkHash_of_isNull hrow, hnull row hvalid, Nat.sub_self]
    rfl

/-! ### The simulation -/

@[simp]
theorem popped_stack (m : Machine α) (stack : List (Frame α)) (h : Value) (rest : List (Frame α)) :
    ({ m with stack } : Machine α).popped h rest = m.popped h rest := by
  cases rest <;> rfl

/-- The loop hashes a row of the column: with its frame on top it comes to the state in which the
frame is popped. -/
def Processes (hash : α → Value) (c : Column α) : Prop :=
  ∀ (row : Nat) (m : Machine α), m.stack.length + getNestedDepth c ≤ maxStackDepth →
    Turns Machine.done (step hash)
      { m with stack := { column := { column := c, offset := row, size := 1 } } :: m.stack }
      (m.popped (sparkHash hash c row) m.stack)

theorem getNestedDepth_le_maxChildDepth {c : Column α} {cs : List (Column α)} (h : c ∈ cs) :
    getNestedDepth c ≤ maxChildDepth cs :=
  depth_le_of_mem (fun _ _ => by rw [maxChildDepth]) h

theorem getNestedDepth_pos {c : Column α} (h : c.isNested = true) : 0 < getNestedDepth c := by
  cases c with
  | leaf element => cases h
  | list isValid offsets child =>
    unfold getNestedDepth
    exact Nat.add_pos_left Nat.one_pos _
  | struct isValid cs =>
    unfold getNestedDepth
    exact Nat.add_pos_left Nat.one_pos _

/-- The state after the inner loop has gone over the children `cs` that are left. -/
def afterChildren (hash : α → Value) (m : Machine α) (cs : List (Column α)) (top : Frame α) :
    Machine α :=
  match processChildren hash cs top with
  | (top, none) => { m with stack := top :: m.stack }
  | (top, some child) => { m with stack := { column := child } :: top :: m.stack }

section Struct

variable {isValid : Nat → Bool} {children : List (Column α)} {row : Nat} {m : Machine α}
  {cs : List (Column α)} {top : Frame α}

/-- A child the inner loop stops at is nested. -/
theorem processChildren_some {f : Frame α} {v : View α}
    (h : processChildren hash cs top = (f, some v)) :
    ∃ c ∈ cs, c.isNested = true := by
  induction cs generalizing top with
  | nil => cases h
  | cons c cs ih =>
    cases c with
    | leaf element =>
      obtain ⟨d, hd, hnested⟩ := ih h
      exact ⟨d, .tail _ hd, hnested⟩
    | list isValid offsets child => exact ⟨_, .head _, rfl⟩
    | struct isValid children => exact ⟨_, .head _, rfl⟩

theorem step_struct (htop : top.column.column = .struct isValid cs)
    (hidx : top.idxToProcess ≠ cs.length)
    (hroom : ∀ c ∈ cs.drop top.idxToProcess,
      m.stack.length + 1 + getNestedDepth c ≤ maxStackDepth) :
    step hash { m with stack := top :: m.stack } =
      some (afterChildren hash m (cs.drop top.idxToProcess) top) := by
  unfold step
  dsimp only
  rw [htop]
  dsimp only
  rw [if_neg hidx]
  unfold afterChildren
  cases hloop : processChildren hash (cs.drop top.idxToProcess) top with
  | mk f next =>
    cases next with
    | none => rfl
    | some v =>
      -- the stack has room for the frame of a nested child
      obtain ⟨c, hc, hnested⟩ := processChildren_some hloop
      have hlt : m.stack.length + 1 < maxStackDepth :=
        (Nat.lt_add_of_pos_right (getNestedDepth_pos hnested)).trans_le (hroom c hc)
      dsimp only
      unfold Machine.push
      exact if_pos hlt

theorem step_struct_done (htop : top.column.column = .struct isValid cs)
    (hidx : top.idxToProcess = cs.length) :
    step hash { m with stack := top :: m.stack } = some (m.popped top.curHash m.stack) := by
  unfold step
  dsimp only
  rw [htop]
  dsimp only
  rw [if_pos hidx, popped_stack]

/-- The turns over the children that are left: from the state after a run of the inner loop, and
from the head of the loop. -/
theorem turns_children (ih : ∀ c ∈ cs, c.isNested = true → Processes hash c)
    (htop : top.column = { column := .struct isValid children, offset := row, size := 1 })
    (hdrop : children.drop top.idxToProcess = cs) (hle : top.idxToProcess ≤ children.length)
    (hroom : ∀ c ∈ cs, m.stack.length + 1 + getNestedDepth c ≤ maxStackDepth) :
    Turns Machine.done (step hash) (afterChildren hash m cs top)
        (m.popped (fold (sparkHashes hash cs row) top.curHash) m.stack) ∧
      Turns Machine.done (step hash) { m with stack := top :: m.stack }
        (m.popped (fold (sparkHashes hash cs row) top.curHash) m.stack) := by
  induction cs generalizing top with
  | nil =>
    have hidx : top.idxToProcess = children.length :=
      hle.antisymm (List.drop_eq_nil_iff.1 hdrop)
    have hpop : Turns Machine.done (step hash) { m with stack := top :: m.stack }
        (m.popped top.curHash m.stack) :=
      .single rfl (step_struct_done (by rw [htop]) hidx)
    exact ⟨hpop, hpop⟩
  | cons c cs ihcs =>
    have hlt : top.idxToProcess < children.length := by
      by_contra h
      rw [List.drop_eq_nil_of_le (not_lt.1 h)] at hdrop
      cases hdrop
    obtain ⟨ihc, ihcs'⟩ := List.forall_mem_cons.1 ih
    obtain ⟨hroomc, hroomcs⟩ := List.forall_mem_cons.1 hroom
    -- the frame once the child has been accounted for, and what is left of the fold
    set top' := ({ top with idxToProcess := top.idxToProcess + 1 } : Frame α).updateCurHash
      (sparkHash hash c row) with htop'
    have hfold : fold (sparkHashes hash (c :: cs) row) top.curHash =
        fold (sparkHashes hash cs row) top'.curHash := by
      change fold (sparkHashes hash cs row) (hiveHashFactor * top.curHash + sparkHash hash c row) = _
      rw [BitVec.mul_comm]
      rfl
    have hdrop' : children.drop top'.idxToProcess = cs := by
      change children.drop (top.idxToProcess + 1) = cs
      rw [← List.tail_drop, hdrop, List.tail_cons]
    obtain ⟨hrun, hturns⟩ := @ihcs top' ihcs' htop hdrop' hlt hroomcs
    have hafter : Turns Machine.done (step hash) (afterChildren hash m (c :: cs) top)
        (m.popped (fold (sparkHashes hash (c :: cs) row) top.curHash) m.stack) := by
      rw [hfold]
      have nested : c.isNested = true → Turns Machine.done (step hash)
          { m with stack := { column := top.column.slicedStructChild c } ::
            { top with idxToProcess := top.idxToProcess + 1 } :: m.stack }
          (m.popped (fold (sparkHashes hash cs row) top'.curHash) m.stack) := by
        intro hnested
        have hchild := ihc hnested row
          { m with stack := { top with idxToProcess := top.idxToProcess + 1 } :: m.stack } hroomc
        have hview : top.column.slicedStructChild c = { column := c, offset := row, size := 1 } := by
          rw [htop]
          rfl
        rw [hview]
        exact hchild.trans hturns
      cases c with
      | leaf element =>
        -- the inner loop goes on
        have hhash : sparkHash hash (.leaf element) row =
            elementHash hash element top.column.offset := by
          rw [htop]
          rfl
        have hsame : afterChildren hash m (.leaf element :: cs) top = afterChildren hash m cs top' := by
          rw [htop', hhash]
          rfl
        rw [hsame]
        exact hrun
      | list isValid offsets child => exact nested rfl
      | struct isValid children => exact nested rfl
    refine ⟨hafter, .head rfl ?_ hafter⟩
    rw [step_struct (by rw [htop]) hlt.ne (by rw [hdrop]; exact hroom), hdrop]

theorem processes_struct (hnull : (Column.struct isValid cs).NullsConsistent)
    (ih : ∀ c ∈ cs, c.isNested = true → Processes hash c) :
    Processes hash (.struct isValid cs) := by
  intro row m hroom
  unfold getNestedDepth at hroom
  rw [sparkHash_struct hnull]
  refine (turns_children ih rfl rfl (Nat.zero_le _) fun c hc => ?_).2
  have hdepth := getNestedDepth_le_maxChildDepth hc
  omega

end Struct

section Lists

variable {isValid : Nat → Bool} {offsets : Nat →o Nat} {child : Column α} {row : Nat}
  {m : Machine α} {top : Frame α}

theorem fold_map_range' (f : Nat → Value) (start n : Nat) :
    fold ((List.range' start n).map f) hiveInitHash =
      (List.range n).foldl (fun h i => hiveHashFactor * h + f (start + i)) hiveInitHash := by
  unfold fold
  rw [List.foldl_map, List.range'_eq_map_range, List.foldl_map]

/-- A list of primitives is hashed in one turn. -/
theorem processes_list_leaf {element : Nat → Option α}
    (hnull : (Column.list isValid offsets (.leaf element)).NullsConsistent) :
    Processes hash (.list isValid offsets (.leaf element)) := by
  intro row m _
  refine .single rfl ?_
  have hhash : hiveInitHash * hiveHashFactor + singleLevelListHash hash element
      { column := .leaf element, offset := offsets row, size := offsets (row + 1) - offsets row } =
      sparkHash hash (.list isValid offsets (.leaf element)) row := by
    rw [sparkHash_list hnull, fold_map_range', hiveInitHash, zero_mul, zero_add]
    rfl
  rw [← hhash]
  unfold step
  dsimp only
  rw [popped_stack]
  rfl

theorem step_list (htop : top.column = { column := .list isValid offsets child, offset := row, size := 1 })
    (hnested : child.isNested = true) :
    step hash { m with stack := top :: m.stack } =
      if top.idxToProcess = offsets (row + 1) - offsets row then
        some (m.popped top.curHash m.stack)
      else
        ({ m with stack := { top with idxToProcess := top.idxToProcess + 1 } :: m.stack } :
          Machine α).push
          { column := { column := child, offset := offsets row + top.idxToProcess, size := 1 } } := by
  unfold step
  dsimp only
  rw [htop]
  cases child with
  | leaf element => cases hnested
  | list isValid offsets child => simp only [popped_stack]; rfl
  | struct isValid cs => simp only [popped_stack]; rfl

/-- The elements that are left, one frame each. -/
theorem turns_elements (hnested : child.isNested = true) (ih : Processes hash child)
    (htop : top.column = { column := .list isValid offsets child, offset := row, size := 1 })
    {left : Nat} (hleft : top.idxToProcess + left = offsets (row + 1) - offsets row)
    (hroom : m.stack.length + 1 + getNestedDepth child ≤ maxStackDepth) :
    Turns Machine.done (step hash) { m with stack := top :: m.stack }
      (m.popped (fold ((List.range' (offsets row + top.idxToProcess) left).map
        (sparkHash hash child)) top.curHash) m.stack) := by
  induction left generalizing top with
  | zero => exact .single rfl ((step_list htop hnested).trans (if_pos hleft))
  | succ n ihn =>
    -- the stack has room for the frame of the element
    have hlt : m.stack.length + 1 < maxStackDepth :=
      (Nat.lt_add_of_pos_right (getNestedDepth_pos hnested)).trans_le hroom
    have hidx : top.idxToProcess ≠ offsets (row + 1) - offsets row := by omega
    set element := offsets row + top.idxToProcess with helement
    set next := ({ top with idxToProcess := top.idxToProcess + 1 } : Frame α).updateCurHash
      (sparkHash hash child element) with hnext
    refine .head rfl ((step_list htop hnested).trans ((if_neg hidx).trans (if_pos hlt))) ?_
    refine (ih element { m with stack := { top with idxToProcess := top.idxToProcess + 1 } ::
      m.stack } hroom).trans ?_
    have hrest := @ihn next htop (by
      change top.idxToProcess + 1 + n = _
      omega)
    have hfold : fold ((List.range' element (n + 1)).map (sparkHash hash child)) top.curHash =
        fold ((List.range' (offsets row + next.idxToProcess) n).map (sparkHash hash child))
          next.curHash := by
      rw [List.range'_succ, List.map_cons, hnext, helement]
      change fold _ (hiveHashFactor * top.curHash + _) = fold _ (top.curHash * hiveHashFactor + _)
      rw [mul_comm]
      rfl
    rw [hfold]
    exact hrest

theorem processes_list (hnull : (Column.list isValid offsets child).NullsConsistent)
    (hnested : child.isNested = true) (ih : Processes hash child) :
    Processes hash (.list isValid offsets child) := by
  intro row m hroom
  unfold getNestedDepth at hroom
  rw [sparkHash_list hnull]
  refine turns_elements hnested ih rfl (Nat.zero_add _) ?_
  rwa [Nat.add_assoc]

end Lists

variable (hash) in
/-- The loop hashes every row of every nested column. -/
theorem processes {c : Column α} (hnull : c.NullsConsistent) (hnested : c.isNested = true) :
    Processes hash c := by
  induction c using Column.induct with
  | leaf element => cases hnested
  | list isValid offsets child ih =>
    have hchild := ih hnull.of_list.2
    cases child with
    | leaf element => exact processes_list_leaf hnull
    | list isValid' offsets' child' => exact processes_list hnull rfl (hchild rfl)
    | struct isValid' children' => exact processes_list hnull rfl (hchild rfl)
  | struct isValid cs ih =>
    exact processes_struct hnull fun c hc hc' => ih c hc (hnull.of_struct.2 c hc) hc'

variable (hash) in
/-- The functor ends with the hash of the recursion, whatever the bound on its turns, if that is
large enough. -/
theorem elementHasherAdapter_eq {c : Column α} (hnull : c.NullsConsistent)
    (hdepth : getNestedDepth c ≤ maxStackDepth) (row : Nat) :
    ∃ turns, ∀ n, turns ≤ n → elementHasherAdapter hash n c row = some (sparkHash hash c row) := by
  have nested : c.isNested = true → ∃ turns, ∀ n, turns ≤ n →
      (whileLoop Machine.done (step hash) n
        { stack := [{ column := { column := c, offset := row, size := 1 } }] }).map Machine.root =
        some (sparkHash hash c row) := by
    intro hnested
    have hturns := processes hash hnull hnested row { stack := [] }
      (by rwa [List.length_nil, Nat.zero_add])
    obtain ⟨turns, h⟩ := hturns.whileLoop_eq rfl
    exact ⟨turns, fun n hn => congrArg (Option.map Machine.root) (h n hn)⟩
  cases c with
  | leaf element => exact ⟨0, fun n _ => rfl⟩
  | list isValid offsets child => exact nested rfl
  | struct isValid cs => exact nested rfl

theorem foldlM_adapter {n : Nat} {row : Nat} {table : List (Column α)}
    (h : ∀ c ∈ table, elementHasherAdapter hash n c row = some (sparkHash hash c row))
    (init : Value) :
    table.foldlM (fun h column =>
        (elementHasherAdapter hash n column row).map fun curHash => hiveHashFactor * h + curHash)
      init = some (fold (sparkHashes hash table row) init) := by
  induction table generalizing init with
  | nil => rfl
  | cons c cs ih =>
    obtain ⟨hc, hcs⟩ := List.forall_mem_cons.1 h
    rw [List.foldlM_cons, hc]
    exact ih hcs _

/-- **The stack machine is the recursion**: for every table that `check_nested_depth` lets pass and
whose nulls are consistent, and every row, the loop ends for each column without overflowing the
stack, and gives the hash of the recursion; the hash of the row is the same fold over the columns. -/
theorem hiveHash_recursion {table : List (Column α)}
    (hok : checkNestedDepth getNestedDepth table = .ok ())
    (hnull : ∀ c ∈ table, c.NullsConsistent) (row : Nat) :
    ∃ turns, ∀ n, turns ≤ n →
      (∀ c ∈ table, elementHasherAdapter hash n c row = some (sparkHash hash c row)) ∧
      rowHasher hash n table row = some (fold (sparkHashes hash table row) hiveInitHash) := by
  have hdepth := depth_le_of_checkNestedDepth hok
  have hcolumns : ∃ turns, ∀ n, turns ≤ n →
      ∀ c ∈ table, elementHasherAdapter hash n c row = some (sparkHash hash c row) := by
    clear hok
    induction table with
    | nil => exact ⟨0, fun n _ c hc => absurd hc List.not_mem_nil⟩
    | cons c cs ih =>
      obtain ⟨hnullc, hnullcs⟩ := List.forall_mem_cons.1 hnull
      obtain ⟨hdepthc, hdepthcs⟩ := List.forall_mem_cons.1 hdepth
      obtain ⟨turns, hturns⟩ := elementHasherAdapter_eq hash hnullc hdepthc row
      obtain ⟨turns', hturns'⟩ := ih hnullcs hdepthcs
      refine ⟨max turns turns', fun n hn => List.forall_mem_cons.2 ⟨?_, ?_⟩⟩
      · exact hturns n ((le_max_left ..).trans hn)
      · exact hturns' n ((le_max_right ..).trans hn)
  obtain ⟨turns, hturns⟩ := hcolumns
  exact ⟨turns, fun n hn => ⟨hturns n hn, foldlM_adapter (hturns n hn) hiveInitHash⟩⟩

/-- A struct whose row 0 is null, and so is the child there; the child of row 1 is 7. -/
def nullThenSeven : Column Value :=
  .struct (fun row => row != 0) [.leaf fun row => if row = 0 then none else some 7]

theorem hiveHash_recursion_nullThenSeven :
    ∃ turns, ∀ n, turns ≤ n →
      (∀ c ∈ [nullThenSeven], elementHasherAdapter id n c 0 = some (sparkHash id c 0)) ∧
      rowHasher id n [nullThenSeven] 0 = some (fold (sparkHashes id [nullThenSeven] 0) 0) := by
  refine hiveHash_recursion rfl (List.forall_mem_singleton.2 (.struct ?_ ?_)) 0
  · intro row hrow c hc
    cases List.mem_singleton.1 hc
    exact if_pos (by simpa using hrow)
  · exact List.forall_mem_singleton.2 (.leaf _)

/-- A null struct with a child that is not null. -/
def nullStruct : Column Value := .struct (fun _ => false) [.leaf fun _ => some 5]

/-- It hashes to the hash of the child. -/
theorem null_struct_hashed :
    checkNestedDepth getNestedDepth [nullStruct] = .ok () ∧ nullStruct.NullListsEmpty ∧
      ¬∃ turns, ∀ n, turns ≤ n →
        elementHasherAdapter id n nullStruct 0 = some (sparkHash id nullStruct 0) := by
  refine ⟨rfl, .struct (List.forall_mem_singleton.2 (.leaf _)), ?_⟩
  rintro ⟨turns, h⟩
  -- two turns: the child is hashed, and the frame is popped
  have hrun : elementHasherAdapter id (turns + 2) nullStruct 0 = some 5 :=
    congrArg (Option.map Machine.root)
      (whileLoop_of_done rfl turns :
        whileLoop Machine.done (step id) turns { stack := [], root := 5 } = some _)
  have hspec := h (turns + 2) (Nat.le_add_right ..)
  rw [hrun, show sparkHash id nullStruct 0 = 0 from rfl] at hspec
  exact absurd (Option.some.inj hspec) (by decide)

end SparkRapids.Hash.HiveHash
