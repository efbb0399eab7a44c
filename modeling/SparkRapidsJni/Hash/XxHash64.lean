import SparkRapidsJni.Hash.NestedColumn

/-!
# XXHash64 of nested columns

The hash of a nested value is a fold over its leaves: each leaf is hashed with the hash so far as
the seed, and nulls are skipped. The kernel goes through the leaves depth first with a stack of
columns. A list is replaced by its innermost child that is not a list, since the rows of that below a
range of lists are a range again. A struct column of at most one row stands for its element and
pushes its children; one of several rows pushes its rows, one after the other.

`xxhash64_leaves` is the simulation: the loop ends, never has more than `MAX_STACK_DEPTH` frames on
the stack, and folds over the leaves in depth-first order.
-/

namespace SparkRapids.Hash.XxHash64

variable {α : Type}

/-- `hash_value_type` -/
abbrev Value := BitVec 64

/-- `element_hasher`, with the seed. `hash seed a` is `XXHash_64{seed}(a)`. -/
def elementHasher (hash : Value → α → Value) (seed : Value) (element : Nat → Option α) (row : Nat) :
    Value :=
  match element row with
  | none => seed
  | some a => hash seed a

/-! ### The stack machine -/

/-- `col_stack_frame` -/
structure Frame (α : Type) where
  column : View α
  idxToProcess : Nat := 0

/-- The frames in use, the top first, and the hash so far. -/
structure Machine (α : Type) where
  stack : List (Frame α)
  ret : Value

/-- `col_stack[stack_size++] = frame`, which has to stay within the array. -/
def Machine.push (m : Machine α) (frame : Frame α) : Option (Machine α) :=
  if m.stack.length < maxStackDepth then some { m with stack := frame :: m.stack } else none

/-- The innermost child that is not a list, of these rows of the column. -/
def innermostNonList : Column α → Nat → Nat → View α
  | .list isValid offsets child, offset, size =>
    let v := ({ column := .list isValid offsets child, offset, size } : View α).slicedListChild
      offsets child
    innermostNonList child v.offset v.size
  | .leaf element, offset, size => { column := .leaf element, offset, size }
  | .struct isValid children, offset, size => { column := .struct isValid children, offset, size }

/-- A turn of the loop. -/
def step (hash : Value → α → Value) (m : Machine α) : Option (Machine α) :=
  match m.stack with
  | [] => none
  | top :: rest =>
    let next := { top with idxToProcess := top.idxToProcess + 1 }
    match top.column.column with
    | .list _ _ _ =>
      some { m with stack :=
        { column := innermostNonList top.column.column top.column.offset top.column.size } :: rest }
    | .struct _ children =>
      if top.column.size ≤ 1 then
        -- struct element
        if top.idxToProcess = children.length then some { m with stack := rest }
        else
          match children[top.idxToProcess]? with
          | none => none
          | some child =>
            { m with stack := next :: rest }.push { column := top.column.slicedStructChild child }
      else
        -- struct column
        if top.idxToProcess = top.column.size then some { m with stack := rest }
        else { m with stack := next :: rest }.push { column := top.column.slice top.idxToProcess 1 }
    | .leaf element =>
      some
        { stack := rest
          ret := (List.range top.column.size).foldl
            (fun seed i => elementHasher hash seed element (top.column.offset + i)) m.ret }

/-- `stack_size > 0` is false. -/
def Machine.done (m : Machine α) : Bool := m.stack.isEmpty

/-- `element_hasher_adapter::operator()`, with a bound on the turns of its loop. -/
def elementHasherAdapter (hash : Value → α → Value) (turns : Nat) (col : Column α) (row : Nat)
    (seed : Value) : Option Value :=
  match col with
  | .leaf element => some (elementHasher hash seed element row)
  | col =>
    (whileLoop Machine.done (step hash) turns
      { stack := [{ column := { column := col, offset := row, size := 1 } }], ret := seed }).map
      Machine.ret

/-- `device_row_hasher::operator()` -/
def rowHasher (hash : Value → α → Value) (turns : Nat) (table : List (Column α)) (row : Nat)
    (seed : Value) : Option Value :=
  table.foldlM (fun h column => elementHasherAdapter hash turns column row h) seed

/-- The type is `STRUCT`. -/
def isStruct : Column α → Bool
  | .struct _ _ => true
  | _ => false

mutual

/-- `get_nested_depth`: the structs of a list and their elements are both on the stack. -/
def getNestedDepth : Column α → Nat
  | .leaf _ => 1
  | .list _ _ child => if isStruct child then 1 + getNestedDepth child else getNestedDepth child
  | .struct _ children => 1 + maxChildDepth children

def maxChildDepth : List (Column α) → Nat
  | [] => 0
  | c :: cs => max (getNestedDepth c) (maxChildDepth cs)

end

/-! ### The leaves -/

mutual

/-- The leaves of a row, depth first, without nulls. -/
@[grind] def leaves : Column α → Nat → List α
  | .leaf element, row => (element row).toList
  | .list isValid offsets child, row =>
    if isValid row then
      (List.range' (offsets row) (offsets (row + 1) - offsets row)).flatMap (leaves child)
    else []
  | .struct isValid children, row => if isValid row then leavesAll children row else []

def leavesAll : List (Column α) → Nat → List α
  | [], _ => []
  | c :: cs, row => leaves c row ++ leavesAll cs row

end

/-- The leaves of some rows. -/
def rangeLeaves (c : Column α) (offset size : Nat) : List α :=
  (List.range' offset size).flatMap (leaves c)

theorem rangeLeaves_one (c : Column α) (offset : Nat) : rangeLeaves c offset 1 = leaves c offset :=
  List.flatMap_singleton ..

theorem rangeLeaves_succ (c : Column α) (offset size : Nat) :
    rangeLeaves c offset (size + 1) = leaves c offset ++ rangeLeaves c (offset + 1) size := by
  unfold rangeLeaves
  rw [List.range'_succ, List.flatMap_cons]

theorem rangeLeaves_add (c : Column α) (offset size size' : Nat) :
    rangeLeaves c offset (size + size') =
      rangeLeaves c offset size ++ rangeLeaves c (offset + size) size' := by
  unfold rangeLeaves
  rw [← List.flatMap_append, List.range'_append_1]

theorem leaves_of_isNull {c : Column α} {row : Nat} (h : c.IsNull row) : leaves c row = [] := by
  cases c with
  | leaf element =>
    unfold leaves
    rw [show element row = none from h]
    rfl
  | list isValid offsets child =>
    unfold leaves
    rw [if_neg (by rw [show isValid row = false from h]; decide)]
  | struct isValid cs =>
    unfold leaves
    rw [if_neg (by rw [show isValid row = false from h]; decide)]

theorem leavesAll_eq_flatMap (cs : List (Column α)) (row : Nat) :
    leavesAll cs row = cs.flatMap fun c => leaves c row := by
  induction cs with
  | nil => rfl
  | cons c cs ih =>
    unfold leavesAll
    rw [ih, List.flatMap_cons]

section

variable {isValid : Nat → Bool} {offsets : Nat →o Nat} {child : Column α}
  {cs : List (Column α)}

/-- The leaves of a struct are those of its children, null or not. -/
theorem leaves_struct (h : (Column.struct isValid cs).NullsConsistent) (row : Nat) :
    leaves (.struct isValid cs) row = cs.flatMap fun c => leaves c row := by
  cases hvalid : isValid row with
  | true =>
    rw [leaves, if_pos hvalid, leavesAll_eq_flatMap]
  | false =>
    have hrow : (Column.struct isValid cs).IsNull row := hvalid
    rw [leaves_of_isNull hrow, eq_comm, List.flatMap_eq_nil_iff]
    exact fun c hc => leaves_of_isNull (h.of_struct.1 row hvalid c hc)

theorem leaves_list (h : (Column.list isValid offsets child).NullsConsistent) (row : Nat) :
    leaves (.list isValid offsets child) row =
      rangeLeaves child (offsets row) (offsets (row + 1) - offsets row) := by
  cases hvalid : isValid row with
  | true =>
    unfold leaves
    rw [if_pos hvalid]
    rfl
  | false =>
    have hrow : (Column.list isValid offsets child).IsNull row := hvalid
    -- the range of a null list is empty
    rw [leaves_of_isNull hrow, h.of_list.1 row hvalid, Nat.sub_self]
    rfl

/-- The rows below a range of lists are a range. -/
theorem rangeLeaves_list (h : (Column.list isValid offsets child).NullsConsistent)
    (offset size : Nat) :
    rangeLeaves (.list isValid offsets child) offset size =
      rangeLeaves child (offsets offset) (offsets (offset + size) - offsets offset) := by
  induction size generalizing offset with
  | zero =>
    rw [Nat.add_zero, Nat.sub_self]
    rfl
  | succ n ih =>
    have h1 : offsets offset ≤ offsets (offset + 1) := offsets.monotone (Nat.le_succ _)
    have h2 : offsets (offset + 1) ≤ offsets (offset + 1 + n) :=
      offsets.monotone (Nat.le_add_right ..)
    have hsum : offsets (offset + (n + 1)) - offsets offset =
        (offsets (offset + 1) - offsets offset) +
          (offsets (offset + 1 + n) - offsets (offset + 1)) := by
      rw [show offset + (n + 1) = offset + 1 + n by omega]
      omega
    rw [rangeLeaves_succ, leaves_list h, ih, hsum, rangeLeaves_add, Nat.add_sub_cancel' h1]

end

/-! ### The simulation -/

/-- The frames that some rows of a column need. -/
def framesFor : Column α → Nat → Nat
  | .struct isValid children, size =>
    if size ≤ 1 then getNestedDepth (.struct isValid children)
    else 1 + getNestedDepth (.struct isValid children)
  | c, _ => getNestedDepth c

theorem framesFor_struct (isValid : Nat → Bool) (cs : List (Column α)) (size : Nat) :
    framesFor (.struct isValid cs) size =
      if size ≤ 1 then getNestedDepth (.struct isValid cs)
      else 1 + getNestedDepth (.struct isValid cs) := rfl

theorem framesFor_of_le {c : Column α} {size : Nat} (h : size ≤ 1) :
    framesFor c size = getNestedDepth c := by
  cases c with
  | leaf element => rfl
  | list isValid offsets child => rfl
  | struct isValid cs => exact if_pos h

/-- `get_nested_depth` of a list has room for its child, however many rows that has. -/
theorem framesFor_child_le (isValid : Nat → Bool) (offsets : Nat →o Nat) (child : Column α)
    (size : Nat) : framesFor child size ≤ getNestedDepth (.list isValid offsets child) := by
  conv_rhs => unfold getNestedDepth
  cases child with
  | leaf element => exact le_rfl
  | list isValid offsets child => exact le_rfl
  | struct isValid cs =>
    have hstruct : isStruct (.struct isValid cs) = true := rfl
    rw [if_pos hstruct, framesFor_struct]
    split_ifs
    · exact Nat.le_add_left ..
    · exact le_rfl

theorem getNestedDepth_pos (c : Column α) : 0 < getNestedDepth c := by
  induction c using Column.induct with
  | leaf element => exact Nat.one_pos
  | list isValid offsets child ih =>
    unfold getNestedDepth
    split_ifs
    · exact Nat.add_pos_left Nat.one_pos _
    · exact ih
  | struct isValid cs ih =>
    unfold getNestedDepth
    exact Nat.add_pos_left Nat.one_pos _

theorem getNestedDepth_le_maxChildDepth {c : Column α} {cs : List (Column α)} (h : c ∈ cs) :
    getNestedDepth c ≤ maxChildDepth cs :=
  depth_le_of_mem (fun _ _ => by rw [maxChildDepth]) h

variable {hash : Value → α → Value}

/-- The loop folds over the leaves of some rows of a column, whose innermost child is on top. -/
def Processes (hash : Value → α → Value) (c : Column α) : Prop :=
  ∀ (offset size : Nat) (stack : List (Frame α)) (ret : Value),
    stack.length + framesFor c size ≤ maxStackDepth →
    Turns Machine.done (step hash)
      { stack := { column := innermostNonList c offset size } :: stack, ret }
      { stack, ret := (rangeLeaves c offset size).foldl hash ret }

/-- A column on top is replaced by its innermost child first. -/
theorem Processes.turns {c : Column α} (h : Processes hash c) {offset size : Nat}
    {stack : List (Frame α)} {ret : Value}
    (hroom : stack.length + framesFor c size ≤ maxStackDepth) :
    Turns Machine.done (step hash)
      { stack := { column := { column := c, offset, size } } :: stack, ret }
      { stack, ret := (rangeLeaves c offset size).foldl hash ret } := by
  have hturns := h offset size stack ret hroom
  cases c with
  | leaf element => exact hturns
  | list isValid offsets child => exact .head rfl rfl hturns
  | struct isValid cs => exact hturns

theorem foldl_leaves_leaf (element : Nat → Option α) (row : Nat) (seed : Value) :
    (leaves (.leaf element) row).foldl hash seed = elementHasher hash seed element row := by
  unfold leaves elementHasher
  cases element row <;> rfl

theorem processes_leaf (element : Nat → Option α) : Processes hash (.leaf element) := by
  intro offset size stack ret _
  refine .single rfl ?_
  have hfold : (rangeLeaves (.leaf element) offset size).foldl hash ret =
      (List.range size).foldl
        (fun seed i => elementHasher hash seed element (offset + i)) ret := by
    unfold rangeLeaves
    rw [List.foldl_flatMap, List.range'_eq_map_range, List.foldl_map]
    simp only [foldl_leaves_leaf]
  rw [hfold]
  rfl

theorem processes_list {isValid : Nat → Bool} {offsets : Nat →o Nat} {child : Column α}
    (hnull : (Column.list isValid offsets child).NullsConsistent) (ih : Processes hash child) :
    Processes hash (.list isValid offsets child) := by
  intro offset size stack ret hroom
  rw [rangeLeaves_list hnull]
  refine ih (offsets offset) (offsets (offset + size) - offsets offset) stack ret ?_
  exact (Nat.add_le_add_left (framesFor_child_le isValid offsets child _) _).trans hroom

section Struct

variable {isValid : Nat → Bool} {cs : List (Column α)} {offset size : Nat}
  {stack : List (Frame α)} {ret : Value}

theorem push_of_room {frame top : Frame α} {c : Column α}
    (hroom : stack.length + 1 + getNestedDepth c ≤ maxStackDepth) :
    ({ stack := top :: stack, ret } : Machine α).push frame =
      some { stack := frame :: top :: stack, ret } :=
  if_pos ((Nat.lt_add_of_pos_right (getNestedDepth_pos c)).trans_le hroom)

/-- The children of a struct element that are left. -/
theorem turns_children {cs : List (Column α)} {idx : Nat} (hsize : size ≤ 1)
    (ih : ∀ c ∈ cs, Processes hash c) (hdrop : children.drop idx = cs)
    (hle : idx ≤ children.length)
    (hroom : ∀ c ∈ cs, stack.length + 1 + getNestedDepth c ≤ maxStackDepth) :
    Turns Machine.done (step hash)
      { stack :=
          { column := { column := .struct isValid children, offset, size }, idxToProcess := idx } ::
            stack
        ret }
      { stack, ret := (cs.flatMap fun c => rangeLeaves c offset size).foldl hash ret } := by
  induction cs generalizing idx ret with
  | nil =>
    have hidx : idx = children.length := hle.antisymm (List.drop_eq_nil_iff.1 hdrop)
    refine .single rfl ?_
    unfold step
    dsimp only
    rw [if_pos hsize, if_pos hidx]
    rfl
  | cons c cs ihcs =>
    obtain ⟨ihc, ihcs'⟩ := List.forall_mem_cons.1 ih
    obtain ⟨hroomc, hroomcs⟩ := List.forall_mem_cons.1 hroom
    have hget : children[idx]? = some c := by
      rw [← List.head?_drop, hdrop, List.head?_cons]
    have hlt : idx < children.length := (List.getElem?_eq_some_iff.1 hget).1
    have hdrop' : children.drop (idx + 1) = cs := by
      rw [← List.tail_drop, hdrop, List.tail_cons]
    -- the frame of the struct while the child is on top of it
    set next : Frame α :=
      { column := { column := .struct isValid children, offset, size }, idxToProcess := idx + 1 }
    have hstep : step hash
        { stack :=
            { column := { column := .struct isValid children, offset, size },
              idxToProcess := idx } :: stack
          ret } = some
        { stack := { column := { column := c, offset, size } } :: next :: stack, ret } := by
      unfold step
      dsimp only
      rw [if_pos hsize, if_neg hlt.ne, hget]
      exact push_of_room hroomc
    have hchild : Turns Machine.done (step hash)
        { stack := { column := { column := c, offset, size } } :: next :: stack, ret }
        { stack := next :: stack, ret := (rangeLeaves c offset size).foldl hash ret } :=
      ihc.turns (by rwa [framesFor_of_le hsize])
    rw [List.flatMap_cons, List.foldl_append]
    exact .head rfl hstep (hchild.trans (ihcs ihcs' hdrop' hlt hroomcs))

variable (hnull : (Column.struct isValid cs).NullsConsistent)
include hnull

/-- A struct element. -/
theorem turns_element (ih : ∀ c ∈ cs, Processes hash c) (hsize : size ≤ 1)
    (hroom : stack.length + getNestedDepth (.struct isValid cs) ≤ maxStackDepth) :
    Turns Machine.done (step hash)
      { stack := { column := { column := .struct isValid cs, offset, size } } :: stack, ret }
      { stack, ret := (rangeLeaves (.struct isValid cs) offset size).foldl hash ret } := by
  have hleaves : rangeLeaves (.struct isValid cs) offset size =
      cs.flatMap fun c => rangeLeaves c offset size := by
    obtain rfl | rfl := Nat.le_one_iff_eq_zero_or_eq_one.1 hsize
    · -- the struct of an empty list
      exact (List.flatMap_eq_nil_iff.2 fun _ _ => rfl).symm
    · simp only [rangeLeaves_one]
      exact leaves_struct hnull offset
  rw [hleaves]
  unfold getNestedDepth at hroom
  refine turns_children hsize ih rfl (Nat.zero_le _) fun c hc => ?_
  have hdepth := getNestedDepth_le_maxChildDepth hc
  omega

/-- The rows of a struct column that are left. -/
theorem turns_rows (ih : ∀ c ∈ cs, Processes hash c) (hsize : ¬size ≤ 1) {idx left : Nat}
    (hleft : idx + left = size)
    (hroom : stack.length + 1 + getNestedDepth (.struct isValid cs) ≤ maxStackDepth) :
    Turns Machine.done (step hash)
      { stack :=
          { column := { column := .struct isValid cs, offset, size }, idxToProcess := idx } ::
            stack
        ret }
      { stack
        ret := (rangeLeaves (.struct isValid cs) (offset + idx) left).foldl hash ret } := by
  induction left generalizing idx ret with
  | zero =>
    have hidx : idx = size := hleft
    refine .single rfl ?_
    unfold step
    dsimp only
    rw [if_neg hsize, if_pos hidx]
    rfl
  | succ n ihn =>
    have hidx : idx ≠ size := by omega
    set next : Frame α :=
      { column := { column := .struct isValid cs, offset, size }, idxToProcess := idx + 1 }
    have hstep : step hash
        { stack :=
            { column := { column := .struct isValid cs, offset, size },
              idxToProcess := idx } :: stack
          ret } = some
        { stack :=
            { column := { column := .struct isValid cs, offset := offset + idx, size := 1 } } ::
              next :: stack
          ret } := by
      unfold step
      dsimp only
      rw [if_neg hsize, if_neg hidx]
      exact push_of_room hroom
    -- the element on top is hashed, and the turn goes on with the rows that are left
    have helement : Turns Machine.done (step hash)
        { stack :=
            { column := { column := .struct isValid cs, offset := offset + idx, size := 1 } } ::
              next :: stack
          ret }
        { stack := next :: stack
          ret := (rangeLeaves (.struct isValid cs) (offset + idx) 1).foldl hash ret } :=
      turns_element hnull ih le_rfl hroom
    have hrest := @ihn ((rangeLeaves (.struct isValid cs) (offset + idx) 1).foldl hash ret)
      (idx + 1) (by omega)
    rw [Nat.add_comm n 1, rangeLeaves_add, List.foldl_append]
    exact .head rfl hstep (helement.trans hrest)

theorem processes_struct (ih : ∀ c ∈ cs, Processes hash c) : Processes hash (.struct isValid cs) := by
  intro offset size stack ret hroom
  rw [framesFor_struct] at hroom
  by_cases hsize : size ≤ 1
  · rw [if_pos hsize] at hroom
    exact turns_element hnull ih hsize hroom
  · rw [if_neg hsize, ← Nat.add_assoc] at hroom
    exact turns_rows hnull ih hsize (Nat.zero_add _) hroom

end Struct

variable (hash) in
/-- The loop folds over the leaves of every column. -/
theorem processes {c : Column α} (hnull : c.NullsConsistent) : Processes hash c := by
  induction c using Column.induct with
  | leaf element => exact processes_leaf element
  | list isValid offsets child ih => exact processes_list hnull (ih hnull.of_list.2)
  | struct isValid cs ih =>
    exact processes_struct hnull fun c hc => ih c hc (hnull.of_struct.2 c hc)

variable (hash) in
/-- The functor ends with the fold over the leaves, for every seed, whatever the bound on its turns,
if that is large enough. -/
theorem elementHasherAdapter_eq {c : Column α} (hnull : c.NullsConsistent)
    (hdepth : getNestedDepth c ≤ maxStackDepth) (row : Nat) (seed : Value) :
    ∃ turns, ∀ n, turns ≤ n →
      elementHasherAdapter hash n c row seed = some ((leaves c row).foldl hash seed) := by
  have nested : ∃ turns, ∀ n, turns ≤ n →
      (whileLoop Machine.done (step hash) n
        { stack := [{ column := { column := c, offset := row, size := 1 } }], ret := seed }).map
          Machine.ret = some ((leaves c row).foldl hash seed) := by
    have hroom : ([] : List (Frame α)).length + framesFor c 1 ≤ maxStackDepth := by
      rwa [framesFor_of_le le_rfl, List.length_nil, Nat.zero_add]
    have hturns : Turns Machine.done (step hash)
        { stack := [{ column := { column := c, offset := row, size := 1 } }], ret := seed }
        { stack := [], ret := (rangeLeaves c row 1).foldl hash seed } :=
      (processes hash hnull).turns hroom
    rw [rangeLeaves_one] at hturns
    obtain ⟨turns, h⟩ := hturns.whileLoop_eq rfl
    exact ⟨turns, fun n hn => congrArg (Option.map Machine.ret) (h n hn)⟩
  cases c with
  | leaf element =>
    refine ⟨0, fun n _ => ?_⟩
    rw [foldl_leaves_leaf]
    rfl
  | list isValid offsets child => exact nested
  | struct isValid cs => exact nested

/-- **The hash is the fold over the leaves**: for every table that `check_nested_depth` lets pass and
whose nulls are consistent, every row and every seed, the loop ends for each column without
overflowing the stack and has folded over the leaves of the row, depth first; the hash of the row
is the fold over the leaves of all columns. -/
theorem xxhash64_leaves {table : List (Column α)}
    (hok : checkNestedDepth getNestedDepth table = .ok ())
    (hnull : ∀ c ∈ table, c.NullsConsistent) (row : Nat) (seed : Value) :
    (∀ c ∈ table, ∃ turns, ∀ n, turns ≤ n →
      elementHasherAdapter hash n c row seed = some ((leaves c row).foldl hash seed)) ∧
    ∃ turns, ∀ n, turns ≤ n →
      rowHasher hash n table row seed =
        some ((table.flatMap fun c => leaves c row).foldl hash seed) := by
  have hdepth := depth_le_of_checkNestedDepth hok
  refine ⟨fun c hc => elementHasherAdapter_eq hash (hnull c hc) (hdepth c hc) row seed, ?_⟩
  clear hok
  induction table generalizing seed with
  | nil => exact ⟨0, fun n _ => rfl⟩
  | cons c cs ih =>
    obtain ⟨hnullc, hnullcs⟩ := List.forall_mem_cons.1 hnull
    obtain ⟨hdepthc, hdepthcs⟩ := List.forall_mem_cons.1 hdepth
    obtain ⟨turns, hturns⟩ := elementHasherAdapter_eq hash hnullc hdepthc row seed
    -- the hash of the first column is the seed of the others
    obtain ⟨turns', hturns'⟩ := ih hnullcs ((leaves c row).foldl hash seed) hdepthcs
    refine ⟨max turns turns', fun n hn => ?_⟩
    unfold rowHasher
    rw [List.foldlM_cons, hturns n ((le_max_left ..).trans hn), List.flatMap_cons,
      List.foldl_append]
    exact hturns' n ((le_max_right ..).trans hn)

/-- Row 0 is a list of two structs, of which the second has a null; row 1 is an empty list. -/
def listOfStructs : Column Value :=
  .list (fun _ => true) ⟨fun row => min (2 * row) 2, fun i j h => by dsimp only; omega⟩
    (.struct (fun _ => true)
      [.leaf fun row => some (BitVec.ofNat 64 row), .leaf fun row => if row = 1 then none else some 7])

theorem xxhash64_leaves_listOfStructs :
    (∀ c ∈ [listOfStructs], ∃ turns, ∀ n, turns ≤ n →
      elementHasherAdapter (· + ·) n c 0 42 = some ((leaves c 0).foldl (· + ·) 42)) ∧
    ∃ turns, ∀ n, turns ≤ n →
      rowHasher (· + ·) n [listOfStructs] 0 42 =
        some (([listOfStructs].flatMap fun c => leaves c 0).foldl (· + ·) 42) := by
  refine xxhash64_leaves rfl (List.forall_mem_singleton.2 (.list ?_ (.struct ?_ ?_))) 0 42
  · exact fun row h => by cases h
  · exact fun row h => by cases h
  · intro c hc
    obtain rfl | hc := List.mem_cons.1 hc
    · exact .leaf _
    · cases List.mem_singleton.1 hc
      exact .leaf _

-- the leaves are 0, 7 and 1: three turns for the list and its structs, five for the leaves
example : elementHasherAdapter (· + ·) 20 listOfStructs 0 42 = some 50 := by decide

end SparkRapids.Hash.XxHash64
