import SparkRapidsJni.Lib.RoseTree

/-!
# Pruning the columns of a Parquet footer

The schema of a footer is a tree, flattened depth first. A `ColumnPruner` is a tree of requested columns;
`filterSchema` goes through both at once, and notes which elements of the schema are kept, with how many
children, and which leaves.

A `Filter` is what a pruner does from the current index on. The filters of the children of a pruner are
looked up by name.
-/

namespace SparkRapids.ParquetFooter

inductive FieldRepetitionType
  | required
  | optional
  | repeated
  deriving DecidableEq, Repr

/-- The converted types that are told apart. -/
inductive ConvertedType
  | map
  | mapKeyValue
  | other
  deriving DecidableEq, Repr

/-- An element of the schema; an optional field is `none` where it is not set. -/
structure SchemaElement where
  name : String
  issetType : Bool
  numChildren : Option ℕ
  repetitionType : Option FieldRepetitionType
  convertedType : Option ConvertedType
  deriving DecidableEq, Repr

inductive Tag
  | value
  | struct
  | list
  | map
  deriving DecidableEq, Repr

/-- The requested columns. -/
inductive ColumnPruner
  | mk (tag : Tag) (children : List (String × ColumnPruner))

/-- The indices, and the outputs so far. -/
structure PruningState where
  currentInputSchemaIndex : ℕ
  nextInputChunkIndex : ℕ
  chunkMap : List ℕ
  schemaMap : List ℕ
  schemaNumChildren : List ℕ
  deriving DecidableEq, Repr

/-- What a pruner does from the current index on. -/
abbrev Filter := PruningState → Except String PruningState

/-- `get_num_children` -/
def getNumChildren (elem : SchemaElement) : ℕ := elem.numChildren.getD 0

/-- `get_name`. Lower case is what the wide characters of the C library have for it; a name may have
none. -/
def getName (unicodeToLower : String → Except String String) (elem : SchemaElement)
    (normalizeCase : Bool) : Except String String :=
  if normalizeCase then unicodeToLower elem.name else .ok elem.name

/-- `std::vector::at` -/
def at? (schema : List SchemaElement) (index : ℕ) : Except String SchemaElement :=
  match schema[index]? with
  | some elem => .ok elem
  | none => .error "vector::_M_range_check"

/-- `std::map::at` -/
def atName (children : List (String × Filter)) (name : String) : Except String Filter :=
  match children.lookup name with
  | some found => .ok found
  | none => .error "map::at"

/-- An exception where a condition holds. -/
def throwIf (c : Prop) [Decidable c] (message : String) : Except String Unit :=
  if c then .error message else .ok ()

namespace PruningState

/-- An element is put into the maps. -/
def push (s : PruningState) (numChildren : ℕ) : PruningState :=
  { s with
    currentInputSchemaIndex := s.currentInputSchemaIndex + 1
    schemaMap := s.schemaMap ++ [s.currentInputSchemaIndex]
    schemaNumChildren := s.schemaNumChildren ++ [numChildren] }

end PruningState

/-- The loop of `skip`, over the elements from the current index on. -/
@[grind] def skipLoop : List SchemaElement → ℕ → PruningState → PruningState
  | [], _, s => s
  | schemaItem :: rest, numToSkip, s =>
    if numToSkip > 0 then
      let nextInputChunkIndex :=
        if schemaItem.issetType then s.nextInputChunkIndex + 1 else s.nextInputChunkIndex
      skipLoop rest (numToSkip + schemaItem.numChildren.getD 0 - 1)
        { s with
          currentInputSchemaIndex := s.currentInputSchemaIndex + 1
          nextInputChunkIndex := nextInputChunkIndex }
    else s

/-- `skip` -/
def skip (schema : List SchemaElement) (s : PruningState) : PruningState :=
  skipLoop (schema.drop s.currentInputSchemaIndex) 1 s

section Filters

variable (schema : List SchemaElement) (name : SchemaElement → Except String String)

/-- The loop of `filter_schema_struct` over the children that are left, with the number of those that
were kept. -/
@[grind] def filterChildren (children : List (String × Filter)) (structMapPosition : ℕ) :
    ℕ → PruningState → ℕ → Except String (PruningState × ℕ)
  | 0, s, matchedChildrenCount => .ok (s, matchedChildrenCount)
  | left + 1, s, matchedChildrenCount =>
    match schema[s.currentInputSchemaIndex]? with
    | none => .ok (s, matchedChildrenCount)
    | some schemaItem => do
      match children.lookup (← name schemaItem) with
      | some found =>
        let s' ← found s
        if s'.schemaMap.length > s.schemaMap.length then
          filterChildren children structMapPosition left
            { s' with schemaNumChildren := s'.schemaNumChildren.modify structMapPosition (· + 1) }
            (matchedChildrenCount + 1)
        else filterChildren children structMapPosition left s' matchedChildrenCount
      | none =>
        -- No match was found so skip the child.
        filterChildren children structMapPosition left (skip schema s) matchedChildrenCount

/-- `filter_schema_struct` -/
def filterSchemaStruct (children : List (String × Filter)) (s : PruningState) :
    Except String PruningState := do
  let structSchemaItem ← at? schema s.currentInputSchemaIndex
  throwIf structSchemaItem.issetType "Found a leaf node, but expected to find a struct"
  let numChildren := getNumChildren structSchemaItem
  let (s', matchedChildrenCount) ←
    filterChildren schema name children s.schemaNumChildren.length numChildren (s.push 0) 0
  if matchedChildrenCount = 0 then
    -- none of the children were included
    return { s' with
      schemaMap := s'.schemaMap.dropLast
      schemaNumChildren := s'.schemaNumChildren.dropLast }
  return s'

/-- `filter_schema_value` -/
def filterSchemaValue (s : PruningState) : Except String PruningState := do
  let schemaItem ← at? schema s.currentInputSchemaIndex
  throwIf (schemaItem.issetType = false) "found a non-leaf entry when reading a leaf value"
  throwIf (getNumChildren schemaItem ≠ 0) "found an entry with children when reading a leaf value"
  return { s.push 0 with
    chunkMap := s.chunkMap ++ [s.nextInputChunkIndex]
    nextInputChunkIndex := s.nextInputChunkIndex + 1 }

/-- The repeated group in the middle of a list of three levels. -/
def isMiddleGroup (listName : String) (repeatedField : SchemaElement) : Bool :=
  !repeatedField.issetType && getNumChildren repeatedField = 1 && repeatedField.name ≠ "array" &&
    repeatedField.name ≠ listName ++ "_tuple"

/-- `filter_schema_list` -/
def filterSchemaList (children : List (String × Filter)) (s : PruningState) :
    Except String PruningState := do
  let found ← atName children "element"
  let listSchemaItem ← at? schema s.currentInputSchemaIndex
  let isGroup := !listSchemaItem.issetType
  if !isGroup then
    throwIf (listSchemaItem.repetitionType ≠ some .repeated) "expected list item to be repeating"
    filterSchemaValue schema s
  else
    let numListChildren := getNumChildren listSchemaItem
    if numListChildren > 1 then
      throwIf (listSchemaItem.repetitionType ≠ some .repeated) "expected list item to be repeating"
      found s
    else
      throwIf (numListChildren ≠ 1) "the structure of the outer list group is not standard"
      let s := s.push 1
      let repeatedFieldSchemaItem ← at? schema s.currentInputSchemaIndex
      throwIf (repeatedFieldSchemaItem.repetitionType ≠ some .repeated)
        "the structure of the list's child is not standard (non repeating)"
      if isMiddleGroup listSchemaItem.name repeatedFieldSchemaItem then
        -- the "standard" format: two groups, and the element under the second one
        found (s.push 1)
      else
        -- an older format with two levels
        found s

/-- `filter_schema_map` -/
def filterSchemaMap (children : List (String × Filter)) (s : PruningState) :
    Except String PruningState := do
  let keyFound ← atName children "key"
  let valueFound ← atName children "value"
  let mapSchemaItem ← at? schema s.currentInputSchemaIndex
  throwIf mapSchemaItem.issetType "expected a map item, but found a single value"
  throwIf (mapSchemaItem.convertedType ≠ some .map ∧ mapSchemaItem.convertedType ≠ some .mapKeyValue)
    "expected a map type, but it was not found."
  throwIf (getNumChildren mapSchemaItem ≠ 1)
    "the structure of the outer map group is not standard"
  let s := s.push 1
  let repeatedFieldSchemaItem ← at? schema s.currentInputSchemaIndex
  throwIf (repeatedFieldSchemaItem.repetitionType ≠ some .repeated)
    "found non repeating map child"
  let repeatedFieldNumChildren := getNumChildren repeatedFieldSchemaItem
  throwIf (repeatedFieldNumChildren ≠ 1 ∧ repeatedFieldNumChildren ≠ 2)
    "found map with wrong number of children"
  let s ← keyFound (s.push repeatedFieldNumChildren)
  if repeatedFieldNumChildren = 2 then valueFound s else return s

/-- `filter_schema` for one tag, with the filters of the children. -/
def filterSchemaTag (tag : Tag) (children : List (String × Filter)) : Filter :=
  match tag with
  | .struct => filterSchemaStruct schema name children
  | .value => filterSchemaValue schema
  | .list => filterSchemaList schema children
  | .map => filterSchemaMap schema children

end Filters

namespace ColumnPruner

mutual

/-- `filter_schema` of a pruner and the ones of its children. -/
def filter (schema : List SchemaElement) (name : SchemaElement → Except String String) :
    ColumnPruner → Filter
  | mk tag children => filterSchemaTag schema name tag (filters schema name children)

@[grind] def filters (schema : List SchemaElement) (name : SchemaElement → Except String String) :
    List (String × ColumnPruner) → List (String × Filter)
  | [] => []
  | (childName, child) :: children =>
    (childName, child.filter schema name) :: filters schema name children

end

end ColumnPruner

/-- `column_pruning_maps` -/
structure ColumnPruningMaps where
  schemaMap : List ℕ
  schemaNumChildren : List ℕ
  chunkMap : List ℕ
  deriving DecidableEq, Repr

/-- `filter_schema` -/
def ColumnPruner.filterSchema (pruner : ColumnPruner)
    (unicodeToLower : String → Except String String) (schema : List SchemaElement)
    (ignoreCase : Bool) : Except String ColumnPruningMaps := do
  let s ← pruner.filter schema (getName unicodeToLower · ignoreCase) ⟨0, 0, [], [], []⟩
  return ⟨s.schemaMap, s.schemaNumChildren, s.chunkMap⟩

example : (ColumnPruner.mk .struct [("b", .mk .value [])]).filterSchema .ok
    [⟨"root", false, some 2, none, none⟩, ⟨"a", true, none, none, none⟩,
      ⟨"b", true, none, none, none⟩] false = .ok ⟨[0, 2], [1, 0], [1]⟩ := by
  rfl

end SparkRapids.ParquetFooter
