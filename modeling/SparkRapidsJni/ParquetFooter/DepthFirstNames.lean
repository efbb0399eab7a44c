import SparkRapidsJni.ParquetFooter.AddDepthFirst

/-!
# The requested columns, written depth first

The Java side flattens the requested schema (`depthFirstNames`), the arrays go through JNI, and
`add_depth_first` reads them. The arrays that the Java side writes are read back to the same tree. Of all
arrays, the ones that are neither decoded exactly nor rejected are those with entries left after the tree
is complete, and those with a number of children below zero in a complete tree
(`addDepthFirst_decodes_iff`).
-/

namespace SparkRapids.ParquetFooter

open RoseTree

namespace Java

/-- `ParquetFooter.SchemaElement`, the requested type of a column. -/
inductive SchemaElement
  | value
  | struct (children : List (String × SchemaElement))
  | list (item : SchemaElement)
  | map (key value : SchemaElement)

section Names

variable (toLowerCase : String → String) (makeLowerCase : Bool)

/-- The name of an entry; `toLowerCase` is the one of Java in the root locale. -/
def entryName (name : String) : String := if makeLowerCase then toLowerCase name else name

mutual

/-- `depthFirstNamesHelper`: what it adds to the three lists. The numbers that it adds as tags are the
ones of `Tag`. -/
def depthFirstNamesHelper : SchemaElement → String → List Entry
  | .value, name => [⟨entryName toLowerCase makeLowerCase name, 0, .value⟩]
  | .struct children, name =>
    ⟨entryName toLowerCase makeLowerCase name, children.length, .struct⟩ ::
      depthFirstNames children
  | .list item, name =>
    ⟨entryName toLowerCase makeLowerCase name, 1, .list⟩ :: depthFirstNamesHelper item "element"
  | .map key val, name =>
    ⟨entryName toLowerCase makeLowerCase name, 2, .map⟩ ::
      (depthFirstNamesHelper key "key" ++ depthFirstNamesHelper val "value")

/-- `depthFirstNames`, of the children of the schema. -/
def depthFirstNames : List (String × SchemaElement) → List Entry
  | [] => []
  | (name, element) :: children => depthFirstNamesHelper element name ++ depthFirstNames children

end

mutual

/-- The tree of names and tags of an element. -/
def requested : SchemaElement → String → RoseTree (String × Tag)
  | .value, name => .node (entryName toLowerCase makeLowerCase name, .value) []
  | .struct children, name =>
    .node (entryName toLowerCase makeLowerCase name, .struct) (requestedAll children)
  | .list item, name =>
    .node (entryName toLowerCase makeLowerCase name, .list) [requested item "element"]
  | .map key val, name =>
    .node (entryName toLowerCase makeLowerCase name, .map)
      [requested key "key", requested val "value"]

/-- The trees of the children of a schema. -/
def requestedAll : List (String × SchemaElement) → List (RoseTree (String × Tag))
  | [] => []
  | (name, element) :: children => requested element name :: requestedAll children

end

theorem length_requestedAll (children : List (String × SchemaElement)) :
    (requestedAll toLowerCase makeLowerCase children).length = children.length := by
  induction children with
  | nil => rfl
  | cons child children ih => rw [requestedAll, List.length_cons, ih, List.length_cons]

mutual

theorem flattening_requested (element : SchemaElement) (name : String) :
    flattening [requested toLowerCase makeLowerCase element name] =
      depthFirstNamesHelper toLowerCase makeLowerCase element name := by
  match element with
  | .value => rfl
  | .struct children =>
    rw [requested, flattening_node, depthFirstNamesHelper, flattening_requestedAll children,
      length_requestedAll]
  | .list item =>
    rw [requested, flattening_node, depthFirstNamesHelper, flattening_requested item "element"]
    rfl
  | .map key val =>
    rw [requested, flattening_node, depthFirstNamesHelper, flattening_cons,
      flattening_requested key "key", flattening_requested val "value"]
    rfl

theorem flattening_requestedAll (children : List (String × SchemaElement)) :
    flattening (requestedAll toLowerCase makeLowerCase children) =
      depthFirstNames toLowerCase makeLowerCase children := by
  match children with
  | [] => rfl
  | (name, element) :: children =>
    rw [requestedAll, flattening_cons, flattening_requested element name,
      flattening_requestedAll children, depthFirstNames]

end

end Names

end Java

open Java

/-- Arrays of a request are decoded exactly or rejected just where no entries are left after the tree is
complete, and no number of children is below zero in a complete tree. What the Java side writes for a
schema is decoded to the schema's tree. -/
theorem addDepthFirst_decodes_iff (entries : List Entry) (parentNumChildren : ℤ)
    (toLowerCase : String → String) (makeLowerCase : Bool)
    (schema : List (String × Java.SchemaElement)) :
    (0 < parentNumChildren →
      (DecodesExactly entries parentNumChildren ↔
        (∀ k < entries.length, ¬Complete (entries.take k) parentNumChildren) ∧
          (Complete entries parentNumChildren → ∀ e ∈ entries, 0 ≤ e.numChildren))) ∧
    (DistinctNames (requestedAll toLowerCase makeLowerCase schema) →
      ColumnPruner.ofDepthFirst (depthFirstNames toLowerCase makeLowerCase schema) schema.length =
        some (.ok (.mk .struct (prunersOf (requestedAll toLowerCase makeLowerCase schema))))) := by
  constructor
  · intro hparent
    exact decodesExactly_iff hparent
  · intro hdistinct
    rw [← flattening_requestedAll, ← length_requestedAll toLowerCase makeLowerCase schema]
    exact ofDepthFirst_flattening hdistinct

/-- A value, a list of maps and an empty struct, next to each other. -/
def someSchema : List (String × Java.SchemaElement) :=
  [("A", .value), ("l", .list (.map .value (.struct []))), ("s", .struct [])]

/-- A struct with two children and a value behind it. -/
def someEntries : List Entry := [⟨"s", 2, .struct⟩, ⟨"a", 0, .value⟩, ⟨"b", 0, .value⟩, ⟨"c", 0, .value⟩]

theorem addDepthFirst_decodes_iff_someSchema : DecodesExactly someEntries 2 ∧
    ColumnPruner.ofDepthFirst (depthFirstNames String.toLower true someSchema) 3 =
      some (.ok (.mk .struct (prunersOf (requestedAll String.toLower true someSchema)))) :=
  ⟨((addDepthFirst_decodes_iff someEntries 2 String.toLower true someSchema).1 (by decide)).2
      ⟨by unfold Complete; decide, fun _ => by decide⟩,
    (addDepthFirst_decodes_iff [] 1 String.toLower true someSchema).2 (by decide +kernel)⟩

/-- The second entry is left over: the stacks are empty when it is read. -/
theorem not_decodesExactly : ¬∀ (entries : List Entry) (parentNumChildren : ℤ),
    0 < parentNumChildren → DecodesExactly entries parentNumChildren := by
  intro h
  exact (h [⟨"a", 0, .value⟩, ⟨"b", 0, .value⟩] 1 one_pos).accesses rfl

end SparkRapids.ParquetFooter
