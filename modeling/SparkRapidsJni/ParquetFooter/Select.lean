import SparkRapidsJni.Lib.Nested
import SparkRapidsJni.ParquetFooter.ColumnPruner

/-!
# The elements a request selects

The file's schema as a tree, each element with its index and the number of leaves before it (`place`).
What a tag asks of an element is its `Outline`: the element as a leaf, the same element for the child
pruner, fields, or groups around fields which are kept whatever becomes of the fields. `select` is the
tree of the elements that are kept, each with the number of children that is noted for it, and
`filter_select` says that this is what `filter_schema` appends to its outputs.
-/

namespace SparkRapids.ParquetFooter

open PruningState

/-- An element with its index in the schema and the number of leaves before it. -/
structure Place where
  index : ℕ
  chunk : ℕ
  elem : SchemaElement
  deriving DecidableEq, Repr

/-- The trees of elements where the numbers of children are those of the tree, and the leaves are the
elements with a type. -/
def WellFormed (t : RoseTree SchemaElement) : Prop :=
  ∀ u ∈ t.subtrees, getNumChildren u.label = u.children.length ∧
    (u.label.issetType = true ↔ u.children = [])

def leaves (elems : List SchemaElement) : ℕ := elems.countP (·.issetType)

mutual

/-- The places of a tree that begins at an index. -/
@[grind] def place (index chunk : ℕ) : RoseTree SchemaElement → RoseTree Place
  | .node elem cs => .node ⟨index, chunk, elem⟩
    (placeAll (index + 1) (if elem.issetType then chunk + 1 else chunk) cs)

@[grind] def placeAll (index chunk : ℕ) : List (RoseTree SchemaElement) → List (RoseTree Place)
  | [] => []
  | t :: ts => place index chunk t :: placeAll (index + t.labels.length) (chunk + leaves t.labels) ts

end

/-! ### Outlines -/

/-- What is asked of an element; a field comes with the name that it is looked up by. -/
inductive Outline
  | leaf
  | pass (name : String)
  | struct (fields : List (RoseTree Place × String))
  | groups (middle : Option Place) (fields : List (RoseTree Place × String))

section Outline

variable (name : SchemaElement → Except String String)

/-- The children with their names. -/
def namedFields (cs : List (RoseTree Place)) : List (RoseTree Place × String) :=
  cs.filterMap fun c => (name c.label.elem).toOption.map fun childName => (c, childName)

/-- A list around its element: one group, or two with the one in the middle. -/
def repeatedOutline (listName : String) (r : RoseTree Place) : Outline :=
  if isMiddleGroup listName r.label.elem then
    .groups (some r.label) (r.children.map fun c => (c, "element"))
  else .groups none [(r, "element")]

/-- With more children than one, the list is the repeated element itself. -/
def listOutline (listName : String) : List (RoseTree Place) → Outline
  | [r] => repeatedOutline listName r
  | _ => .pass "element"

def mapOutline : List (RoseTree Place) → Outline
  | r :: _ => .groups (some r.label) (r.children.zip ["key", "value"])
  | [] => .struct []

def outline (tag : Tag) (u : RoseTree Place) : Outline :=
  match tag with
  | .value => if u.label.elem.issetType then .leaf else .struct []
  | .struct => .struct (namedFields name u.children)
  | .list =>
    if u.label.elem.issetType then .leaf else listOutline u.label.elem.name u.children
  | .map => mapOutline u.children

end Outline

/-! ### Selected trees -/

/-- A tree of the kept elements, each with the number of children that is noted for it. -/
abbrev Kept := RoseTree (Place × ℕ)

/-- What is kept of an element. -/
abbrev Selector := RoseTree Place → Option Kept

/-- What is kept of the fields. -/
def keptFields (children : List (String × Selector)) (fields : List (RoseTree Place × String)) :
    List Kept :=
  fields.filterMap fun field => children.lookup field.2 >>= fun found => found field.1

@[grind] def selectOutline (children : List (String × Selector)) (u : RoseTree Place) : Outline → Option Kept
  | .leaf => some (.node (u.label, 0) [])
  | .pass name => children.lookup name >>= fun found => found u
  | .struct fields =>
    match keptFields children fields with
    | [] => none
    | kept => some (.node (u.label, kept.length) kept)
  | .groups none fields => some (.node (u.label, fields.length) (keptFields children fields))
  | .groups (some middle) fields =>
    some (.node (u.label, 1) [.node (middle, fields.length) (keptFields children fields)])

namespace ColumnPruner

mutual

def select (name : SchemaElement → Except String String) : ColumnPruner → Selector
  | mk tag children => fun u => selectOutline (selects name children) u (outline name tag u)

@[grind] def selects (name : SchemaElement → Except String String) :
    List (String × ColumnPruner) → List (String × Selector)
  | [] => []
  | (childName, child) :: children => (childName, child.select name) :: selects name children

end

end ColumnPruner

/-- The outputs with the entries of kept trees, at the index behind them. -/
def PruningState.keep (s : PruningState) (index chunk : ℕ) (kept : List Kept) : PruningState :=
  let entries := kept.flatMap RoseTree.labels
  { currentInputSchemaIndex := index
    nextInputChunkIndex := chunk
    chunkMap := s.chunkMap ++ (entries.filter (·.1.elem.issetType)).map (·.1.chunk)
    schemaMap := s.schemaMap ++ entries.map (·.1.index)
    schemaNumChildren := s.schemaNumChildren ++ entries.map (·.2) }

/-- A filter appends what a selector keeps, and goes behind the element. -/
def FiltersAs (schema : List SchemaElement) (filter : Filter) (selector : Selector) : Prop :=
  ∀ t post s s', WellFormed t → schema.drop s.currentInputSchemaIndex = t.labels ++ post →
    filter s = .ok s' →
    s' = s.keep (s.currentInputSchemaIndex + t.labels.length) (s.nextInputChunkIndex + leaves t.labels)
      (selector (place s.currentInputSchemaIndex s.nextInputChunkIndex t)).toList

/-! ### What each filter does where it returns -/

section Inversion

variable {schema : List SchemaElement} {name : SchemaElement → Except String String}
  {cs : List (String × Filter)} {s s' : PruningState} {index : ℕ} {elem : SchemaElement}

theorem at?_ok (h : at? schema index = .ok elem) : schema[index]? = some elem := by
  unfold at? at h
  cases hget : schema[index]? with
  | none => rw [hget] at h; cases h
  | some elem' => rw [hget] at h; cases h; rfl

theorem atName_ok {child : String} {found : Filter} (h : atName cs child = .ok found) :
    cs.lookup child = some found := by
  unfold atName at h
  cases hget : cs.lookup child with
  | none => rw [hget] at h; cases h
  | some found' => rw [hget] at h; cases h; rfl

theorem throwIf_ok {c : Prop} [Decidable c] {message : String} {u : Unit}
    (h : throwIf c message = .ok u) : ¬c := by
  unfold throwIf at h
  split_ifs at h with hc
  exact hc

theorem filterSchemaValue_ok (h : filterSchemaValue schema s = .ok s') :
    ∃ elem, schema[s.currentInputSchemaIndex]? = some elem ∧ elem.issetType = true ∧
      getNumChildren elem = 0 ∧ s' = { s.push 0 with
        chunkMap := s.chunkMap ++ [s.nextInputChunkIndex]
        nextInputChunkIndex := s.nextInputChunkIndex + 1 } := by
  obtain ⟨elem, helem, h⟩ := exists_of_bind_ok h
  obtain ⟨_, htype, h⟩ := exists_of_bind_ok h
  obtain ⟨_, hnum, h⟩ := exists_of_bind_ok h
  exact ⟨elem, at?_ok helem, by simpa using throwIf_ok htype, by simpa using throwIf_ok hnum,
    (Except.ok.inj h).symm⟩

theorem filterSchemaStruct_ok (h : filterSchemaStruct schema name cs s = .ok s') :
    ∃ elem sm, schema[s.currentInputSchemaIndex]? = some elem ∧ elem.issetType = false ∧
      filterChildren schema name cs s.schemaNumChildren.length (getNumChildren elem)
        (s.push 0) 0 = .ok sm ∧
      s' = if sm.2 = 0 then { sm.1 with
        schemaMap := sm.1.schemaMap.dropLast
        schemaNumChildren := sm.1.schemaNumChildren.dropLast } else sm.1 := by
  obtain ⟨elem, helem, h⟩ := exists_of_bind_ok h
  obtain ⟨_, htype, h⟩ := exists_of_bind_ok h
  obtain ⟨⟨s1, m⟩, hloop, h⟩ := exists_of_bind_ok h
  refine ⟨elem, (s1, m), at?_ok helem, by simpa using throwIf_ok htype, hloop, ?_⟩
  dsimp only at h ⊢
  split_ifs at h ⊢ <;> exact (Except.ok.inj h).symm

/-- A list is a leaf, the element itself, or groups around the element. -/
theorem filterSchemaList_ok (h : filterSchemaList schema cs s = .ok s') :
    ∃ found elem, cs.lookup "element" = some found ∧
      schema[s.currentInputSchemaIndex]? = some elem ∧
      (elem.issetType = true ∧ filterSchemaValue schema s = .ok s' ∨
        elem.issetType = false ∧ 1 < getNumChildren elem ∧ found s = .ok s' ∨
        elem.issetType = false ∧ getNumChildren elem = 1 ∧ ∃ repeated,
          schema[s.currentInputSchemaIndex + 1]? = some repeated ∧
          found (if isMiddleGroup elem.name repeated then (s.push 1).push 1 else s.push 1) =
            .ok s') := by
  obtain ⟨found, hfound, h⟩ := exists_of_bind_ok h
  obtain ⟨elem, helem, h⟩ := exists_of_bind_ok h
  refine ⟨found, elem, atName_ok hfound, at?_ok helem, ?_⟩
  cases htype : elem.issetType with
  | true =>
    rw [htype, if_pos (by rfl)] at h
    obtain ⟨-, -, h⟩ := exists_of_bind_ok h
    exact .inl ⟨rfl, h⟩
  | false =>
    rw [htype, if_neg (by decide)] at h
    dsimp only at h
    split_ifs at h with hmany
    · obtain ⟨-, -, h⟩ := exists_of_bind_ok h
      exact .inr (.inl ⟨rfl, hmany, h⟩)
    · obtain ⟨_, hone, h⟩ := exists_of_bind_ok h
      obtain ⟨repeated, hrepeated, h⟩ := exists_of_bind_ok h
      obtain ⟨-, -, h⟩ := exists_of_bind_ok h
      refine .inr (.inr ⟨rfl, not_not.1 (throwIf_ok hone), repeated, at?_ok hrepeated, ?_⟩)
      split_ifs at h ⊢ <;> exact h

/-- A map is two groups around a key, and a value. -/
theorem filterSchemaMap_ok (h : filterSchemaMap schema cs s = .ok s') :
    ∃ keyFound valueFound elem repeated s1, cs.lookup "key" = some keyFound ∧
      cs.lookup "value" = some valueFound ∧
      schema[s.currentInputSchemaIndex]? = some elem ∧ elem.issetType = false ∧
      getNumChildren elem = 1 ∧ schema[s.currentInputSchemaIndex + 1]? = some repeated ∧
      (getNumChildren repeated = 1 ∨ getNumChildren repeated = 2) ∧
      keyFound ((s.push 1).push (getNumChildren repeated)) = .ok s1 ∧
      (if getNumChildren repeated = 2 then valueFound s1 else .ok s1) = .ok s' := by
  obtain ⟨keyFound, hkey, h⟩ := exists_of_bind_ok h
  obtain ⟨valueFound, hvalue, h⟩ := exists_of_bind_ok h
  obtain ⟨elem, helem, h⟩ := exists_of_bind_ok h
  obtain ⟨_, htype, h⟩ := exists_of_bind_ok h
  obtain ⟨-, -, h⟩ := exists_of_bind_ok h
  obtain ⟨_, hone, h⟩ := exists_of_bind_ok h
  obtain ⟨repeated, hrepeated, h⟩ := exists_of_bind_ok h
  obtain ⟨-, -, h⟩ := exists_of_bind_ok h
  obtain ⟨_, hnum, h⟩ := exists_of_bind_ok h
  obtain ⟨s1, hs1, h⟩ := exists_of_bind_ok h
  have hnum := throwIf_ok hnum
  exact ⟨keyFound, valueFound, elem, repeated, s1, atName_ok hkey, atName_ok hvalue, at?_ok helem,
    by simpa using throwIf_ok htype, not_not.1 (throwIf_ok hone), at?_ok hrepeated, by tauto, hs1, h⟩

end Inversion

/-! ### Outputs -/

section Outputs

variable {s : PruningState} {index chunk index' chunk' n : ℕ} {kept kept' : List Kept}
  {elem : SchemaElement}

theorem PruningState.keep_keep :
    (s.keep index chunk kept).keep index' chunk' kept' = s.keep index' chunk' (kept ++ kept') := by
  simp [keep]

theorem PruningState.keep_nil :
    s.keep s.currentInputSchemaIndex s.nextInputChunkIndex [] = s := by
  simp [keep]

/-- A group is noted before what is kept of its children. -/
theorem PruningState.push_keep (htype : elem.issetType = false) :
    (s.push n).keep index chunk kept =
      s.keep index chunk
        [.node (⟨s.currentInputSchemaIndex, s.nextInputChunkIndex, elem⟩, n) kept] := by
  simp [push, keep, RoseTree.labels_node, htype]

theorem PruningState.keep_length :
    s.schemaMap.length < (s.keep index chunk kept).schemaMap.length ↔ kept ≠ [] := by
  unfold keep
  rw [List.length_append, List.length_map]
  constructor
  · rintro h rfl
    simp at h
  · intro h
    obtain ⟨k, kept, rfl⟩ := List.exists_cons_of_ne_nil h
    obtain ⟨p, ks⟩ := k
    simp [RoseTree.labels_node]

end Outputs

/-! ### Trees in the schema -/

section Trees

variable {schema post : List SchemaElement} {s : PruningState} {index chunk : ℕ} {elem : SchemaElement}
  {t : RoseTree SchemaElement} {ts cs : List (RoseTree SchemaElement)}

theorem getElem?_of_drop (h : schema.drop index = elem :: post) : schema[index]? = some elem := by
  have hget := congrArg (·[0]?) h
  simpa using hget

theorem drop_of_drop {front : List SchemaElement} (h : schema.drop index = front ++ post) :
    schema.drop (index + front.length) = post := by
  rw [← List.drop_drop, h, List.drop_left]

theorem drop_of_drop_cons (h : schema.drop index = elem :: post) : schema.drop (index + 1) = post :=
  drop_of_drop (show _ = [elem] ++ post from h)

theorem wellFormed_node : WellFormed (.node elem cs) ↔
    (getNumChildren elem = cs.length ∧ (elem.issetType = true ↔ cs = [])) ∧ ∀ c ∈ cs, WellFormed c := by
  unfold WellFormed
  constructor
  · intro h
    exact ⟨h _ (RoseTree.self_mem_subtrees _), fun c hc u hu =>
      h u (RoseTree.mem_subtrees_node.2 (.inr ⟨c, hc, hu⟩))⟩
  · rintro ⟨hnode, hcs⟩ u hu
    rcases RoseTree.mem_subtrees_node.1 hu with rfl | ⟨c, hc, hu⟩
    · exact hnode
    · exact hcs c hc u hu

theorem leaves_cons (elem : SchemaElement) (elems : List SchemaElement) :
    leaves (elem :: elems) = leaves elems + if elem.issetType then 1 else 0 :=
  List.countP_cons ..

theorem leaves_append (elems elems' : List SchemaElement) :
    leaves (elems ++ elems') = leaves elems + leaves elems' :=
  List.countP_append ..

/-- Skipping goes behind the elements of trees, for as many trees as there are to skip. -/
theorem skipLoop_tree (ht : WellFormed t) (numToSkip : ℕ) :
    skipLoop (t.labels ++ post) (numToSkip + 1) s =
      skipLoop post numToSkip (s.keep (s.currentInputSchemaIndex + t.labels.length)
        (s.nextInputChunkIndex + leaves t.labels) []) := by
  induction t using RoseTree.induct generalizing numToSkip s post with
  | node elem cs ih =>
    obtain ⟨⟨hnum, -⟩, hcs⟩ := wellFormed_node.1 ht
    -- the children are skipped one by one
    have htrees : ∀ (ts : List (RoseTree SchemaElement)) (s : PruningState), (∀ t ∈ ts, t ∈ cs) →
        skipLoop (ts.flatMap RoseTree.labels ++ post) (numToSkip + ts.length) s =
          skipLoop post numToSkip (s.keep
            (s.currentInputSchemaIndex + (ts.flatMap RoseTree.labels).length)
            (s.nextInputChunkIndex + leaves (ts.flatMap RoseTree.labels)) []) := by
      intro ts
      induction ts with
      | nil => exact fun s _ => by rw [List.flatMap_nil]; exact congrArg _ s.keep_nil.symm
      | cons t ts ihts =>
        intro s hts
        rw [List.flatMap_cons, List.append_assoc, List.length_cons, ← Nat.add_assoc,
          ih t (hts t (List.mem_cons_self ..)) (hcs t (hts t (List.mem_cons_self ..))),
          ihts _ fun t ht => hts t (List.mem_cons_of_mem _ ht), keep_keep,
          List.length_append, leaves_append, ← Nat.add_assoc, ← Nat.add_assoc]
        rfl
    rw [RoseTree.labels_node, List.cons_append, skipLoop, if_pos (Nat.succ_pos numToSkip),
      show elem.numChildren.getD 0 = cs.length from hnum, Nat.add_right_comm, Nat.add_sub_cancel,
      htrees cs _ fun _ ht => ht, List.length_cons, leaves_cons]
    congr 1
    simp only [keep]
    split_ifs <;> simp <;> omega

theorem skip_tree (ht : WellFormed t)
    (h : schema.drop s.currentInputSchemaIndex = t.labels ++ post) :
    skip schema s = s.keep (s.currentInputSchemaIndex + t.labels.length)
      (s.nextInputChunkIndex + leaves t.labels) [] := by
  rw [skip, h, ← Nat.zero_add 1, skipLoop_tree ht]
  cases post <;> rfl

end Trees

/-! ### Filters select -/

section Refinement

variable {schema post : List SchemaElement} {name : SchemaElement → Except String String}
  {cs : List (String × Filter)} {sels : List (String × Selector)} {s s' : PruningState}

/-- The filters of the children append what their selectors keep. -/
def FilterAllAs (schema : List SchemaElement) (children : List (String × Filter))
    (selectors : List (String × Selector)) : Prop :=
  List.Forall₂ (fun f g => f.1 = g.1 ∧ FiltersAs schema f.2 g.2) children selectors

theorem FilterAllAs.lookup (h : FilterAllAs schema cs sels) (child : String) :
    Option.Rel (FiltersAs schema) (cs.lookup child) (sels.lookup child) := by
  induction h with
  | nil => exact .none
  | @cons f g _ _ hfg _ ih =>
    obtain ⟨n, filter⟩ := f
    obtain ⟨n', selector⟩ := g
    obtain ⟨rfl, hfilter⟩ := hfg
    rw [List.lookup_cons, List.lookup_cons]
    cases child == n with
    | true => exact .some hfilter
    | false => exact ih

theorem FilterAllAs.exists_lookup (h : FilterAllAs schema cs sels) {child : String}
    {found : Filter} (hfound : cs.lookup child = some found) :
    ∃ selector, sels.lookup child = some selector ∧ FiltersAs schema found selector := by
  have hrel := h.lookup child
  rw [hfound] at hrel
  cases hselector : sels.lookup child with
  | none => rw [hselector] at hrel; cases hrel
  | some selector =>
    rw [hselector] at hrel
    cases hrel with
    | some hfilter => exact ⟨selector, rfl, hfilter⟩

theorem namedFields_cons (c : RoseTree Place) (cs : List (RoseTree Place)) :
    namedFields name (c :: cs) =
      ((name c.label.elem).toOption.map fun child => (c, child)).toList ++
        namedFields name cs := by
  unfold namedFields
  cases h : (name c.label.elem).toOption with
  | none => rw [List.filterMap_cons_none (by rw [h]; rfl)]; rfl
  | some child => rw [List.filterMap_cons_some (by rw [h]; rfl)]; rfl

theorem keptFields_append (fields fields' : List (RoseTree Place × String)) :
    keptFields sels (fields ++ fields') =
      keptFields sels fields ++ keptFields sels fields' :=
  List.filterMap_append

theorem keptFields_singleton (u : RoseTree Place) (child : String) :
    keptFields sels [(u, child)] =
      (sels.lookup child >>= fun found => found u).toList := by
  unfold keptFields
  cases h : (sels.lookup child >>= fun found => found u) with
  | none => simp only [List.filterMap_cons, h]; rfl
  | some kept => simp only [List.filterMap_cons, h]; rfl

theorem label_place (index chunk : ℕ) (t : RoseTree SchemaElement) :
    (place index chunk t).label = ⟨index, chunk, t.label⟩ := by
  cases t
  rw [place]
  rfl

theorem place_group {elem : SchemaElement} (htype : elem.issetType = false) (index chunk : ℕ)
    (cs : List (RoseTree SchemaElement)) :
    place index chunk (.node elem cs) =
      .node ⟨index, chunk, elem⟩ (placeAll (index + 1) chunk cs) := by
  rw [place, htype]
  rfl

/-- The loop over the children notes the fields that are kept, and how many. -/
theorem filterChildren_keep (h : FilterAllAs schema cs sels)
    {ts : List (RoseTree SchemaElement)} (hts : ∀ t ∈ ts, WellFormed t) {index chunk : ℕ}
    (hdrop : schema.drop index = ts.flatMap RoseTree.labels ++ post) {kept : List Kept}
    {sm : PruningState × ℕ}
    (hok : filterChildren schema name cs s.schemaNumChildren.length ts.length
      ((s.push kept.length).keep index chunk kept) kept.length = .ok sm) :
    let kept' := kept ++ keptFields sels (namedFields name (placeAll index chunk ts))
    sm = ((s.push kept'.length).keep (index + (ts.flatMap RoseTree.labels).length)
      (chunk + leaves (ts.flatMap RoseTree.labels)) kept', kept'.length) := by
  induction ts generalizing index chunk kept with
  | nil =>
    obtain rfl := Except.ok.inj hok
    simp [placeAll, namedFields, keptFields, leaves]
  | cons t ts ih =>
    have ht := hts t (List.mem_cons_self ..)
    have ih := @ih fun t ht => hts t (List.mem_cons_of_mem _ ht)
    rw [List.flatMap_cons, List.append_assoc] at hdrop
    have hrest := drop_of_drop hdrop
    have hget : schema[index]? = some t.label := by
      rw [← t.node_eta, RoseTree.labels_node, List.cons_append] at hdrop
      exact getElem?_of_drop hdrop
    rw [List.length_cons, filterChildren, show ((s.push kept.length).keep index chunk
      kept).currentInputSchemaIndex = index from rfl, hget] at hok
    obtain ⟨child, hname, hok⟩ := exists_of_bind_ok hok
    have hfields : keptFields sels (namedFields name (placeAll index chunk (t :: ts))) =
        (sels.lookup child >>= fun found => found (place index chunk t)).toList ++
          keptFields sels (namedFields name
            (placeAll (index + t.labels.length) (chunk + leaves t.labels) ts)) := by
      rw [placeAll, namedFields_cons, keptFields_append, label_place, hname]
      exact congrArg (· ++ _) (keptFields_singleton ..)
    rw [hfields, List.flatMap_cons, List.length_append, leaves_append, ← Nat.add_assoc,
      ← Nat.add_assoc, ← List.append_assoc]
    have hlookup := h.lookup child
    cases hfound : cs.lookup child with
    | none =>
      -- the field is not requested
      rw [hfound] at hlookup hok
      have hnone : sels.lookup child = none := by
        cases hselector : sels.lookup child with
        | none => rfl
        | some _ => rw [hselector] at hlookup; cases hlookup
      dsimp only at hok
      rw [skip_tree ht hdrop, keep_keep, List.append_nil] at hok
      have hkept : (sels.lookup child >>= fun found => found (place index chunk t)) = none := by
        rw [hnone]
        rfl
      rw [hkept, Option.toList_none, List.append_nil]
      exact ih hrest hok
    | some found =>
      obtain ⟨selector, hselector, hfilter⟩ := h.exists_lookup hfound
      rw [hfound] at hok
      dsimp only at hok
      obtain ⟨s1, hs1, hok⟩ := exists_of_bind_ok hok
      have hkeep := hfilter t _ _ _ ht hdrop hs1
      have hkept : (sels.lookup child >>= fun found => found (place index chunk t)) =
          selector (place index chunk t) := by
        rw [hselector]
        rfl
      rw [hkept]
      change s1 = ((s.push kept.length).keep index chunk kept).keep (index + t.labels.length)
        (chunk + leaves t.labels) (selector (place index chunk t)).toList at hkeep
      cases hk : selector (place index chunk t) with
      | none =>
        rw [hk, Option.toList_none] at hkeep
        obtain rfl := hkeep
        rw [if_neg (by rw [gt_iff_lt, keep_length]; exact not_not.2 rfl),
          keep_keep, List.append_nil] at hok
        rw [Option.toList_none, List.append_nil]
        exact ih hrest hok
      | some k =>
        rw [hk, Option.toList_some] at hkeep
        obtain rfl := hkeep
        rw [if_pos (keep_length.2 (List.cons_ne_nil k [])),
          keep_keep] at hok
        -- the count of the struct goes up by one
        have hcount : { (s.push kept.length).keep (index + t.labels.length) (chunk + leaves t.labels)
              (kept ++ [k]) with
            schemaNumChildren := ((s.push kept.length).keep (index + t.labels.length)
              (chunk + leaves t.labels) (kept ++ [k])).schemaNumChildren.modify
                s.schemaNumChildren.length (· + 1) } =
            (s.push (kept ++ [k]).length).keep (index + t.labels.length) (chunk + leaves t.labels)
              (kept ++ [k]) := by
          simp [push, keep, List.modify_eq_take_drop]
        rw [hcount, show kept.length + 1 = (kept ++ [k]).length by simp] at hok
        exact ih hrest hok

theorem filtersAs_leaf : FiltersAs schema (filterSchemaValue schema)
    fun u => some (.node (u.label, 0) []) := by
  intro t post s s' ht hdrop hok
  obtain ⟨elem, hget, htype, -, rfl⟩ := filterSchemaValue_ok hok
  obtain ⟨elem', cs⟩ := t
  rw [RoseTree.labels_node, List.cons_append] at hdrop
  obtain rfl : elem' = elem := Option.some.inj ((getElem?_of_drop hdrop).symm.trans hget)
  -- a leaf has no children
  obtain rfl : cs = [] := (wellFormed_node.1 ht).1.2.1 htype
  dsimp only
  rw [label_place, RoseTree.labels_node]
  simp [push, keep, RoseTree.labels_node, RoseTree.label, htype, leaves]

theorem filtersAs_value : FiltersAs schema (filterSchemaValue schema)
    fun u => selectOutline sels u (outline name .value u) := by
  intro t post s s' ht hdrop hok
  obtain ⟨elem, hget, htype, -⟩ := filterSchemaValue_ok hok
  have hlabel : t.label = elem := by
    rw [← t.node_eta, RoseTree.labels_node, List.cons_append] at hdrop
    exact Option.some.inj ((getElem?_of_drop hdrop).symm.trans hget)
  have houtline : outline name .value (place s.currentInputSchemaIndex s.nextInputChunkIndex t) =
      .leaf := if_pos (by rw [label_place, hlabel]; exact htype)
  dsimp only
  rw [houtline]
  exact filtersAs_leaf t post s s' ht hdrop hok

theorem filtersAs_struct (h : FilterAllAs schema children sels) :
    FiltersAs schema (filterSchemaStruct schema name children)
      fun u => selectOutline sels u (.struct (namedFields name u.children)) := by
  intro t post s s' ht hdrop hok
  obtain ⟨elem, sm, hget, htype, hloop, rfl⟩ := filterSchemaStruct_ok hok
  obtain ⟨elem', cs⟩ := t
  obtain ⟨⟨hnum, -⟩, hcs⟩ := wellFormed_node.1 ht
  rw [RoseTree.labels_node, List.cons_append] at hdrop
  obtain rfl : elem' = elem := Option.some.inj ((getElem?_of_drop hdrop).symm.trans hget)
  rw [hnum, ← @keep_nil (s.push 0)] at hloop
  obtain rfl := @filterChildren_keep _ _ _ _ _ s h _ hcs (s.push 0).currentInputSchemaIndex
    (s.push 0).nextInputChunkIndex (drop_of_drop_cons hdrop) [] _ hloop
  have hend : (s.push 0).currentInputSchemaIndex + (cs.flatMap RoseTree.labels).length =
      s.currentInputSchemaIndex + (elem' :: cs.flatMap RoseTree.labels).length := by
    simp [push]
    omega
  have hchunk : (s.push 0).nextInputChunkIndex + leaves (cs.flatMap RoseTree.labels) =
      s.nextInputChunkIndex + leaves (elem' :: cs.flatMap RoseTree.labels) := by
    rw [leaves_cons, htype]
    rfl
  rw [List.nil_append, hend, hchunk, RoseTree.labels_node, place, htype]
  simp only [selectOutline, RoseTree.children, RoseTree.label, Bool.false_eq_true, if_false]
  cases hkept : keptFields sels (namedFields name (placeAll (s.currentInputSchemaIndex + 1)
      s.nextInputChunkIndex cs)) with
  | nil =>
    rw [show keptFields sels (namedFields name (placeAll (s.push 0).currentInputSchemaIndex
      (s.push 0).nextInputChunkIndex cs)) = [] from hkept]
    simp [push, keep]
  | cons k ks =>
    rw [show keptFields sels (namedFields name (placeAll (s.push 0).currentInputSchemaIndex
      (s.push 0).nextInputChunkIndex cs)) = k :: ks from hkept]
    exact push_keep htype

theorem selectOutline_pass {child : String} {selector : Selector} {u : RoseTree Place}
    (h : sels.lookup child = some selector) :
    selectOutline sels u (.pass child) = selector u := by
  rw [selectOutline, h]
  rfl

theorem keptFields_of_lookup {child : String} {selector : Selector} {u : RoseTree Place}
    (h : sels.lookup child = some selector) :
    keptFields sels [(u, child)] = (selector u).toList := by
  rw [keptFields_singleton, h]
  rfl

theorem outline_list_leaf {u : RoseTree Place} (h : u.label.elem.issetType = true) :
    outline name .list u = .leaf :=
  if_pos h

theorem outline_list_group {u : RoseTree Place} (h : u.label.elem.issetType = false) :
    outline name .list u = listOutline u.label.elem.name u.children :=
  if_neg (by rw [h]; decide)

theorem repeatedOutline_middle {listName : String} {r : RoseTree Place}
    (h : isMiddleGroup listName r.label.elem) :
    repeatedOutline listName r = .groups (some r.label) (r.children.map fun c => (c, "element")) :=
  if_pos h

theorem repeatedOutline_two {listName : String} {r : RoseTree Place}
    (h : ¬isMiddleGroup listName r.label.elem) :
    repeatedOutline listName r = .groups none [(r, "element")] :=
  if_neg h

/-- The elements of a child come behind the ones of the groups around it. -/
theorem FiltersAs.push {found : Filter} {selector : Selector} (h : FiltersAs schema found selector)
    {elem : SchemaElement} {c : RoseTree SchemaElement} {n : ℕ} (htype : elem.issetType = false)
    (hc : WellFormed c) (hdrop : schema.drop (s.currentInputSchemaIndex + 1) = c.labels ++ post)
    (hok : found (s.push n) = .ok s') :
    s' = s.keep (s.currentInputSchemaIndex + 1 + c.labels.length)
      (s.nextInputChunkIndex + leaves c.labels)
      [.node (⟨s.currentInputSchemaIndex, s.nextInputChunkIndex, elem⟩, n)
        (selector (place (s.currentInputSchemaIndex + 1) s.nextInputChunkIndex c)).toList] :=
  (h c post (s.push n) s' hc hdrop hok).trans (push_keep htype)

theorem length_labels_single (elem : SchemaElement) (c : RoseTree SchemaElement) :
    (RoseTree.node elem [c]).labels.length = 1 + c.labels.length := by
  rw [RoseTree.labels_node, List.flatMap_singleton, List.length_cons, Nat.add_comm]

theorem leaves_labels_single {elem : SchemaElement} (htype : elem.issetType = false)
    (c : RoseTree SchemaElement) : leaves (RoseTree.node elem [c]).labels = leaves c.labels := by
  rw [RoseTree.labels_node, List.flatMap_singleton, leaves_cons, htype]
  rfl

theorem filtersAs_list (h : FilterAllAs schema children sels) :
    FiltersAs schema (filterSchemaList schema children)
      fun u => selectOutline sels u (outline name .list u) := by
  intro t post s s' ht hdrop hok
  obtain ⟨found, elem, hfound, hget, hcases⟩ := filterSchemaList_ok hok
  obtain ⟨selector, hselector, hfilter⟩ := h.exists_lookup hfound
  obtain ⟨elem', cs⟩ := t
  obtain ⟨⟨hnum, -⟩, hcs⟩ := wellFormed_node.1 ht
  have hdrop' := hdrop
  rw [RoseTree.labels_node, List.cons_append] at hdrop'
  obtain rfl : elem' = elem := Option.some.inj ((getElem?_of_drop hdrop').symm.trans hget)
  have hchildren := drop_of_drop_cons hdrop'
  have hlabel := label_place s.currentInputSchemaIndex s.nextInputChunkIndex (.node elem' cs)
  dsimp only
  rcases hcases with ⟨htype, hvalue⟩ | ⟨htype, hmany, hfound⟩ | ⟨htype, hone, repeated, hrep, hfound⟩
  · -- a repeated leaf
    rw [outline_list_leaf (by rw [hlabel]; exact htype)]
    exact filtersAs_leaf _ _ _ _ ht hdrop hvalue
  · -- the list is the repeated element itself
    rw [hnum] at hmany
    have houtline : listOutline elem'.name (place s.currentInputSchemaIndex s.nextInputChunkIndex
        (.node elem' cs)).children = .pass "element" := by
      match cs, hmany with
      | c :: c' :: cs, _ => rw [place_group htype]; rfl
    rw [outline_list_group (by rw [hlabel]; exact htype), hlabel]
    rw [show (⟨s.currentInputSchemaIndex, s.nextInputChunkIndex,
      (RoseTree.node elem' cs).label⟩ : Place).elem.name = elem'.name from rfl, houtline,
      selectOutline_pass hselector]
    exact hfilter _ _ _ _ ht hdrop hfound
  · obtain ⟨r, rfl⟩ : ∃ r, cs = [r] := List.length_eq_one_iff.1 (hnum.symm.trans hone)
    have hr := hcs r (List.mem_cons_self ..)
    obtain ⟨b, rs⟩ := r
    obtain ⟨⟨hnum', -⟩, hrs⟩ := wellFormed_node.1 hr
    rw [List.flatMap_singleton] at hchildren
    have hchildren' := hchildren
    rw [RoseTree.labels_node, List.cons_append] at hchildren'
    obtain rfl : b = repeated := Option.some.inj ((getElem?_of_drop hchildren').symm.trans hrep)
    have houtline : outline name .list (place s.currentInputSchemaIndex s.nextInputChunkIndex
        (.node elem' [.node b rs])) = repeatedOutline elem'.name
          (place (s.currentInputSchemaIndex + 1) s.nextInputChunkIndex (.node b rs)) := by
      rw [outline_list_group (by rw [hlabel]; exact htype), place_group htype]
      rfl
    have hlabel' := label_place (s.currentInputSchemaIndex + 1) s.nextInputChunkIndex (.node b rs)
    rw [houtline, length_labels_single, leaves_labels_single htype, ← Nat.add_assoc,
      place_group htype]
    split_ifs at hfound with hmiddle
    · -- two groups around the element
      have hgroup : b.issetType = false ∧ getNumChildren b = 1 := by
        simp only [isMiddleGroup, Bool.and_eq_true, Bool.not_eq_true', decide_eq_true_eq] at hmiddle
        exact hmiddle.1.1
      obtain ⟨c, rfl⟩ : ∃ c, rs = [c] := List.length_eq_one_iff.1 (hnum'.symm.trans hgroup.2)
      have hc := hrs c (List.mem_cons_self ..)
      have helement := drop_of_drop_cons hchildren'
      rw [List.flatMap_singleton] at helement
      rw [hfilter.push hgroup.1 hc helement hfound, push_keep htype,
        repeatedOutline_middle (by rw [hlabel']; exact hmiddle), place_group hgroup.1,
        length_labels_single, leaves_labels_single hgroup.1, ← Nat.add_assoc]
      exact congrArg (s.keep _ _ [.node _ [.node _ ·]]) (keptFields_of_lookup hselector).symm
    · -- the group is around the repeated element
      rw [hfilter.push htype hr hchildren hfound,
        repeatedOutline_two (by rw [hlabel']; exact hmiddle), selectOutline,
        keptFields_of_lookup hselector]
      rfl

theorem filtersAs_map (h : FilterAllAs schema children sels) :
    FiltersAs schema (filterSchemaMap schema children)
      fun u => selectOutline sels u (outline name .map u) := by
  intro t post s s' ht hdrop hok
  obtain ⟨keyFound, valueFound, elem, repeated, s1, hkey, hvalue, hget, htype, hone, hrep, hnum,
    hs1, hok⟩ := filterSchemaMap_ok hok
  obtain ⟨keySelector, hkeySelector, hkeyFilter⟩ := h.exists_lookup hkey
  obtain ⟨valueSelector, hvalueSelector, hvalueFilter⟩ := h.exists_lookup hvalue
  obtain ⟨elem', cs⟩ := t
  obtain ⟨⟨hlen, -⟩, hcs⟩ := wellFormed_node.1 ht
  rw [RoseTree.labels_node, List.cons_append] at hdrop
  obtain rfl : elem' = elem := Option.some.inj ((getElem?_of_drop hdrop).symm.trans hget)
  obtain ⟨r, rfl⟩ : ∃ r, cs = [r] := List.length_eq_one_iff.1 (hlen.symm.trans hone)
  obtain ⟨b, fields⟩ := r
  obtain ⟨⟨hlen', htype'⟩, hfields⟩ := wellFormed_node.1 (hcs _ (List.mem_cons_self ..))
  have hgroup := drop_of_drop_cons hdrop
  rw [List.flatMap_singleton, RoseTree.labels_node, List.cons_append] at hgroup
  obtain rfl : b = repeated := Option.some.inj ((getElem?_of_drop hgroup).symm.trans hrep)
  have hinner := drop_of_drop_cons hgroup
  have hbtype : b.issetType = false := by
    rw [← Bool.not_eq_true]
    intro hb
    rw [htype'.1 hb] at hlen'
    rcases hnum with hnum | hnum <;> rw [hlen'] at hnum <;> exact absurd hnum (by decide)
  dsimp only
  rw [place_group htype]
  simp only [placeAll]
  rw [place_group hbtype]
  rw [hlen'] at hnum hok
  rcases hnum with hnum | hnum
  · -- a key only
    obtain ⟨k, rfl⟩ := List.length_eq_one_iff.1 hnum
    rw [if_neg (by rw [hnum]; decide)] at hok
    obtain rfl := Except.ok.inj hok
    rw [List.flatMap_singleton] at hinner
    rw [hlen', hnum] at hs1
    rw [hkeyFilter.push hbtype (hfields k (List.mem_cons_self ..)) hinner hs1,
      push_keep htype, length_labels_single, length_labels_single,
      leaves_labels_single htype, leaves_labels_single hbtype, ← Nat.add_assoc, ← Nat.add_assoc]
    exact congrArg (s.keep _ _ [.node _ [.node _ ·]]) (keptFields_of_lookup hkeySelector).symm
  · obtain ⟨k, v, rfl⟩ := List.length_eq_two.1 hnum
    rw [if_pos hnum] at hok
    rw [List.flatMap_cons, List.flatMap_singleton, List.append_assoc] at hinner
    rw [hlen', hnum] at hs1
    have hk := hkeyFilter _ _ ((s.push 1).push 2) _ (hfields k (List.mem_cons_self ..)) hinner hs1
    obtain rfl := hk
    have hv := hvalueFilter v post _ _ (hfields v (by simp)) (drop_of_drop hinner) hok
    rw [keep_keep, push_keep hbtype, push_keep htype] at hv
    have hkept : keptFields sels
        [(place (s.currentInputSchemaIndex + 1 + 1) s.nextInputChunkIndex k, "key"),
          (place (s.currentInputSchemaIndex + 1 + 1 + k.labels.length)
            (s.nextInputChunkIndex + leaves k.labels) v, "value")] =
        (keySelector (place (s.currentInputSchemaIndex + 1 + 1) s.nextInputChunkIndex k)).toList ++
          (valueSelector (place (s.currentInputSchemaIndex + 1 + 1 + k.labels.length)
            (s.nextInputChunkIndex + leaves k.labels) v)).toList := by
      rw [← List.singleton_append, keptFields_append, keptFields_of_lookup hkeySelector,
        keptFields_of_lookup hvalueSelector]
    have hlength : s.currentInputSchemaIndex +
        (RoseTree.node elem' [.node b [k, v]]).labels.length =
        s.currentInputSchemaIndex + 1 + 1 + k.labels.length + v.labels.length := by
      rw [length_labels_single, RoseTree.labels_node, List.length_cons, List.flatMap_cons,
        List.flatMap_singleton, List.length_append]
      omega
    have hleaves : s.nextInputChunkIndex + leaves (RoseTree.node elem' [.node b [k, v]]).labels =
        s.nextInputChunkIndex + leaves k.labels + leaves v.labels := by
      rw [leaves_labels_single htype, RoseTree.labels_node, List.flatMap_cons,
        List.flatMap_singleton, leaves_cons, leaves_append, hbtype,
        if_neg Bool.false_ne_true, Nat.add_zero, Nat.add_assoc]
    rw [hv, hlength, hleaves]
    exact congrArg (s.keep _ _ [.node _ [.node _ ·]]) hkept.symm

theorem filtersAs_tag (h : FilterAllAs schema cs sels) (tag : Tag) :
    FiltersAs schema (filterSchemaTag schema name tag cs)
      fun u => selectOutline sels u (outline name tag u) :=
  match tag with
  | .value => filtersAs_value
  | .struct => filtersAs_struct h
  | .list => filtersAs_list h
  | .map => filtersAs_map h

/-- A property of all pruners, from the one of the children. -/
@[elab_as_elim]
theorem ColumnPruner.induct {motive : ColumnPruner → Prop}
    (mk : ∀ tag cs, (∀ child ∈ cs, motive child.2) → motive (.mk tag cs))
    (pruner : ColumnPruner) : motive pruner :=
  ColumnPruner.rec (motive_1 := motive) (motive_2 := fun cs => ∀ c ∈ cs, motive c.2)
    (motive_3 := fun child => motive child.2) mk (fun _ hc => absurd hc List.not_mem_nil)
    (fun _ _ hc hcs => List.forall_mem_cons.2 ⟨hc, hcs⟩) (fun _ _ h => h) pruner

theorem ColumnPruner.filters_eq (cs : List (String × ColumnPruner)) :
    filters schema name cs = cs.map fun c => (c.1, c.2.filter schema name) := by
  induction cs with
  | nil => rfl
  | cons c cs ih => rw [filters, ih, List.map_cons]

theorem ColumnPruner.selects_eq (cs : List (String × ColumnPruner)) :
    selects name cs = cs.map fun c => (c.1, c.2.select name) := by
  induction cs with
  | nil => rfl
  | cons c cs ih => rw [selects, ih, List.map_cons]

/-- **The filter of a pruner appends what the pruner selects.** -/
theorem ColumnPruner.filter_select (pruner : ColumnPruner) :
    FiltersAs schema (pruner.filter schema name) (pruner.select name) := by
  induction pruner using ColumnPruner.induct with
  | mk tag cs ih =>
    refine filtersAs_tag ?_ tag
    rw [filters_eq, selects_eq]
    exact List.forall₂_map_left_iff.2 (List.forall₂_map_right_iff.2
      (List.forall₂_same.2 fun c hc => ⟨rfl, ih c hc⟩))

end Refinement

end SparkRapids.ParquetFooter
