import SparkRapidsJni.ParquetFooter.Pruned

/-!
# The pruned footer

The elements that `filter_schema` selects, with the numbers of children that it notes, are the file's tree
restricted to them, exactly where every group of a list or a map that is kept has what is asked of it
(`filterSchema_pruned_iff`). A field of a struct is then selected where it is requested and something
beneath it is selected: below a requested element, the whole selection is what its own request selects
(`Requested.mem_select`).
-/

namespace SparkRapids.ParquetFooter

open RoseTree

/-! ### Requests -/

section Requests

variable {name : SchemaElement → Except String String} {pruner q : ColumnPruner}
  {file u : RoseTree Place} {p : Place}

/-- The elements of the file that requests are for: what the outline of an element hands to the child
pruners. -/
inductive Requested (name : SchemaElement → Except String String) (pruner : ColumnPruner)
    (file : RoseTree Place) : ColumnPruner → RoseTree Place → Prop
  | root : Requested name pruner file pruner file
  | pass {tag children n q u} : Requested name pruner file (.mk tag children) u →
    outline name tag u = .pass n → children.lookup n = some q → Requested name pruner file q u
  | field {tag children fields field q u} : Requested name pruner file (.mk tag children) u →
    (outline name tag u = .struct fields ∨ ∃ middle, outline name tag u = .groups middle fields) →
    field ∈ fields → children.lookup field.2 = some q → Requested name pruner file q field.1

/-- The places of what is selected. -/
def selected (name : SchemaElement → Except String String) (q : ColumnPruner) (u : RoseTree Place) :
    List Place :=
  (q.select name u).toList.flatMap fun k => (k.map Prod.fst).labels

theorem mem_selected : p ∈ selected name q u ↔
    ∃ k, q.select name u = some k ∧ p ∈ (k.map Prod.fst).labels := by
  unfold selected
  cases q.select name u <;> simp

theorem selected_subset (h : p ∈ selected name q u) : p ∈ u.labels := by
  obtain ⟨k, hk, hp⟩ := mem_selected.1 h
  exact (q.select_prunes hk).labels_sublist.subset hp

/-- Where something is selected, the element itself is. -/
theorem label_mem_selected (h : p ∈ selected name q u) : u.label ∈ selected name q u := by
  obtain ⟨k, hk, -⟩ := mem_selected.1 h
  refine mem_selected.2 ⟨k, hk, ?_⟩
  rw [← (q.select_prunes hk).label_eq]
  exact label_mem_labels _

/-- Different fields have no label in common. -/
theorem field_unique {fields : List (RoseTree Place × String)} {cs : List (RoseTree Place)}
    (hsub : (fields.map Prod.fst).Sublist cs) (hnodup : (cs.flatMap labels).Nodup)
    {field field' : RoseTree Place × String} (hfield : field ∈ fields) (hfield' : field' ∈ fields)
    (hp : p ∈ field.1.labels) (hp' : p ∈ field'.1.labels) : field = field' := by
  refine eq_of_mem_labels (hnodup.sublist ?_) hfield hfield' hp hp'
  rw [List.flatMap_def, List.flatMap_def]
  exact (hsub.map labels).flatten

/-- What is selected of an element besides the groups is what is selected of its fields. -/
theorem mem_selected_fields {tag : Tag} {cs : List (String × ColumnPruner)}
    {fields : List (RoseTree Place × String)}
    (h : outline name tag u = .struct fields ∧ p ≠ u.label ∨
      ∃ middle, outline name tag u = .groups middle fields ∧ p ≠ u.label ∧ middle ≠ some p) :
    p ∈ selected name (.mk tag cs) u ↔ ∃ field ∈ fields, ∃ q,
      cs.lookup field.2 = some q ∧ p ∈ selected name q field.1 := by
  have hkept : (∃ k ∈ keptFields (ColumnPruner.selects name cs) fields,
      p ∈ (k.map Prod.fst).labels) ↔ ∃ field ∈ fields, ∃ q,
        cs.lookup field.2 = some q ∧ p ∈ selected name q field.1 := by
    constructor
    · rintro ⟨k, hk, hp⟩
      obtain ⟨field, hfield, q, hq, hk⟩ := mem_keptFields_selects.1 hk
      exact ⟨field, hfield, q, hq, mem_selected.2 ⟨k, hk, hp⟩⟩
    · rintro ⟨field, hfield, q, hq, hp⟩
      obtain ⟨k, hk, hp⟩ := mem_selected.1 hp
      exact ⟨k, mem_keptFields_selects.2 ⟨field, hfield, q, hq, hk⟩, hp⟩
  rw [← hkept, mem_selected, ColumnPruner.select]
  dsimp only
  -- a node is not the place itself, so the place is below it
  have hnode : ∀ (a : Place × ℕ) (ks : List Kept), p ≠ a.1 →
      (p ∈ ((RoseTree.node a ks).map Prod.fst).labels ↔
        ∃ k ∈ ks, p ∈ (k.map Prod.fst).labels) := by
    intro a ks hne
    rw [map_node, mem_labels_node, or_iff_right hne]
    simp
  rcases h with ⟨hout, hne⟩ | ⟨middle, hout, hne, hmiddle⟩
  · rw [hout, selectOutline]
    cases keptFields (ColumnPruner.selects name cs) fields with
    | nil => simp
    | cons k ks =>
      simp only [Option.some.injEq, exists_eq_left']
      exact hnode _ _ hne
  · rw [hout]
    cases middle with
    | none =>
      simp only [selectOutline, Option.some.injEq, exists_eq_left']
      exact hnode _ _ hne
    | some b =>
      simp only [selectOutline, Option.some.injEq, exists_eq_left']
      rw [hnode _ _ hne]
      simp only [List.mem_singleton, exists_eq_left]
      exact hnode _ _ fun heq => hmiddle (congrArg some heq.symm)

/-- Fields are subtrees with labels of their own, besides the ones of the groups around them. -/
theorem fields_spec {tag : Tag} {fields : List (RoseTree Place × String)}
    (h : outline name tag u = .struct fields ∨ ∃ middle, outline name tag u = .groups middle fields)
    (hnodup : u.labels.Nodup) :
    ∃ cs, (fields.map Prod.fst).Sublist cs ∧ (∀ c ∈ cs, c ∈ u.subtrees) ∧
      (cs.flatMap labels).Nodup ∧ ∀ p ∈ cs.flatMap labels,
        outline name tag u = .struct fields ∧ p ≠ u.label ∨
          ∃ middle, outline name tag u = .groups middle fields ∧ p ≠ u.label ∧ middle ≠ some p := by
  obtain ⟨a, cs⟩ := u
  rw [labels_node, List.nodup_cons] at hnodup
  obtain ⟨ha, hnodup⟩ := hnodup
  have hchild : ∀ c ∈ cs, c ∈ (node a cs).subtrees :=
    fun c hc => mem_subtrees_node.2 (.inr ⟨c, hc, self_mem_subtrees c⟩)
  rcases h with hout | ⟨middle, hout⟩
  · refine ⟨cs, outline_struct hout, hchild, hnodup,
      fun p hp => .inl ⟨hout, ?_⟩⟩
    rintro rfl
    exact ha hp
  · obtain ⟨r, cs', hchildren, hcases⟩ := outline_groups hout
    obtain rfl : cs = r :: cs' := hchildren
    rcases hcases with ⟨rfl, hr⟩ | ⟨rfl, hsub, -⟩
    · refine ⟨r :: cs', hr ▸ (List.nil_sublist cs').cons_cons r, hchild, hnodup,
        fun p hp => .inr ⟨none, hout, ?_, Option.some_ne_none p |>.symm⟩⟩
      rintro rfl
      exact ha hp
    · -- the middle group is left out: its children are the fields
      obtain ⟨b, rs⟩ := r
      rw [List.flatMap_cons, labels_node, List.cons_append, List.nodup_cons] at hnodup
      obtain ⟨hb, hnodup⟩ := hnodup
      refine ⟨rs, hsub, fun c hc => subtrees_subset (hchild _ (List.mem_cons_self ..))
        (mem_subtrees_node.2 (.inr ⟨c, hc, self_mem_subtrees c⟩)),
        hnodup.sublist (List.sublist_append_left ..),
        fun p hp => .inr ⟨some b, hout, ?_, ?_⟩⟩
      · rintro rfl
        exact ha (List.mem_flatMap.2 ⟨_, List.mem_cons_self .., by
          rw [labels_node]
          exact List.mem_cons_of_mem _ hp⟩)
      · intro heq
        obtain rfl := Option.some.inj heq
        exact hb (List.mem_append_left _ hp)

/-- Below a requested element, the whole selection is what its own request selects. -/
theorem Requested.mem_selected (hnodup : file.labels.Nodup) (h : Requested name pruner file q u) :
    u ∈ file.subtrees ∧
      ∀ p ∈ u.labels, p ∈ selected name pruner file ↔ p ∈ selected name q u := by
  induction h with
  | root => exact ⟨self_mem_subtrees file, fun _ _ => Iff.rfl⟩
  | @pass tag children n q u _ hout hq ih =>
    refine ⟨ih.1, fun p hp => (ih.2 p hp).trans ?_⟩
    have heq : (ColumnPruner.mk tag children).select name u = q.select name u := by
      rw [ColumnPruner.select]
      dsimp only
      rw [hout, selectOutline, ColumnPruner.lookup_selects, hq]
      rfl
    unfold selected
    rw [heq]
  | @field tag children fields field q u _ hout hfield hq ih =>
    obtain ⟨cs, hsub, hcs, hnodup, hlabels⟩ :=
      fields_spec hout ((labels_sublist ih.1).nodup hnodup)
    have hmem : field.1 ∈ cs := hsub.subset (List.mem_map_of_mem hfield)
    have hsubtree := hcs _ hmem
    refine ⟨subtrees_subset ih.1 hsubtree, fun p hp => ?_⟩
    rw [ih.2 p ((labels_sublist hsubtree).subset hp),
      mem_selected_fields (hlabels p (List.mem_flatMap.2 ⟨_, hmem, hp⟩))]
    constructor
    · rintro ⟨field', hfield', q', hq', hp'⟩
      -- the other fields have other labels
      obtain rfl := field_unique hsub hnodup hfield hfield' hp (selected_subset hp')
      obtain rfl : q = q' := Option.some.inj (hq.symm.trans hq')
      exact hp'
    · exact fun hp' => ⟨field, hfield, q, hq, hp'⟩

/-- The noted numbers of children are right below every requested element if they are in the file. -/
theorem Requested.counted (h : Requested name pruner file q u)
    (hcounted : ∀ k ∈ pruner.select name file, Counted k) : ∀ k ∈ q.select name u, Counted k := by
  induction h with
  | root => exact hcounted
  | @pass tag cs n q u _ hout hq ih =>
    rw [ColumnPruner.select] at ih
    dsimp only at ih
    rw [hout, selectOutline, ColumnPruner.lookup_selects, hq] at ih
    exact ih
  | @field tag cs fields field q u _ hout hfield hq ih =>
    intro k hk
    have hmem : k ∈ keptFields (ColumnPruner.selects name cs) fields :=
      mem_keptFields_selects.2 ⟨field, hfield, q, hq, hk⟩
    rw [ColumnPruner.select] at ih
    dsimp only at ih
    rcases hout with hout | ⟨middle, hout⟩
    · rw [hout, selectOutline] at ih
      split at ih
      · next hnil =>
        rw [hnil] at hmem
        exact absurd hmem List.not_mem_nil
      · exact (counted_node.1 (ih _ rfl)).2 k hmem
    · rw [hout] at ih
      cases middle with
      | none => exact (counted_node.1 (ih _ rfl)).2 k hmem
      | some b =>
        have hmiddle := (counted_node.1 (ih _ rfl)).2 _ (List.mem_singleton_self _)
        exact (counted_node.1 hmiddle).2 k hmem

/-- What is selected is requested, or the group in the middle of a requested list or map. -/
theorem exists_requested (hp : p ∈ selected name q u) (h : Requested name pruner file q u) :
    ∃ q' v, Requested name pruner file q' v ∧ (p = v.label ∨ ∃ tag cs fields,
      q' = .mk tag cs ∧ outline name tag v = .groups (some p) fields) := by
  induction q using ColumnPruner.induct generalizing u with
  | mk tag cs ih =>
    by_cases hlabel : p = u.label
    · exact ⟨_, u, h, .inl hlabel⟩
    -- a label below a field comes from the pruner of that field
    have hfield : ∀ fields, (outline name tag u = .struct fields ∨
        ∃ middle, outline name tag u = .groups middle fields) →
        (∃ field ∈ fields, ∃ q, cs.lookup field.2 = some q ∧ p ∈ selected name q field.1) →
        ∃ q' v, Requested name pruner file q' v ∧ (p = v.label ∨ ∃ tag cs fields,
          q' = .mk tag cs ∧ outline name tag v = .groups (some p) fields) := by
      rintro fields hout ⟨field, hfield, q, hq, hp⟩
      exact ih _ (mem_of_lookup hq) hp (h.field hout hfield hq)
    cases hout : outline name tag u with
    | leaf =>
      obtain ⟨k, hk, hp⟩ := SparkRapids.ParquetFooter.mem_selected.1 hp
      rw [ColumnPruner.select] at hk
      dsimp only at hk
      rw [hout] at hk
      cases hk
      rw [map_node, mem_labels_node] at hp
      exact absurd (hp.resolve_right (by simp)) hlabel
    | pass n =>
      obtain ⟨k, hk, hp⟩ := SparkRapids.ParquetFooter.mem_selected.1 hp
      rw [ColumnPruner.select] at hk
      dsimp only at hk
      rw [hout, selectOutline, ColumnPruner.lookup_selects] at hk
      obtain ⟨selector, hselector, hk⟩ := Option.bind_eq_some_iff.1 hk
      obtain ⟨q, hq, rfl⟩ := Option.map_eq_some_iff.1 hselector
      exact ih _ (mem_of_lookup hq) (SparkRapids.ParquetFooter.mem_selected.2 ⟨k, hk, hp⟩)
        (h.pass hout hq)
    | struct fields =>
      exact hfield fields (.inl hout) ((mem_selected_fields (.inl ⟨hout, hlabel⟩)).1 hp)
    | groups middle fields =>
      by_cases hmiddle : middle = some p
      · exact ⟨_, u, h, .inr ⟨tag, cs, fields, rfl, hmiddle ▸ hout⟩⟩
      · exact hfield fields (.inr ⟨middle, hout⟩)
          ((mem_selected_fields (.inr ⟨middle, hout, hlabel, hmiddle⟩)).1 hp)

end Requests

/-! ### Leaves -/

section Leaves

variable {name : SchemaElement → Except String String} {pruner : ColumnPruner} {u : RoseTree Place}
  {t : RoseTree SchemaElement} {k : Kept} {index chunk : ℕ}

/-- The leaves of the placed tree are the elements with a type. -/
theorem children_place (ht : WellFormed t) (hu : u ∈ (place index chunk t).subtrees) :
    u.label.elem.issetType = true ↔ u.children = [] := by
  induction t using RoseTree.induct generalizing index chunk u with
  | node elem cs ih =>
    obtain ⟨⟨-, htype⟩, hcs⟩ := wellFormed_node.1 ht
    have hall : ∀ (ts : List (RoseTree SchemaElement)) (index chunk : ℕ), (∀ t ∈ ts, t ∈ cs) →
        ∀ c ∈ placeAll index chunk ts, ∀ u ∈ c.subtrees,
          (u.label.elem.issetType = true ↔ u.children = []) := by
      intro ts
      induction ts with
      | nil => exact fun _ _ _ _ hc => absurd hc List.not_mem_nil
      | cons t ts ihts =>
        intro index chunk hts c hc u hu
        have ht := hts t (List.mem_cons_self ..)
        rcases List.mem_cons.1 hc with rfl | hc
        · exact ih t ht (hcs t ht) hu
        · exact ihts _ _ (fun t ht => hts t (List.mem_cons_of_mem _ ht)) c hc u hu
    rw [place] at hu
    rcases mem_subtrees_node.1 hu with rfl | ⟨c, hc, hu⟩
    · refine htype.trans ?_
      cases cs with
      | nil => exact iff_of_true rfl rfl
      | cons c cs => exact iff_of_false (List.cons_ne_nil _ _) (List.cons_ne_nil _ _)
    · exact hall cs _ _ (fun _ h => h) c hc u hu

/-- The number 0 is noted for the leaves. -/
theorem noted_zero (hu : ∀ v ∈ u.subtrees, v.label.elem.issetType = true ↔ v.children = [])
    (hk : pruner.select name u = some k) :
    ∀ e ∈ k.labels, e.2 = 0 ↔ e.1.elem.issetType = true := by
  induction pruner using ColumnPruner.induct generalizing u k with
  | mk tag children ih =>
    have hself := hu u (self_mem_subtrees u)
    have hkept : ∀ fields, (∀ field ∈ fields, field.1 ∈ u.subtrees) →
        ∀ e ∈ (keptFields (ColumnPruner.selects name children) fields).flatMap labels,
          e.2 = 0 ↔ e.1.elem.issetType = true := by
      intro fields hfields e he
      obtain ⟨k, hk, he⟩ := List.mem_flatMap.1 he
      obtain ⟨field, hfield, q, hq, hk⟩ := mem_keptFields_selects.1 hk
      exact ih _ (mem_of_lookup hq)
        (fun v hv => hu v (subtrees_subset (hfields field hfield) hv)) hk e he
    have hchild : ∀ c ∈ u.children, c ∈ u.subtrees :=
      fun c hc => child_mem_subtrees (self_mem_subtrees u) hc
    rw [ColumnPruner.select] at hk
    dsimp only at hk
    cases hout : outline name tag u with
    | leaf =>
      rw [hout] at hk
      cases hk
      intro e he
      rw [labels_node, List.flatMap_nil, List.mem_singleton] at he
      obtain rfl := he
      exact iff_of_true rfl (outline_leaf hout)
    | pass n =>
      rw [hout, selectOutline, ColumnPruner.lookup_selects] at hk
      obtain ⟨selector, hselector, hk⟩ := Option.bind_eq_some_iff.1 hk
      obtain ⟨q, hq, rfl⟩ := Option.map_eq_some_iff.1 hselector
      exact ih _ (mem_of_lookup hq) hu hk
    | struct fields =>
      have hsub := outline_struct hout
      have hfields : ∀ field ∈ fields, field.1 ∈ u.subtrees :=
        fun field hfield => hchild _ (hsub.subset (List.mem_map_of_mem hfield))
      have hkept := hkept fields hfields
      rw [hout, selectOutline] at hk
      split at hk
      · cases hk
      -- a struct that is kept has a field, so it is no leaf and its number is not 0
      · next hne =>
        cases hk
        intro e he
        rw [labels_node] at he
        rcases List.mem_cons.1 he with rfl | he
        · refine iff_of_false (fun h => hne (List.length_eq_zero_iff.1 h)) fun htype => ?_
          rw [hself.1 htype, List.sublist_nil, List.map_eq_nil_iff] at hsub
          exact hne (by rw [hsub]; rfl)
        · exact hkept e he
    | groups middle fields =>
      obtain ⟨r, cs, hchildren, hcases⟩ := outline_groups hout
      have hr := hchild r (hchildren ▸ List.mem_cons_self ..)
      have hnot : ¬u.label.elem.issetType = true := fun htype =>
        absurd (hchildren.symm.trans (hself.1 htype)) (List.cons_ne_nil r cs)
      rw [hout] at hk
      -- the groups of a list or a map, without or with a middle one
      rcases hcases with ⟨rfl, hfst⟩ | ⟨rfl, hsub, hzero⟩
      · cases hk
        have hlen := congrArg List.length hfst
        rw [List.length_map] at hlen
        intro e he
        rw [labels_node] at he
        rcases List.mem_cons.1 he with rfl | he
        · exact iff_of_false (by dsimp only; rw [hlen]; exact one_ne_zero) hnot
        · refine hkept fields (fun field hfield => ?_) e he
          have hmem := List.mem_map_of_mem (f := Prod.fst) hfield
          rw [hfst, List.mem_singleton] at hmem
          rwa [hmem]
      · cases hk
        intro e he
        rw [labels_node, List.flatMap_singleton, labels_node] at he
        rcases List.mem_cons.1 he with rfl | he
        · exact iff_of_false one_ne_zero hnot
        rcases List.mem_cons.1 he with rfl | he
        · exact hzero.trans (hu r hr).symm
        · exact hkept fields (fun field hfield =>
            child_mem_subtrees hr (hsub.subset (List.mem_map_of_mem hfield))) e he

/-- Where the noted numbers of children are right, a leaf is beneath every kept element. -/
theorem exists_leaf (hcounted : Counted k)
    (hzero : ∀ e ∈ k.labels, e.2 = 0 ↔ e.1.elem.issetType = true) :
    ∃ l ∈ (k.map Prod.fst).labels, l.elem.issetType = true := by
  induction k using RoseTree.induct with
  | node a ks ih =>
    obtain ⟨hlen, hks⟩ := counted_node.1 hcounted
    rw [map_node]
    cases ks with
    | nil =>
      exact ⟨a.1, label_mem_labels _, (hzero a (label_mem_labels _)).1 hlen⟩
    | cons k ks =>
      obtain ⟨l, hl, htype⟩ := ih k (List.mem_cons_self ..) (hks k (List.mem_cons_self ..))
        fun e he => hzero e (mem_labels_node.2 (.inr ⟨k, List.mem_cons_self .., he⟩))
      exact ⟨l, mem_labels_node.2 (.inr ⟨_, List.mem_cons_self .., hl⟩), htype⟩

end Leaves

/-! ### The pruned footer -/

/-- A pruned footer is well formed. -/
structure PrunedFooter (name : SchemaElement → Except String String) (pruner : ColumnPruner)
    (t : RoseTree SchemaElement) (maps : ColumnPruningMaps) : Prop where
  length_eq : maps.schemaNumChildren.length = maps.schemaMap.length
  /-- The selected elements with their counts are the file's tree, restricted to them, depth first. -/
  tree : maps.schemaMap.zip maps.schemaNumChildren =
    ((place 0 0 t).restrict (·.index ∈ maps.schemaMap)).flatMap fun u =>
      u.depthFirst.map fun e => (e.1.index, e.2)
  /-- The leaves are the elements with a type. -/
  leaf : ∀ e ∈ maps.schemaMap.zip maps.schemaNumChildren, ∀ elem, t.labels[e.1]? = some elem →
    (e.2 = 0 ↔ elem.issetType = true)
  schemaMap_lt : maps.schemaMap.Pairwise (· < ·)
  chunkMap_lt : maps.chunkMap.Pairwise (· < ·)
  /-- The chunks are the positions of the selected leaves among all leaves. -/
  chunkMap_eq : maps.chunkMap =
    (maps.schemaMap.filter fun i => (t.labels[i]?).any (·.issetType)).map fun i =>
      leaves (t.labels.take i)
  /-- A field of a struct is selected where its name is requested and a leaf beneath is selected. -/
  field : ∀ children u, Requested name pruner (place 0 0 t) (.mk .struct children) u →
    ∀ c ∈ u.children, c.label.index ∈ maps.schemaMap ↔
      (∃ n, name c.label.elem = .ok n ∧ (children.lookup n).isSome) ∧
        ∃ l ∈ c.labels, l.elem.issetType = true ∧ l.index ∈ maps.schemaMap
  /-- Nothing else is selected. -/
  requested : ∀ p ∈ (place 0 0 t).labels, p.index ∈ maps.schemaMap →
    ∃ q u, Requested name pruner (place 0 0 t) q u ∧ (p = u.label ∨ ∃ tag children fields,
      q = .mk tag children ∧ outline name tag u = .groups (some p) fields)

section Footer

variable {unicodeToLower : String → Except String String} {ignoreCase : Bool} {pruner : ColumnPruner}
  {t : RoseTree SchemaElement} {maps : ColumnPruningMaps} {name : SchemaElement → Except String String}

/-- The maps of what is selected. -/
def mapsOf (kept : List Kept) : ColumnPruningMaps :=
  let entries := kept.flatMap labels
  ⟨entries.map (·.1.index), entries.map (·.2),
    (entries.filter (·.1.elem.issetType)).map (·.1.chunk)⟩

theorem filterSchema_ok (ht : WellFormed t)
    (h : pruner.filterSchema unicodeToLower t.labels ignoreCase = .ok maps) :
    maps = mapsOf (pruner.select (getName unicodeToLower · ignoreCase) (place 0 0 t)).toList := by
  obtain ⟨s, hs, h⟩ := exists_of_bind_ok h
  obtain rfl := Except.ok.inj h
  rw [pruner.filter_select t [] _ s ht (List.append_nil _).symm hs]
  rfl

/-- The places of the entries are the places that are selected. -/
theorem map_fst_entries (u : RoseTree Place) :
    ((pruner.select name u).toList.flatMap labels).map Prod.fst = selected name pruner u := by
  unfold selected
  rw [List.map_flatMap]
  exact List.flatMap_congr fun k _ => (labels_map Prod.fst k).symm

theorem selected_sublist (u : RoseTree Place) : (selected name pruner u).Sublist u.labels := by
  unfold selected
  cases hk : pruner.select name u with
  | none => exact List.nil_sublist _
  | some k =>
    rw [Option.toList_some, List.flatMap_singleton]
    exact (pruner.select_prunes hk).labels_sublist

theorem schemaMap_mapsOf (u : RoseTree Place) :
    (mapsOf (pruner.select name u).toList).schemaMap =
      (selected name pruner u).map (·.index) := by
  rw [← map_fst_entries, List.map_map]
  rfl

theorem chunkMap_mapsOf (u : RoseTree Place) :
    (mapsOf (pruner.select name u).toList).chunkMap =
      ((selected name pruner u).filter (·.elem.issetType)).map (·.chunk) := by
  rw [← map_fst_entries, List.filter_map, List.map_map]
  rfl

theorem mem_schemaMap {p : Place} (hp : p ∈ (place 0 0 t).labels) :
    p.index ∈ (mapsOf (pruner.select name (place 0 0 t)).toList).schemaMap ↔
      p ∈ selected name pruner (place 0 0 t) := by
  rw [schemaMap_mapsOf, List.mem_map]
  constructor
  · rintro ⟨p', hp', heq⟩
    rwa [← place_inj (selected_subset hp') hp heq]
  · exact fun h => ⟨p, h, rfl⟩

/-- The maps list the restricted tree depth first exactly where the noted numbers of children are
right. -/
theorem tree_iff (hmaps : maps = mapsOf (pruner.select name (place 0 0 t)).toList) :
    maps.schemaMap.zip maps.schemaNumChildren =
        (((place 0 0 t).restrict (·.index ∈ maps.schemaMap)).flatMap fun u =>
          u.depthFirst.map fun e => (e.1.index, e.2)) ↔
      ∀ k ∈ pruner.select name (place 0 0 t), Counted k := by
  subst hmaps
  have hcongr : (place 0 0 t).restrict
      (·.index ∈ (mapsOf (pruner.select name (place 0 0 t)).toList).schemaMap) =
        (place 0 0 t).restrict (· ∈ selected name pruner (place 0 0 t)) :=
    restrict_congr fun p hp => mem_schemaMap hp
  rw [hcongr]
  unfold selected
  cases hk : pruner.select name (place 0 0 t) with
  | none =>
    rw [restrict_of_label (by simp)]
    simp [mapsOf]
  | some k =>
    have hrestrict := restrict_labels (nodup_labels t) (pruner.select_prunes hk)
    simp only [Option.toList_some, List.flatMap_singleton, Option.mem_some_iff, forall_eq']
    rw [hrestrict, List.flatMap_singleton, depthFirst_map, List.map_map, mapsOf]
    dsimp only
    rw [List.flatMap_singleton, List.zip_map', labels, List.map_map, List.map_inj_left]
    exact forall₂_congr fun v _ => by simp

/-- A requested field of a struct is selected where a leaf beneath it is. -/
theorem field_iff (ht : WellFormed t) (hcounted : ∀ k ∈ pruner.select name (place 0 0 t), Counted k)
    {cs : List (String × ColumnPruner)} {u c : RoseTree Place}
    (hu : Requested name pruner (place 0 0 t) (.mk .struct cs) u) (hc : c ∈ u.children) :
    c.label ∈ selected name pruner (place 0 0 t) ↔
      (∃ n, name c.label.elem = .ok n ∧ (cs.lookup n).isSome) ∧
        ∃ l ∈ c.labels, l.elem.issetType = true ∧ l ∈ selected name pruner (place 0 0 t) := by
  have hnodup := nodup_labels t
  obtain ⟨hsubtree, hmem⟩ := hu.mem_selected hnodup
  have hchild : c ∈ u.subtrees := child_mem_subtrees (self_mem_subtrees u) hc
  have hunodup := (labels_sublist hsubtree).nodup hnodup
  rw [← u.node_eta, labels_node, List.nodup_cons] at hunodup
  -- the selection at a child is the one of its own request
  have hunique : ∀ p ∈ c.labels, p ∈ selected name pruner (place 0 0 t) ↔
      ∃ n q, name c.label.elem = .ok n ∧ cs.lookup n = some q ∧ p ∈ selected name q c := by
    intro p hp
    have hne : p ≠ u.label := by
      rintro rfl
      exact hunodup.1 (List.mem_flatMap.2 ⟨c, hc, hp⟩)
    rw [hmem p ((labels_sublist hchild).subset hp), mem_selected_fields (.inl ⟨rfl, hne⟩)]
    constructor
    · rintro ⟨⟨c', n⟩, hfield, q, hq, hp'⟩
      obtain ⟨hc', hn⟩ := mem_namedFields.1 hfield
      obtain rfl : c = c' := eq_of_mem_labels (f := id)
        (by rw [List.map_id]; exact hunodup.2) hc hc' hp (selected_subset hp')
      exact ⟨n, q, hn, hq, hp'⟩
    · rintro ⟨n, q, hn, hq, hp'⟩
      exact ⟨(c, n), mem_namedFields.2 ⟨hc, hn⟩, q, hq, hp'⟩
  constructor
  · intro hp
    obtain ⟨n, q, hn, hq, hp⟩ := (hunique _ (label_mem_labels c)).1 hp
    refine ⟨⟨n, hn, by rw [hq]; rfl⟩, ?_⟩
    obtain ⟨k, hk, -⟩ := mem_selected.1 hp
    have hreq : Requested name pruner (place 0 0 t) q c :=
      hu.field (.inl rfl) (mem_namedFields.2 ⟨hc, hn⟩ : (c, n) ∈ _) hq
    have hzero := noted_zero (fun v hv => children_place ht
      (subtrees_subset hsubtree (subtrees_subset hchild hv))) hk
    obtain ⟨l, hl, htype⟩ := exists_leaf (hreq.counted hcounted k hk) hzero
    have hsel : l ∈ selected name q c := mem_selected.2 ⟨k, hk, hl⟩
    have hlc := selected_subset hsel
    exact ⟨l, hlc, htype, (hunique l hlc).2 ⟨n, q, hn, hq, hsel⟩⟩
  · rintro ⟨-, l, hl, -, hp⟩
    obtain ⟨n, q, hn, hq, hp⟩ := (hunique l hl).1 hp
    exact (hunique _ (label_mem_labels c)).2 ⟨n, q, hn, hq, label_mem_selected hp⟩

theorem prunedFooter_of_counted (ht : WellFormed t)
    (hmaps : maps = mapsOf (pruner.select name (place 0 0 t)).toList)
    (hcounted : ∀ k ∈ pruner.select name (place 0 0 t), Counted k) :
    PrunedFooter name pruner t maps := by
  have hsub : (selected name pruner (place 0 0 t)).Sublist (place 0 0 t).labels :=
    selected_sublist _
  have hschema : maps.schemaMap = (selected name pruner (place 0 0 t)).map (·.index) :=
    hmaps ▸ schemaMap_mapsOf _
  have hchunk : maps.chunkMap =
      ((selected name pruner (place 0 0 t)).filter (·.elem.issetType)).map (·.chunk) :=
    hmaps ▸ chunkMap_mapsOf _
  have hmem : ∀ p ∈ (place 0 0 t).labels,
      p.index ∈ maps.schemaMap ↔ p ∈ selected name pruner (place 0 0 t) :=
    fun p hp => hmaps ▸ mem_schemaMap hp
  constructor
  · rw [hmaps]
    simp [mapsOf]
  · exact (tree_iff hmaps).2 hcounted
  · -- an entry of the maps is one of a kept element
    intro e he elem helem
    rw [hmaps, mapsOf] at he
    dsimp only at he
    rw [List.zip_map', List.mem_map] at he
    obtain ⟨entry, hentry, rfl⟩ := he
    obtain ⟨k, hk, hentry'⟩ := List.mem_flatMap.1 hentry
    rw [Option.mem_toList] at hk
    have hplace : entry.1 ∈ (place 0 0 t).labels := by
      refine hsub.subset ?_
      rw [← map_fst_entries]
      exact List.mem_map_of_mem hentry
    rw [getElem?_labels hplace] at helem
    obtain rfl := Option.some.inj helem
    exact noted_zero (fun v hv => children_place ht hv) hk entry hentry'
  · rw [hschema]
    exact (index_lt t).sublist (hsub.map _)
  · have hlt : (((place 0 0 t).labels.filter (·.elem.issetType)).map (·.chunk)).Pairwise
        (· < ·) := by
      rw [labels_place, map_chunk_placeElems]
      exact List.pairwise_lt_range' ..
    rw [hchunk]
    exact hlt.sublist ((hsub.filter _).map _)
  · rw [hchunk, hschema, List.filter_map, List.map_map]
    have hfilter : (selected name pruner (place 0 0 t)).filter
        ((fun i => (t.labels[i]?).any (·.issetType)) ∘ (·.index)) =
          (selected name pruner (place 0 0 t)).filter (·.elem.issetType) := by
      refine List.filter_congr fun p hp => ?_
      rw [Function.comp_apply, getElem?_labels (hsub.subset hp)]
      rfl
    rw [hfilter]
    exact List.map_congr_left fun p hp => chunk_eq (hsub.subset (List.mem_of_mem_filter hp))
  · intro cs u hu c hc
    have hclabels : ∀ p ∈ c.labels, p ∈ (place 0 0 t).labels :=
      fun p hp => (labels_sublist (child_mem_subtrees (hu.mem_selected (nodup_labels t)).1 hc)).subset
        hp
    rw [hmem _ (hclabels _ (label_mem_labels c)), field_iff ht hcounted hu hc]
    refine and_congr_right fun _ => exists_congr fun l => and_congr_right fun hl => ?_
    rw [hmem l (hclabels l hl)]
  · intro p hp hindex
    exact exists_requested ((hmem p hp).1 hindex) .root

/-- **The pruned footer is well formed exactly where every group that is kept has what is asked of
it.** -/
theorem filterSchema_pruned_iff (ht : WellFormed t)
    (h : pruner.filterSchema unicodeToLower t.labels ignoreCase = .ok maps) :
    PrunedFooter (getName unicodeToLower · ignoreCase) pruner t maps ↔
      (pruner.finding (getName unicodeToLower · ignoreCase) (place 0 0 t)).full = true := by
  have hmaps := filterSchema_ok ht h
  rw [(pruner.finding_select (place 0 0 t)).2]
  exact ⟨fun hp => (tree_iff hmaps).1 hp.tree, prunedFooter_of_counted ht hmaps⟩

end Footer

/-! ### A list of structs -/

/-- A column `a` and a list `b` of structs with a field `c`. -/
def listOfStructs : RoseTree SchemaElement :=
  .node ⟨"root", false, some 2, none, none⟩ [
    .node ⟨"a", true, none, some .optional, none⟩ [],
    .node ⟨"b", false, some 1, some .optional, some .other⟩ [
      .node ⟨"list", false, some 1, some .repeated, none⟩ [
        .node ⟨"element", false, some 1, some .optional, none⟩ [
          .node ⟨"c", true, none, some .optional, none⟩ []]]]]

/-- A request of a field of the structs. -/
def requestField (field : String) : ColumnPruner :=
  .mk .struct [("b", .mk .list [("element", .mk .struct [(field, .mk .value [])])])]

theorem wellFormed_listOfStructs : WellFormed listOfStructs := by
  unfold WellFormed listOfStructs
  simp [subtrees, subtreesAll, getNumChildren, RoseTree.label, RoseTree.children]

theorem filterSchema_pruned_listOfStructs :
    PrunedFooter (getName .ok · false) (requestField "c") listOfStructs
      ⟨[0, 2, 3, 4, 5], [1, 1, 1, 1, 0], [1]⟩ :=
  (filterSchema_pruned_iff wellFormed_listOfStructs (by rfl)).2 (by decide)

/-- Where the structs have no such field, the groups of the list are kept with a child that is not. -/
theorem filterSchema_not_pruned : ¬∀ (pruner : ColumnPruner) (t : RoseTree SchemaElement)
    (unicodeToLower : String → Except String String) (ignoreCase : Bool) (maps : ColumnPruningMaps),
    WellFormed t → pruner.filterSchema unicodeToLower t.labels ignoreCase = .ok maps →
      PrunedFooter (getName unicodeToLower · ignoreCase) pruner t maps := by
  intro hall
  have hpruned := hall (requestField "d") listOfStructs .ok false ⟨[0, 2, 3], [1, 1, 1], []⟩
    wellFormed_listOfStructs (by rfl)
  exact absurd hpruned.tree (by decide)

end SparkRapids.ParquetFooter
