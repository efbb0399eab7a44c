import SparkRapidsJni.ParquetFooter.Select

/-!
# The file's tree, pruned

What a pruner selects is the file's tree with some subtrees dropped (`ColumnPruner.select_prunes`). The
numbers of children that are noted are those of that tree exactly where no group of a list or a map is
kept without what is asked of it (`ColumnPruner.finding_select`).
-/

namespace SparkRapids.ParquetFooter

open RoseTree

/-! ### Places in the schema -/

section Places

variable {index chunk : ℕ} {t : RoseTree SchemaElement} {elems : List SchemaElement} {p : Place}

/-- The elements with their indices and the numbers of leaves before them. -/
@[grind] def placeElems (index chunk : ℕ) : List SchemaElement → List Place
  | [] => []
  | elem :: elems =>
    ⟨index, chunk, elem⟩ :: placeElems (index + 1) (if elem.issetType then chunk + 1 else chunk) elems

theorem placeElems_append (index chunk : ℕ) (elems elems' : List SchemaElement) :
    placeElems index chunk (elems ++ elems') = placeElems index chunk elems ++
      placeElems (index + elems.length) (chunk + leaves elems) elems' := by
  induction elems generalizing index chunk with
  | nil => rfl
  | cons elem elems ih =>
    rw [List.cons_append, placeElems, ih, placeElems, List.cons_append, List.length_cons,
      leaves_cons, Nat.add_right_comm index, ← Nat.add_assoc index]
    congr 3
    split_ifs <;> omega

theorem labels_place (index chunk : ℕ) (t : RoseTree SchemaElement) :
    (place index chunk t).labels = placeElems index chunk t.labels := by
  induction t using RoseTree.induct generalizing index chunk with
  | node elem cs ih =>
    have hall : ∀ (ts : List (RoseTree SchemaElement)) (index chunk : ℕ), (∀ t ∈ ts, t ∈ cs) →
        (placeAll index chunk ts).flatMap labels =
          placeElems index chunk (ts.flatMap labels) := by
      intro ts
      induction ts with
      | nil => exact fun _ _ _ => rfl
      | cons t ts ihts =>
        intro index chunk hts
        rw [placeAll, List.flatMap_cons, List.flatMap_cons, placeElems_append,
          ih t (hts t (List.mem_cons_self ..)), ihts _ _ fun t ht => hts t (List.mem_cons_of_mem _ ht)]
    rw [place, labels_node, labels_node, hall cs _ _ fun _ ht => ht, placeElems]

theorem map_index_placeElems (index chunk : ℕ) (elems : List SchemaElement) :
    (placeElems index chunk elems).map (·.index) = List.range' index elems.length := by
  induction elems generalizing index chunk with
  | nil => rfl
  | cons elem elems ih =>
    rw [placeElems, List.map_cons, ih, List.length_cons, List.range'_succ]

/-- The leaves are numbered one by one. -/
theorem map_chunk_placeElems (index chunk : ℕ) (elems : List SchemaElement) :
    ((placeElems index chunk elems).filter (·.elem.issetType)).map (·.chunk) =
      List.range' chunk (leaves elems) := by
  induction elems generalizing index chunk with
  | nil => rfl
  | cons elem elems ih =>
    rw [placeElems, List.filter_cons, leaves_cons]
    cases elem.issetType with
    | true =>
      rw [if_pos rfl, if_pos rfl, List.map_cons, ih]
      rfl
    | false =>
      rw [if_neg Bool.false_ne_true, if_neg Bool.false_ne_true, ih]
      rfl

theorem mem_placeElems (h : p ∈ placeElems index chunk elems) :
    ∃ i, p.index = index + i ∧ elems[i]? = some p.elem ∧ p.chunk = chunk + leaves (elems.take i) := by
  induction elems generalizing index chunk with
  | nil => exact absurd h List.not_mem_nil
  | cons elem elems ih =>
    rcases List.mem_cons.1 h with rfl | h
    · exact ⟨0, rfl, rfl, rfl⟩
    · obtain ⟨i, hindex, helem, hchunk⟩ := ih h
      refine ⟨i + 1, by omega, helem, ?_⟩
      rw [hchunk, List.take_succ_cons, leaves_cons]
      split_ifs <;> omega

theorem getElem?_labels (h : p ∈ (place 0 0 t).labels) : t.labels[p.index]? = some p.elem := by
  rw [labels_place] at h
  obtain ⟨i, hindex, helem, -⟩ := mem_placeElems h
  rw [hindex, Nat.zero_add]
  exact helem

theorem chunk_eq (h : p ∈ (place 0 0 t).labels) : p.chunk = leaves (t.labels.take p.index) := by
  rw [labels_place] at h
  obtain ⟨i, hindex, -, hchunk⟩ := mem_placeElems h
  rw [hindex, hchunk, Nat.zero_add, Nat.zero_add]

theorem index_lt (t : RoseTree SchemaElement) :
    ((place 0 0 t).labels.map (·.index)).Pairwise (· < ·) := by
  rw [labels_place, map_index_placeElems]
  exact List.pairwise_lt_range' ..

theorem nodup_labels (t : RoseTree SchemaElement) : (place 0 0 t).labels.Nodup :=
  .of_map _ (index_lt t).nodup

/-- A place is known by its index. -/
theorem place_inj {p' : Place} (hp : p ∈ (place 0 0 t).labels) (hp' : p' ∈ (place 0 0 t).labels)
    (h : p.index = p'.index) : p = p' :=
  List.inj_on_of_nodup_map (index_lt t).nodup hp hp' h

end Places

/-! ### What is selected is a pruned tree -/

section Prunes

variable {name : SchemaElement → Except String String} {selectors : List (String × Selector)}
  {fields : List (RoseTree Place × String)} {u : RoseTree Place} {k : Kept} {tag : Tag}

/-- The fields of an outline are children of the element, or of the group in the middle. -/
theorem namedFields_sublist (cs : List (RoseTree Place)) :
    ((namedFields name cs).map Prod.fst).Sublist cs := by
  induction cs with
  | nil => exact List.nil_sublist _
  | cons c cs ih =>
    rw [namedFields_cons, List.map_append]
    cases (name c.label.elem).toOption with
    | none => exact ih.cons c
    | some n => exact ih.cons_cons c

theorem mem_namedFields {cs : List (RoseTree Place)} {c : RoseTree Place} {n : String} :
    (c, n) ∈ namedFields name cs ↔ c ∈ cs ∧ name c.label.elem = .ok n := by
  unfold namedFields
  rw [List.mem_filterMap]
  constructor
  · rintro ⟨c', hc', h⟩
    obtain ⟨n', hn', heq⟩ := Option.map_eq_some_iff.1 h
    obtain ⟨rfl, rfl⟩ := Prod.mk.inj heq
    refine ⟨hc', ?_⟩
    cases hname : name c'.label.elem with
    | error e => rw [hname] at hn'; cases hn'
    | ok n => rw [hname] at hn'; cases hn'; rfl
  · rintro ⟨hc, hname⟩
    exact ⟨c, hc, by rw [hname]; rfl⟩

theorem map_fst_zip_sublist (cs : List (RoseTree Place)) (names : List String) :
    ((cs.zip names).map Prod.fst).Sublist cs := by
  induction cs generalizing names with
  | nil => exact List.nil_sublist _
  | cons c cs ih =>
    cases names with
    | nil => exact List.nil_sublist _
    | cons n names => exact (ih names).cons_cons c

theorem outline_leaf (h : outline name tag u = .leaf) : u.label.elem.issetType = true := by
  unfold outline at h
  cases tag with
  | value =>
    dsimp only at h
    split_ifs at h with htype
    exact htype
  | struct => cases h
  | list =>
    dsimp only at h
    split_ifs at h with htype
    · exact htype
    · unfold listOutline repeatedOutline at h
      split at h
      · split_ifs at h
      · cases h
  | map =>
    dsimp only at h
    unfold mapOutline at h
    split at h <;> cases h

theorem outline_struct (h : outline name tag u = .struct fields) :
    (fields.map Prod.fst).Sublist u.children := by
  unfold outline at h
  cases tag with
  | value =>
    dsimp only at h
    split_ifs at h
    cases h
    exact List.nil_sublist _
  | struct =>
    cases h
    exact namedFields_sublist u.children
  | list =>
    dsimp only at h
    unfold listOutline repeatedOutline at h
    split_ifs at h
    split at h
    · split_ifs at h
    · cases h
  | map =>
    dsimp only at h
    unfold mapOutline at h
    split at h <;> cases h
    exact List.nil_sublist _

theorem outline_groups {middle : Option Place} (h : outline name tag u = .groups middle fields) :
    ∃ r cs, u.children = r :: cs ∧ (middle = none ∧ fields.map Prod.fst = [r] ∨
      middle = some r.label ∧ (fields.map Prod.fst).Sublist r.children ∧
        (fields.length = 0 ↔ r.children = [])) := by
  unfold outline at h
  cases tag with
  | value =>
    dsimp only at h
    split_ifs at h
  | struct => cases h
  | list =>
    dsimp only at h
    split_ifs at h
    unfold listOutline at h
    split at h
    · next r hr =>
      refine ⟨r, [], hr, ?_⟩
      unfold repeatedOutline at h
      split_ifs at h
      · cases h
        refine .inr ⟨rfl, ?_, by rw [List.length_map, List.length_eq_zero_iff]⟩
        rw [List.map_map]
        exact (List.map_id' r.children).symm ▸ List.Sublist.refl _
      · cases h
        exact .inl ⟨rfl, rfl⟩
    · cases h
  | map =>
    dsimp only at h
    unfold mapOutline at h
    split at h
    · next r cs hr =>
      cases h
      refine ⟨r, cs, hr, .inr ⟨rfl, map_fst_zip_sublist .., ?_⟩⟩
      rw [List.length_zip, ← List.length_eq_zero_iff]
      simp
    · cases h

/-- The fields that are kept are pruned. -/
theorem keptFields_prunes (hprunes : ∀ field ∈ fields, ∀ sel,
      selectors.lookup field.2 = some sel → ∀ k, sel field.1 = some k →
        Prunes (k.map Prod.fst) field.1) :
    List.SublistForall₂ Prunes ((keptFields selectors fields).map (RoseTree.map Prod.fst))
      (fields.map Prod.fst) := by
  induction fields with
  | nil => exact .nil
  | cons field fields ih =>
    have ih := ih fun f hf => hprunes f (List.mem_cons_of_mem _ hf)
    rw [← List.singleton_append, keptFields_append, keptFields_singleton, List.map_append,
      List.singleton_append, List.map_cons]
    cases hselector : selectors.lookup field.2 with
    | none => exact ih.cons_right
    | some sel =>
      cases hk : sel field.1 with
      | none =>
        rw [show (some sel >>= fun found => found field.1) = none from hk]
        exact ih.cons_right
      | some k =>
        rw [show (some sel >>= fun found => found field.1) = some k from hk]
        exact .cons (hprunes field (List.mem_cons_self ..) sel hselector k hk) ih

/-- The pruned children of an element may be some of its children only. -/
theorem sublistForall₂_trans {ks : List (RoseTree Place)} {cs cs' : List (RoseTree Place)}
    (h : List.SublistForall₂ Prunes ks cs) (hsub : cs.Sublist cs') :
    List.SublistForall₂ Prunes ks cs' := by
  obtain ⟨l, hl, hlcs⟩ := List.sublistForall₂_iff.1 h
  exact List.sublistForall₂_iff.2 ⟨l, hl, hlcs.trans hsub⟩

theorem prunes_node {ks : List Kept} {a : Place × ℕ} (ha : a.1 = u.label)
    (h : List.SublistForall₂ Prunes (ks.map (RoseTree.map Prod.fst)) u.children) :
    Prunes ((RoseTree.node a ks).map Prod.fst) u := by
  rw [map_node, ← u.node_eta, ha]
  exact .node _ h

theorem selectOutline_prunes (hprunes : ∀ v, ∀ n sel, selectors.lookup n = some sel →
      ∀ k, sel v = some k → Prunes (k.map Prod.fst) v)
    (hk : selectOutline selectors u (outline name tag u) = some k) :
    Prunes (k.map Prod.fst) u := by
  have hfields : ∀ fields : List (RoseTree Place × String),
      List.SublistForall₂ Prunes ((keptFields selectors fields).map (RoseTree.map Prod.fst))
        (fields.map Prod.fst) :=
    fun fields => keptFields_prunes fun field _ => hprunes field.1 field.2
  cases houtline : outline name tag u with
  | leaf =>
    rw [houtline] at hk
    cases hk
    exact prunes_node rfl .nil
  | pass n =>
    rw [houtline] at hk
    obtain ⟨sel, hselector, hk⟩ := Option.bind_eq_some_iff.1 hk
    exact hprunes u n sel hselector k hk
  | struct fields =>
    have hsub := outline_struct houtline
    rw [houtline, selectOutline] at hk
    split at hk
    · cases hk
    · cases hk
      exact prunes_node rfl (sublistForall₂_trans (hfields fields) hsub)
  | groups middle fields =>
    obtain ⟨r, cs, hchildren, hcases⟩ := outline_groups houtline
    rw [houtline] at hk
    rcases hcases with ⟨rfl, hr⟩ | ⟨rfl, hsub, -⟩
    · cases hk
      refine prunes_node rfl (hchildren ▸ sublistForall₂_trans (hfields fields) ?_)
      rw [hr]
      exact (List.nil_sublist cs).cons_cons r
    · cases hk
      have hr := prunes_node (a := (r.label, fields.length)) rfl
        (sublistForall₂_trans (hfields fields) hsub)
      exact prunes_node rfl (hchildren ▸ .cons hr .nil)

theorem lookup_map {α β : Type} (f : α → β) (l : List (String × α)) (n : String) :
    (l.map fun c => (c.1, f c.2)).lookup n = (l.lookup n).map f := by
  induction l with
  | nil => rfl
  | cons c l ih =>
    obtain ⟨n', a⟩ := c
    rw [List.map_cons, List.lookup_cons, List.lookup_cons, ih]
    cases n == n' <;> rfl

theorem mem_of_lookup {α : Type} {l : List (String × α)} {n : String} {a : α}
    (h : l.lookup n = some a) : (n, a) ∈ l := by
  obtain ⟨l1, l2, rfl, -⟩ := List.lookup_eq_some_iff.1 h
  exact List.mem_append_right _ (List.mem_cons_self ..)

theorem ColumnPruner.lookup_selects (cs : List (String × ColumnPruner)) (n : String) :
    (selects name cs).lookup n = (cs.lookup n).map (select name) := by
  rw [selects_eq]
  exact lookup_map (select name) cs n

/-- What a pruner selects is the file's tree with some subtrees dropped. -/
theorem ColumnPruner.select_prunes (pruner : ColumnPruner) {u : RoseTree Place} {k : Kept}
    (hk : pruner.select name u = some k) : Prunes (k.map Prod.fst) u := by
  induction pruner using ColumnPruner.induct generalizing u k with
  | mk tag cs ih =>
    refine selectOutline_prunes (fun v n sel hselector k hk => ?_) hk
    rw [lookup_selects, Option.map_eq_some_iff] at hselector
    obtain ⟨child, hchild, rfl⟩ := hselector
    exact ih _ (mem_of_lookup hchild) hk

end Prunes

/-! ### Numbers of children -/

/-- Every element has the number of children that is noted for it. -/
def Counted (k : Kept) : Prop := ∀ v ∈ k.subtrees, v.label.2 = v.children.length

/-- What a request finds under an element, and whether it finds all that the groups of lists and maps
under it are kept for. -/
structure Finding where
  hasMatch : Bool
  full : Bool

/-- What the request of a field finds. -/
def fieldFinding (children : List (String × (RoseTree Place → Finding)))
    (field : RoseTree Place × String) : Option Finding :=
  (children.lookup field.2).map fun found => found field.1

@[grind] def outlineFinding (children : List (String × (RoseTree Place → Finding))) (u : RoseTree Place) :
    Outline → Finding
  | .leaf => ⟨true, true⟩
  | .pass n => (fieldFinding children (u, n)).getD ⟨false, true⟩
  | .struct fields =>
    -- a field that is not requested, or has no match, is dropped
    ⟨fields.any fun f => (fieldFinding children f).any (·.hasMatch),
      fields.all fun f => (fieldFinding children f).all (·.full)⟩
  | .groups _ fields =>
    -- a group is kept, so that all of it has to have a match
    ⟨true, fields.all fun f => (fieldFinding children f).any fun finding =>
      finding.hasMatch && finding.full⟩

namespace ColumnPruner

mutual

def finding (name : SchemaElement → Except String String) :
    ColumnPruner → RoseTree Place → Finding
  | mk tag children => fun u => outlineFinding (findings name children) u (outline name tag u)

@[grind] def findings (name : SchemaElement → Except String String) :
    List (String × ColumnPruner) → List (String × (RoseTree Place → Finding))
  | [] => []
  | (childName, child) :: children => (childName, child.finding name) :: findings name children

end

end ColumnPruner

section Counted

variable {name : SchemaElement → Except String String} {selectors : List (String × Selector)}
  {fields : List (RoseTree Place × String)} {k : Kept}

theorem counted_node {a : Place × ℕ} {ks : List Kept} :
    Counted (.node a ks) ↔ a.2 = ks.length ∧ ∀ k ∈ ks, Counted k := by
  unfold Counted
  constructor
  · intro h
    exact ⟨h _ (self_mem_subtrees _), fun k hk v hv =>
      h v (mem_subtrees_node.2 (.inr ⟨k, hk, hv⟩))⟩
  · rintro ⟨hnode, hks⟩ v hv
    rcases mem_subtrees_node.1 hv with rfl | ⟨k, hk, hv⟩
    · exact hnode
    · exact hks k hk v hv

theorem mem_keptFields : k ∈ keptFields selectors fields ↔ ∃ field ∈ fields, ∃ sel,
    selectors.lookup field.2 = some sel ∧ sel field.1 = some k := by
  unfold keptFields
  rw [List.mem_filterMap]
  exact exists_congr fun field => and_congr_right fun _ => Option.bind_eq_some_iff

theorem mem_keptFields_selects {cs : List (String × ColumnPruner)} :
    k ∈ keptFields (ColumnPruner.selects name cs) fields ↔ ∃ field ∈ fields, ∃ q,
      cs.lookup field.2 = some q ∧ q.select name field.1 = some k := by
  rw [mem_keptFields]
  refine exists_congr fun field => and_congr_right fun _ => ?_
  rw [ColumnPruner.lookup_selects]
  cases cs.lookup field.2 <;> simp

theorem length_keptFields : (keptFields selectors fields).length = fields.length ↔
    ∀ field ∈ fields, ∃ sel, selectors.lookup field.2 = some sel ∧
      (sel field.1).isSome := by
  unfold keptFields
  rw [List.filterMap_length_eq_length]
  refine forall₂_congr fun field _ => ?_
  rw [Option.isSome_iff_exists]
  constructor
  · rintro ⟨k, hk⟩
    obtain ⟨sel, hselector, hk⟩ := Option.bind_eq_some_iff.1 hk
    exact ⟨sel, hselector, Option.isSome_iff_exists.2 ⟨k, hk⟩⟩
  · rintro ⟨sel, hselector, hsome⟩
    obtain ⟨k, hk⟩ := Option.isSome_iff_exists.1 hsome
    exact ⟨k, Option.bind_eq_some_iff.2 ⟨sel, hselector, hk⟩⟩

theorem ColumnPruner.lookup_findings (cs : List (String × ColumnPruner)) (n : String) :
    (findings name cs).lookup n = (cs.lookup n).map (finding name) := by
  have heq : findings name cs = cs.map fun c => (c.1, c.2.finding name) := by
    induction cs with
    | nil => rfl
    | cons c cs ih => rw [findings, ih, List.map_cons]
  rw [heq]
  exact lookup_map (finding name) cs n

theorem ColumnPruner.fieldFinding_eq (cs : List (String × ColumnPruner))
    (field : RoseTree Place × String) : fieldFinding (findings name cs) field =
      (cs.lookup field.2).map fun q => q.finding name field.1 := by
  rw [fieldFinding, lookup_findings, Option.map_map]
  rfl

/-- A request finds a match where it selects something, and all that it keeps groups for where every
element it selects has its number of children. -/
theorem ColumnPruner.finding_select (pruner : ColumnPruner) (u : RoseTree Place) :
    ((pruner.finding name u).hasMatch = true ↔ (pruner.select name u).isSome = true) ∧
      ((pruner.finding name u).full = true ↔ ∀ k ∈ pruner.select name u, Counted k) := by
  induction pruner using ColumnPruner.induct generalizing u with
  | mk tag cs ih =>
    have ih : ∀ n q, cs.lookup n = some q → ∀ v,
        ((q.finding name v).hasMatch = true ↔ (q.select name v).isSome = true) ∧
          ((q.finding name v).full = true ↔ ∀ k ∈ q.select name v, Counted k) :=
      fun n q hq v => ih (n, q) (mem_of_lookup hq) v
    rw [finding, select]
    dsimp only
    -- the fields that are kept are counted where the findings of the children are full
    have hfields : ∀ fields : List (RoseTree Place × String),
        (∀ k ∈ keptFields (selects name cs) fields, Counted k) ↔ ∀ field ∈ fields, ∀ q,
          cs.lookup field.2 = some q → (q.finding name field.1).full = true := by
      intro fields
      constructor
      · intro h field hfield q hq
        refine (ih _ q hq field.1).2.2 fun k hk => h k ?_
        exact mem_keptFields_selects.2 ⟨field, hfield, q, hq, hk⟩
      · intro h k hk
        obtain ⟨field, hfield, q, hq, hk⟩ := mem_keptFields_selects.1 hk
        exact (ih _ q hq field.1).2.1 (h field hfield q hq) k hk
    cases outline name tag u with
    | leaf =>
      refine ⟨⟨fun _ => rfl, fun _ => rfl⟩, ⟨fun _ k hk => ?_, fun _ => rfl⟩⟩
      cases hk
      exact counted_node.2 ⟨rfl, fun _ hk => absurd hk List.not_mem_nil⟩
    | pass n =>
      rw [outlineFinding, fieldFinding_eq, selectOutline, lookup_selects]
      cases hq : cs.lookup n with
      | none => simp
      | some q => exact ih n q hq u
    | struct fields =>
      rw [outlineFinding, List.any_eq_true, List.all_eq_true]
      have hfull : (∀ field ∈ fields, (fieldFinding (findings name cs) field).all (·.full)) ↔
          ∀ k ∈ keptFields (selects name cs) fields, Counted k := by
        rw [hfields]
        refine forall₂_congr fun field _ => ?_
        rw [fieldFinding_eq]
        cases cs.lookup field.2 <;> simp
      -- a struct is kept as soon as one of its fields is
      have hmatch : (∃ field ∈ fields, (fieldFinding (findings name cs) field).any
          (·.hasMatch)) ↔ keptFields (selects name cs) fields ≠ [] := by
        constructor
        · rintro ⟨field, hfield, hany⟩
          rw [fieldFinding_eq, Option.any_map, Option.any_eq_true] at hany
          obtain ⟨q, hq, hany⟩ := hany
          obtain ⟨k, hk⟩ := Option.isSome_iff_exists.1 ((ih _ q hq field.1).1.1 hany)
          exact List.ne_nil_of_mem (mem_keptFields_selects.2 ⟨field, hfield, q, hq, hk⟩)
        · intro hne
          obtain ⟨k, hk⟩ := List.exists_mem_of_ne_nil _ hne
          obtain ⟨field, hfield, q, hq, hk⟩ := mem_keptFields_selects.1 hk
          refine ⟨field, hfield, ?_⟩
          rw [fieldFinding_eq, hq]
          exact (ih _ q hq field.1).1.2 (by rw [hk]; rfl)
      rw [hfull, hmatch, selectOutline]
      cases keptFields (selects name cs) fields with
      | nil => simp
      | cons k ks =>
        refine ⟨⟨fun _ => rfl, fun _ => List.cons_ne_nil k ks⟩, ?_⟩
        simp only [Option.mem_some_iff, forall_eq', counted_node]
        exact (and_iff_right trivial).symm
    | groups middle fields =>
      -- a list or map keeps its groups always, so it is counted where no field of them is dropped
      have hfull : (∀ field ∈ fields, (fieldFinding (findings name cs) field).any
          fun finding => finding.hasMatch && finding.full) ↔
            fields.length = (keptFields (selects name cs) fields).length ∧
              ∀ k ∈ keptFields (selects name cs) fields, Counted k := by
        rw [eq_comm, length_keptFields, hfields, ← forall₂_and]
        refine forall₂_congr fun field _ => ?_
        rw [fieldFinding_eq, lookup_selects]
        cases hq : cs.lookup field.2 with
        | none => simp
        | some q => simp [(ih _ q hq field.1).1]
      rw [outlineFinding, List.all_eq_true, hfull]
      cases middle with
      | none =>
        refine ⟨⟨fun _ => rfl, fun _ => rfl⟩, ?_⟩
        simp only [selectOutline, Option.mem_some_iff, forall_eq', counted_node]
      | some middle =>
        refine ⟨⟨fun _ => rfl, fun _ => rfl⟩, ?_⟩
        simp only [selectOutline, Option.mem_some_iff, forall_eq', counted_node,
          List.forall_mem_singleton]
        exact (and_iff_right rfl).symm

end Counted

end SparkRapids.ParquetFooter
