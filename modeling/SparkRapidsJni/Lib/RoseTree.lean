import Mathlib

/-!
# Rose trees, depth first

A tree is listed depth first, each node with its number of children. A tree is pruned by dropping
subtrees (`Prunes`). With labels that are all different, a pruned tree is determined by its labels: it is
the tree restricted to them (`restrict_labels`).
-/

namespace SparkRapids

/-- A tree with a label at every node. -/
inductive RoseTree (α : Type*)
  | node (label : α) (children : List (RoseTree α))

namespace RoseTree

variable {α β : Type*}

def label : RoseTree α → α
  | node a _ => a

def children : RoseTree α → List (RoseTree α)
  | node _ cs => cs

/-- A property of all trees, from the one of the children. -/
@[elab_as_elim]
theorem induct {motive : RoseTree α → Prop}
    (node : ∀ a cs, (∀ c ∈ cs, motive c) → motive (.node a cs)) (t : RoseTree α) : motive t :=
  RoseTree.rec (motive_1 := motive) (motive_2 := fun cs => ∀ c ∈ cs, motive c) node
    (fun _ hc => absurd hc List.not_mem_nil)
    (fun _ _ hc hcs => List.forall_mem_cons.2 ⟨hc, hcs⟩) t

mutual

/-- The subtrees, depth first. -/
@[grind] def subtrees : RoseTree α → List (RoseTree α)
  | node a cs => node a cs :: subtreesAll cs

@[grind] def subtreesAll : List (RoseTree α) → List (RoseTree α)
  | [] => []
  | c :: cs => c.subtrees ++ subtreesAll cs

end

mutual

@[grind] def map (f : α → β) : RoseTree α → RoseTree β
  | node a cs => node (f a) (mapAll f cs)

@[grind] def mapAll (f : α → β) : List (RoseTree α) → List (RoseTree β)
  | [] => []
  | c :: cs => c.map f :: mapAll f cs

end

mutual

/-- The tree of the labels with a property, as far as the labels above have it too. -/
@[grind] def restrict (S : α → Prop) [DecidablePred S] : RoseTree α → List (RoseTree α)
  | node a cs => if S a then [node a (restrictAll S cs)] else []

@[grind] def restrictAll (S : α → Prop) [DecidablePred S] : List (RoseTree α) → List (RoseTree α)
  | [] => []
  | c :: cs => c.restrict S ++ restrictAll S cs

end

/-- The labels, depth first. -/
def labels (t : RoseTree α) : List α := t.subtrees.map label

/-- The labels with their numbers of children, depth first. -/
def depthFirst (t : RoseTree α) : List (α × ℕ) :=
  t.subtrees.map fun u => (u.label, u.children.length)

/-- A tree is another one with some subtrees dropped. -/
inductive Prunes : RoseTree α → RoseTree α → Prop
  | node (a : α) {ks cs : List (RoseTree α)} :
    List.SublistForall₂ Prunes ks cs → Prunes (.node a ks) (.node a cs)

variable {t u k : RoseTree α} {a : α} {cs : List (RoseTree α)}

theorem subtreesAll_eq (cs : List (RoseTree α)) : subtreesAll cs = cs.flatMap subtrees := by
  induction cs with
  | nil => rfl
  | cons c cs ih => rw [subtreesAll, ih, List.flatMap_cons]

theorem mapAll_eq (f : α → β) (cs : List (RoseTree α)) : mapAll f cs = cs.map (map f) := by
  induction cs with
  | nil => rfl
  | cons c cs ih => rw [mapAll, ih, List.map_cons]

theorem restrictAll_eq (S : α → Prop) [DecidablePred S] (cs : List (RoseTree α)) :
    restrictAll S cs = cs.flatMap (restrict S) := by
  induction cs with
  | nil => rfl
  | cons c cs ih => rw [restrictAll, ih, List.flatMap_cons]

theorem subtrees_node (a : α) (cs : List (RoseTree α)) :
    (node a cs).subtrees = node a cs :: cs.flatMap subtrees := by
  rw [subtrees, subtreesAll_eq]

theorem map_node (f : α → β) (a : α) (cs : List (RoseTree α)) :
    (node a cs).map f = node (f a) (cs.map (map f)) := by
  rw [map, mapAll_eq]

theorem restrict_node (S : α → Prop) [DecidablePred S] (a : α) (cs : List (RoseTree α)) :
    (node a cs).restrict S = if S a then [node a (cs.flatMap (restrict S))] else [] := by
  rw [restrict, restrictAll_eq]

theorem labels_node (a : α) (cs : List (RoseTree α)) :
    (node a cs).labels = a :: cs.flatMap labels := by
  rw [labels, subtrees_node, List.map_cons, List.map_flatMap]
  rfl

theorem node_eta (t : RoseTree α) : node t.label t.children = t := by
  cases t
  rfl

theorem self_mem_subtrees (t : RoseTree α) : t ∈ t.subtrees := by
  obtain ⟨a, cs⟩ := t
  rw [subtrees_node]
  exact List.mem_cons_self ..

theorem mem_subtrees_node : u ∈ (node a cs).subtrees ↔ u = node a cs ∨ ∃ c ∈ cs, u ∈ c.subtrees := by
  rw [subtrees_node, List.mem_cons, List.mem_flatMap]

theorem mem_labels_node {x : α} : x ∈ (node a cs).labels ↔ x = a ∨ ∃ c ∈ cs, x ∈ c.labels := by
  rw [labels_node, List.mem_cons, List.mem_flatMap]

theorem label_mem_labels (t : RoseTree α) : t.label ∈ t.labels :=
  List.mem_map_of_mem (self_mem_subtrees t)

/-- Subtrees of subtrees are subtrees. -/
theorem subtrees_subset (h : u ∈ t.subtrees) : u.subtrees ⊆ t.subtrees := by
  induction t using induct with
  | node a cs ih =>
    rcases mem_subtrees_node.1 h with rfl | ⟨c, hc, hu⟩
    · exact List.Subset.refl _
    · exact fun v hv => mem_subtrees_node.2 (.inr ⟨c, hc, ih c hc hu hv⟩)

theorem labels_sublist (h : u ∈ t.subtrees) : u.labels.Sublist t.labels := by
  induction t using induct with
  | node a cs ih =>
    rcases mem_subtrees_node.1 h with rfl | ⟨c, hc, hu⟩
    · exact List.Sublist.refl _
    · rw [labels_node]
      refine ((ih c hc hu).trans ?_).cons a
      rw [List.flatMap_def]
      exact List.sublist_flatten_of_mem (List.mem_map_of_mem hc)

theorem child_mem_subtrees {c : RoseTree α} (h : u ∈ t.subtrees) (hc : c ∈ u.children) :
    c ∈ t.subtrees := by
  refine subtrees_subset h ?_
  obtain ⟨a, cs⟩ := u
  exact mem_subtrees_node.2 (.inr ⟨c, hc, self_mem_subtrees c⟩)

theorem subtrees_map (f : α → β) (t : RoseTree α) : (t.map f).subtrees = t.subtrees.map (map f) := by
  induction t using induct with
  | node a cs ih =>
    rw [map_node, subtrees_node, subtrees_node, List.map_cons, map_node, List.map_flatMap,
      List.flatMap_map]
    congr 1
    exact List.flatMap_congr ih

theorem label_map (f : α → β) (t : RoseTree α) : (t.map f).label = f t.label := by
  obtain ⟨a, cs⟩ := t
  rw [map_node]
  rfl

theorem children_map (f : α → β) (t : RoseTree α) : (t.map f).children = t.children.map (map f) := by
  obtain ⟨a, cs⟩ := t
  rw [map_node]
  rfl

theorem labels_map (f : α → β) (t : RoseTree α) : (t.map f).labels = t.labels.map f := by
  rw [labels, labels, subtrees_map, List.map_map, List.map_map]
  exact List.map_congr_left fun u _ => label_map f u

theorem depthFirst_map (f : α → β) (t : RoseTree α) :
    (t.map f).depthFirst = t.subtrees.map fun u => (f u.label, u.children.length) := by
  rw [depthFirst, subtrees_map, List.map_map]
  refine List.map_congr_left fun u _ => ?_
  rw [Function.comp_apply, label_map, children_map, List.length_map]

theorem depthFirst_node (a : α) (cs : List (RoseTree α)) :
    (node a cs).depthFirst = (a, cs.length) :: cs.flatMap depthFirst := by
  rw [depthFirst, subtrees_node, List.map_cons, List.map_flatMap]
  rfl

/-- The nodes below trees are the ones that are announced. -/
theorem length_flatMap_depthFirst (ts : List (RoseTree α)) :
    (ts.flatMap depthFirst).length = ts.length + ((ts.flatMap depthFirst).map Prod.snd).sum := by
  have hall : ∀ ts : List (RoseTree α),
      (∀ t ∈ ts, t.depthFirst.length = 1 + (t.depthFirst.map Prod.snd).sum) →
      (ts.flatMap depthFirst).length = ts.length + ((ts.flatMap depthFirst).map Prod.snd).sum := by
    intro ts hts
    induction ts with
    | nil => rfl
    | cons t ts ih =>
      obtain ⟨ht, hts⟩ := List.forall_mem_cons.1 hts
      rw [List.flatMap_cons, List.length_append, ht, ih hts, List.map_append, List.sum_append,
        List.length_cons]
      ring
  have htree : ∀ t : RoseTree α, t.depthFirst.length = 1 + (t.depthFirst.map Prod.snd).sum := by
    intro t
    induction t using induct with
    | node a cs ih =>
      rw [depthFirst_node, List.length_cons, hall cs ih, List.map_cons, List.sum_cons, Nat.add_comm]
  exact hall ts fun t _ => htree t

/-- Every list of labels with numbers of children begins with the trees asked for, or is too short for
them: however many of its entries are read, more are announced. -/
theorem exists_forest_or_short (n : ℕ) (l : List (α × ℕ)) :
    (∃ (ts : List (RoseTree α)) (rest : List (α × ℕ)),
      ts.length = n ∧ l = ts.flatMap depthFirst ++ rest) ∨
    ∀ k ≤ l.length, k < n + ((l.take k).map Prod.snd).sum := by
  induction l generalizing n with
  | nil =>
    cases n with
    | zero => exact .inl ⟨[], [], rfl, rfl⟩
    | succ n =>
      right
      intro k hk
      rw [Nat.le_zero.1 hk]
      exact Nat.lt_add_right _ n.succ_pos
  | cons entry l ih =>
    obtain ⟨a, c⟩ := entry
    cases n with
    | zero => exact .inl ⟨[], _, rfl, rfl⟩
    | succ n =>
      -- what follows the first entry is its children, and then the other trees
      rcases ih (c + n) with ⟨ts, rest, hlen, hl⟩ | hshort
      · left
        refine ⟨node a (ts.take c) :: ts.drop c, rest, ?_, ?_⟩
        · rw [List.length_cons, List.length_drop, hlen, Nat.add_sub_cancel_left]
        · have hchildren : (ts.take c).length = c := by
            rw [List.length_take, hlen]
            exact Nat.min_eq_left (Nat.le_add_right c n)
          rw [List.flatMap_cons, depthFirst_node, hchildren, List.cons_append, List.cons_append,
            ← List.flatMap_append, List.take_append_drop, hl]
      · right
        intro k hk
        cases k with
        | zero => exact Nat.lt_add_right _ n.succ_pos
        | succ k =>
          have := hshort k (Nat.le_of_succ_le_succ hk)
          rw [List.take_succ_cons, List.map_cons, List.sum_cons]
          omega

/-- Different trees of a forest have no label in common. -/
theorem eq_of_mem_labels {f : β → RoseTree α} {l : List β} {x y : β}
    (hnodup : ((l.map f).flatMap labels).Nodup) (hx : x ∈ l) (hy : y ∈ l) {a : α}
    (hax : a ∈ (f x).labels) (hay : a ∈ (f y).labels) : x = y := by
  have hpairwise := (List.nodup_flatMap.1 hnodup).2
  rw [List.pairwise_map] at hpairwise
  by_contra hne
  have : Std.Symm fun x y : β => (Function.onFun List.Disjoint labels) (f x) (f y) :=
    ⟨fun _ _ h => List.Disjoint.symm h⟩
  exact hpairwise.forall hx hy hne hax hay

/-! ### Pruned trees -/

theorem Prunes.label_eq (h : Prunes k t) : k.label = t.label := by
  cases h
  rfl

theorem sublist_flatMap {R : RoseTree α → RoseTree α → Prop} {ks cs : List (RoseTree α)}
    (h : List.SublistForall₂ R ks cs)
    (hR : ∀ c ∈ cs, ∀ k, R k c → k.labels.Sublist c.labels) :
    (ks.flatMap labels).Sublist (cs.flatMap labels) := by
  induction h with
  | nil => exact List.nil_sublist _
  | cons hk _ ih =>
    rw [List.flatMap_cons, List.flatMap_cons]
    exact (hR _ (List.mem_cons_self ..) _ hk).append
      (ih fun c hc => hR c (List.mem_cons_of_mem _ hc))
  | cons_right _ ih =>
    rw [List.flatMap_cons]
    exact (ih fun c hc => hR c (List.mem_cons_of_mem _ hc)).trans (List.sublist_append_right ..)

theorem Prunes.labels_sublist (h : Prunes k t) : k.labels.Sublist t.labels := by
  induction t using induct generalizing k with
  | node a cs ih =>
    obtain ⟨_, hks⟩ := h
    rw [labels_node, labels_node]
    exact (sublist_flatMap hks fun c hc _ hk => ih c hc hk).cons_cons a

theorem restrict_congr {S S' : α → Prop} [DecidablePred S] [DecidablePred S']
    (h : ∀ a ∈ t.labels, S a ↔ S' a) : t.restrict S = t.restrict S' := by
  induction t using induct with
  | node a cs ih =>
    have hchildren : cs.flatMap (restrict S) = cs.flatMap (restrict S') :=
      List.flatMap_congr fun c hc =>
        ih c hc fun x hx => h x (mem_labels_node.2 (.inr ⟨c, hc, hx⟩))
    rw [restrict_node, restrict_node, hchildren]
    exact if_congr (h a (label_mem_labels (node a cs))) rfl rfl

theorem restrict_of_label {S : α → Prop} [DecidablePred S] (h : ¬S t.label) : t.restrict S = [] := by
  obtain ⟨a, cs⟩ := t
  rw [restrict_node]
  exact if_neg h

theorem flatMap_restrict_labels [DecidableEq α] {ks cs : List (RoseTree α)}
    (hnodup : (cs.flatMap labels).Nodup) (h : List.SublistForall₂ Prunes ks cs)
    (hcs : ∀ c ∈ cs, ∀ k, Prunes k c → c.labels.Nodup → c.restrict (· ∈ k.labels) = [k]) :
    cs.flatMap (restrict (· ∈ ks.flatMap labels)) = ks := by
  induction h with
  | nil => exact List.flatMap_eq_nil_iff.2 fun c _ => restrict_of_label List.not_mem_nil
  | @cons k c ks cs hk hks ih =>
    rw [List.flatMap_cons, List.nodup_append] at hnodup
    obtain ⟨hc, hnodup, hdisj⟩ := hnodup
    have hsub := sublist_flatMap hks fun _ _ _ h => h.labels_sublist
    have hfirst : c.restrict (· ∈ (k :: ks).flatMap labels) = [k] := by
      rw [← hcs c (List.mem_cons_self ..) k hk hc]
      refine restrict_congr fun x hx => ?_
      rw [List.flatMap_cons, List.mem_append, or_iff_left]
      exact fun hx' => hdisj x hx x (hsub.subset hx') rfl
    have hrest : cs.flatMap (restrict (· ∈ (k :: ks).flatMap labels)) = ks := by
      rw [← ih hnodup fun c hc => hcs c (List.mem_cons_of_mem _ hc)]
      refine List.flatMap_congr fun c' hc' => restrict_congr fun x hx => ?_
      rw [ih hnodup fun c hc => hcs c (List.mem_cons_of_mem _ hc), List.flatMap_cons,
        List.mem_append, or_iff_right]
      exact fun hx' =>
        hdisj x (hk.labels_sublist.subset hx') x (List.mem_flatMap.2 ⟨c', hc', hx⟩) rfl
    rw [List.flatMap_cons, hfirst, hrest, List.singleton_append]
  | @cons_right c ks cs hks ih =>
    rw [List.flatMap_cons, List.nodup_append] at hnodup
    obtain ⟨-, hnodup, hdisj⟩ := hnodup
    have hsub := sublist_flatMap hks fun _ _ _ h => h.labels_sublist
    -- a dropped tree has no label of a kept one
    have hnot : c.label ∉ ks.flatMap labels := fun hlabel =>
      hdisj c.label (label_mem_labels c) _ (hsub.subset hlabel) rfl
    rw [List.flatMap_cons, restrict_of_label hnot, List.nil_append]
    exact ih hnodup fun c hc => hcs c (List.mem_cons_of_mem _ hc)

/-- A pruned tree is the tree restricted to its labels. -/
theorem restrict_labels [DecidableEq α] (hnodup : t.labels.Nodup) (h : Prunes k t) :
    t.restrict (· ∈ k.labels) = [k] := by
  induction t using induct generalizing k with
  | node a cs ih =>
    obtain ⟨_, hks⟩ := h
    rename_i ks
    rw [labels_node, List.nodup_cons] at hnodup
    obtain ⟨ha, hnodup⟩ := hnodup
    -- the label of the node is none of the children's
    have hcongr : cs.flatMap (restrict (· ∈ (node a ks).labels)) =
        cs.flatMap (restrict (· ∈ ks.flatMap labels)) := by
      refine List.flatMap_congr fun c hc => restrict_congr fun x hx => ?_
      rw [labels_node, List.mem_cons, or_iff_right]
      rintro rfl
      exact ha (List.mem_flatMap.2 ⟨c, hc, hx⟩)
    rw [restrict_node, hcongr,
      flatMap_restrict_labels hnodup hks fun c hc _ hk hc' => ih c hc hc' hk]
    exact if_pos (label_mem_labels (node a ks))

end RoseTree

end SparkRapids
