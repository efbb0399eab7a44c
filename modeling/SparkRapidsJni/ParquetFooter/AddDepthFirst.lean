import SparkRapidsJni.ParquetFooter.ColumnPruner

/-!
# The requested columns, read depth first

The requested columns come as three arrays, a tree listed depth first, and `add_depth_first` rebuilds the
tree with two stacks: pointers to the nodes whose children are being read, and how many children each of
them still has. A pointer is the names on the way from the root: the nodes of a `std::map` stay where they
are. The value is `none` where the back of an empty stack is used.

How far the stacks get depends on the numbers of children alone. What is `pending` on the stacks, less
one for each open node below the top, is the number of entries that are still announced; an entry takes
one and announces its children (`addEntry_spec`), and the stacks are empty as soon as nothing is pending.
The code does not look for that before it reads the next entry: entries that are left over go through
`back()` of an empty vector.
-/

namespace SparkRapids.ParquetFooter

open RoseTree

/-- What the arrays `names`, `num_children` and `tags` hold at one index. -/
structure Entry where
  name : String
  numChildren : ℤ
  tag : Tag
  deriving DecidableEq, Repr

/-- A node of the tree, as the names on the way to it. -/
abbrev Pointer := List String

/-- The first child with the name is changed. -/
@[grind] def modifyChild (name : String) (f : ColumnPruner → ColumnPruner) :
    List (String × ColumnPruner) → List (String × ColumnPruner)
  | [] => []
  | (childName, child) :: children =>
    if childName = name then (childName, f child) :: children
    else (childName, child) :: modifyChild name f children

/-- `std::map::try_emplace` with a pruner of the tag. -/
def tryEmplace (name : String) (tag : Tag) (children : List (String × ColumnPruner)) :
    List (String × ColumnPruner) :=
  if (children.lookup name).isSome then children else children ++ [(name, .mk tag [])]

namespace ColumnPruner

def children : ColumnPruner → List (String × ColumnPruner)
  | mk _ cs => cs

/-- The children of a node are changed. -/
@[grind] def modifyChildren (f : List (String × ColumnPruner) → List (String × ColumnPruner)) :
    Pointer → ColumnPruner → ColumnPruner
  | [], mk tag cs => mk tag (f cs)
  | name :: path, mk tag cs => mk tag (modifyChild name (modifyChildren f path) cs)

/-- The children of a node. -/
@[grind] def childrenAt : Pointer → ColumnPruner → Option (List (String × ColumnPruner))
  | [], pruner => some pruner.children
  | name :: path, pruner => (pruner.children.lookup name).bind (childrenAt path)

end ColumnPruner

/-- The tree so far and the two stacks, the back of each first. -/
structure Building where
  root : ColumnPruner
  treeStack : List Pointer
  numChildrenStack : List ℤ

/-- Back up the stacks, to a node that has more children: the `while` loop. -/
@[grind] def goBackUp : List Pointer → List ℤ → Option (List Pointer × List ℤ)
  | back :: treeStack, parentChildren :: numChildrenStack =>
    let parentChildrenLeft := parentChildren - 1
    if parentChildrenLeft > 0 then
      some (back :: treeStack, parentChildrenLeft :: numChildrenStack)
    else if treeStack = [] then some (treeStack, numChildrenStack)
    else goBackUp treeStack numChildrenStack
  | _, _ => none

/-- One round of the `for` loop. -/
def addEntry (s : Building) (e : Entry) : Option Building :=
  match s.treeStack with
  | [] => none
  | back :: _ =>
    let root := s.root.modifyChildren (tryEmplace e.name e.tag) back
    if e.numChildren > 0 then
      some ⟨root, (back ++ [e.name]) :: s.treeStack, e.numChildren :: s.numChildrenStack⟩
    else
      (goBackUp s.treeStack s.numChildrenStack).map fun left => ⟨root, left.1, left.2⟩

/-- The `for` loop. -/
def addEntries (s : Building) (entries : List Entry) : Option Building := entries.foldlM addEntry s

/-- `add_depth_first` -/
def ColumnPruner.addDepthFirst (this : ColumnPruner) (entries : List Entry)
    (parentNumChildren : ℤ) : Option (Except String ColumnPruner) :=
  if parentNumChildren = 0 then some (.ok this)
  else
    (addEntries ⟨this, [[]], [parentNumChildren]⟩ entries).map fun s =>
      if s.treeStack.length ≠ 0 ∨ s.numChildrenStack.length ≠ 0 then
        .error "DIDN'T CONSUME EVERYTHING..."
      else .ok s.root

/-- The constructor of a `column_pruner` from the arrays. -/
def ColumnPruner.ofDepthFirst (entries : List Entry) (parentNumChildren : ℤ) :
    Option (Except String ColumnPruner) :=
  (ColumnPruner.mk .struct []).addDepthFirst entries parentNumChildren

/-! ### The tree of a flattening -/

/-- The entries of trees, depth first. -/
def flattening (forest : List (RoseTree (String × Tag))) : List Entry :=
  (forest.flatMap depthFirst).map fun node => ⟨node.1.1, node.2, node.1.2⟩

mutual

/-- The pruner of a tree, under its name. -/
def prunerOf : RoseTree (String × Tag) → String × ColumnPruner
  | .node label cs => (label.1, .mk label.2 (prunersOf cs))

@[grind] def prunersOf : List (RoseTree (String × Tag)) → List (String × ColumnPruner)
  | [] => []
  | c :: cs => prunerOf c :: prunersOf cs

end

/-- No two siblings have the same name. -/
def DistinctNames (forest : List (RoseTree (String × Tag))) : Prop :=
  (forest.map (·.label.1)).Nodup ∧
    ∀ t ∈ forest, ∀ u ∈ t.subtrees, (u.children.map (·.label.1)).Nodup

instance (forest : List (RoseTree (String × Tag))) : Decidable (DistinctNames forest) :=
  inferInstanceAs (Decidable (_ ∧ _))

/-- The arrays are decoded to the trees they are the flattening of, or rejected where they are the
flattening of none; and no empty stack is used. -/
structure DecodesExactly (entries : List Entry) (parentNumChildren : ℤ) : Prop where
  decoded : ∀ forest : List (RoseTree (String × Tag)), forest.length = parentNumChildren →
    flattening forest = entries → DistinctNames forest →
    ColumnPruner.ofDepthFirst entries parentNumChildren =
      some (.ok (.mk .struct (prunersOf forest)))
  rejected : (∀ forest : List (RoseTree (String × Tag)), forest.length = parentNumChildren →
    flattening forest ≠ entries) →
    ColumnPruner.ofDepthFirst entries parentNumChildren =
      some (.error "DIDN'T CONSUME EVERYTHING...")
  accesses : ColumnPruner.ofDepthFirst entries parentNumChildren ≠ none

/-- The children that entries announce. -/
def announced (entries : List Entry) : ℤ := (entries.map fun e => max e.numChildren 0).sum

/-- The entries are as many as are announced, the ones of the root included. -/
def Complete (entries : List Entry) (parentNumChildren : ℤ) : Prop :=
  (entries.length : ℤ) = parentNumChildren + announced entries

/-! ### The stacks -/

/-- The entries still announced: each open node but the last one waits for the rest of its children
after the one that is open. -/
@[grind] def pending : List ℤ → ℤ
  | [] => 0
  | parentChildren :: numChildrenStack => parentChildren + (numChildrenStack.map (· - 1)).sum

/-- The two stacks have the same height, and every node on them has children left. -/
structure Balanced (treeStack : List Pointer) (numChildrenStack : List ℤ) : Prop where
  length_eq : treeStack.length = numChildrenStack.length
  pos : ∀ n ∈ numChildrenStack, 0 < n

section Stacks

variable {trees : List Pointer} {counts : List ℤ} {s : Building} {e : Entry}

theorem pending_eq_zero (hpos : ∀ n ∈ counts, 0 < n) :
    pending counts = 0 ↔ counts = [] := by
  cases counts with
  | nil => exact iff_of_true rfl rfl
  | cons n ns =>
    have hn := hpos n (List.mem_cons_self ..)
    have hsum : 0 ≤ (ns.map (· - 1)).sum := by
      apply List.sum_nonneg
      intro m hm
      obtain ⟨n', hn', rfl⟩ := List.mem_map.1 hm
      exact Int.sub_nonneg.2 (hpos n' (List.mem_cons_of_mem _ hn'))
    exact iff_of_false (add_pos_of_pos_of_nonneg hn hsum).ne' nofun

/-- Going back up takes one entry from what is pending. -/
theorem goBackUp_spec (h : Balanced trees counts) (hne : counts ≠ []) :
    ∃ left, goBackUp trees counts = some left ∧ Balanced left.1 left.2 ∧
      pending left.2 = pending counts - 1 := by
  induction counts generalizing trees with
  | nil => exact absurd rfl hne
  | cons n ns ih =>
    obtain ⟨hlen, hpos⟩ := h
    obtain ⟨hn, hns⟩ := List.forall_mem_cons.1 hpos
    obtain ⟨back, trees, rfl⟩ := List.exists_cons_of_length_eq_add_one hlen
    rw [List.length_cons, List.length_cons, Nat.add_right_cancel_iff] at hlen
    rw [goBackUp]
    by_cases hleft : n - 1 > 0
    · rw [if_pos hleft]
      refine ⟨_, rfl, ⟨congrArg (· + 1) hlen, List.forall_mem_cons.2 ⟨hleft, hns⟩⟩, ?_⟩
      rw [pending, pending]
      ring
    · rw [if_neg hleft]
      have hone : n = 1 := by omega
      by_cases hbottom : trees = []
      · subst hbottom
        have hnil := List.length_eq_zero_iff.1 hlen.symm
        subst hnil
        rw [if_pos rfl]
        refine ⟨_, rfl, ⟨rfl, nofun⟩, ?_⟩
        rw [hone]
        rfl
      · rw [if_neg hbottom]
        have hns' : ns ≠ [] := by
          rintro rfl
          exact hbottom (List.length_eq_zero_iff.1 hlen)
        obtain ⟨left, hleft, hbalanced, hpending⟩ := ih ⟨hlen, hns⟩ hns'
        refine ⟨left, hleft, hbalanced, ?_⟩
        obtain ⟨m, ms, rfl⟩ := List.exists_cons_of_ne_nil hns'
        rw [hpending, hone, pending, pending, List.map_cons, List.sum_cons]
        ring

/-- An entry takes one from what is pending, and announces its children. -/
theorem addEntry_spec (h : Balanced s.treeStack s.numChildrenStack) (hne : s.treeStack ≠ []) :
    ∃ s', addEntry s e = some s' ∧ Balanced s'.treeStack s'.numChildrenStack ∧
      pending s'.numChildrenStack = pending s.numChildrenStack - 1 + max e.numChildren 0 := by
  obtain ⟨root, trees, counts⟩ := s
  obtain ⟨back, trees, rfl⟩ := List.exists_cons_of_ne_nil hne
  have hne' : counts ≠ [] := by
    rintro rfl
    exact absurd h.length_eq (Nat.succ_ne_zero _)
  rw [addEntry]
  dsimp only
  by_cases hchildren : e.numChildren > 0
  · rw [if_pos hchildren]
    refine ⟨_, rfl, ⟨congrArg (· + 1) h.length_eq, List.forall_mem_cons.2 ⟨hchildren, h.pos⟩⟩, ?_⟩
    obtain ⟨n, ns, rfl⟩ := List.exists_cons_of_ne_nil hne'
    rw [pending, pending, List.map_cons, List.sum_cons, max_eq_left hchildren.le]
    ring
  · rw [if_neg hchildren]
    obtain ⟨left, hleft, hbalanced, hpending⟩ := goBackUp_spec h hne'
    refine ⟨_, congrArg (Option.map _) hleft, hbalanced, ?_⟩
    rw [max_eq_right (not_lt.1 hchildren), add_zero]
    exact hpending

/-- Reading entries fails exactly where nothing is pending before one of them, and otherwise takes away
the entries and adds what they announce. -/
theorem addEntries_spec (entries : List Entry) (h : Balanced s.treeStack s.numChildrenStack) :
    (addEntries s entries = none ∧ ∃ k < entries.length,
      (k : ℤ) = pending s.numChildrenStack + announced (entries.take k)) ∨
    ((∀ k < entries.length, (k : ℤ) ≠ pending s.numChildrenStack + announced (entries.take k)) ∧
      ∃ s', addEntries s entries = some s' ∧ Balanced s'.treeStack s'.numChildrenStack ∧
        pending s'.numChildrenStack =
          pending s.numChildrenStack + announced entries - entries.length) := by
  induction entries generalizing s with
  | nil =>
    right
    refine ⟨nofun, s, rfl, h, ?_⟩
    rw [announced, List.map_nil, List.sum_nil, List.length_nil, Nat.cast_zero, add_zero, sub_zero]
  | cons e entries ih =>
    by_cases hempty : s.treeStack = []
    · left
      have hstack : s.numChildrenStack = [] := by
        rw [← List.length_eq_zero_iff, ← h.length_eq, hempty, List.length_nil]
      refine ⟨?_, 0, Nat.succ_pos _, ?_⟩
      · rw [addEntries, List.foldlM_cons, addEntry, hempty]
        rfl
      · rw [hstack]
        rfl
    · obtain ⟨s', hs', hbalanced, hpending⟩ := addEntry_spec (e := e) h hempty
      have hrun : addEntries s (e :: entries) = addEntries s' entries := by
        rw [addEntries, List.foldlM_cons, hs']
        rfl
      -- what is pending before an entry of the rest
      have hcount : ∀ l, pending s'.numChildrenStack + announced l =
          pending s.numChildrenStack + announced (e :: l) - 1 := by
        intro l
        rw [hpending, announced, announced, List.map_cons, List.sum_cons]
        ring
      rw [hrun]
      rcases ih hbalanced with ⟨hnone, k, hk, hkpending⟩ | ⟨hbefore, s'', hs'', hbalanced', hend⟩
      · left
        refine ⟨hnone, k + 1, Nat.succ_lt_succ hk, ?_⟩
        rw [hcount] at hkpending
        rw [List.take_succ_cons, Nat.cast_succ]
        omega
      · right
        refine ⟨?_, s'', hs'', hbalanced', ?_⟩
        · intro k hk
          cases k with
          | zero =>
            have hpos : pending s.numChildrenStack ≠ 0 := by
              intro hzero
              rw [pending_eq_zero h.pos] at hzero
              apply hempty
              rw [← List.length_eq_zero_iff, h.length_eq, hzero, List.length_nil]
            rw [List.take_zero, announced, List.map_nil, List.sum_nil, add_zero]
            exact hpos.symm
          | succ k =>
            have hk' := hbefore k (Nat.lt_of_succ_lt_succ hk)
            rw [hcount] at hk'
            rw [List.take_succ_cons, Nat.cast_succ]
            omega
        · rw [hend, hcount, List.length_cons, Nat.cast_succ]
          ring

end Stacks

/-! ### The tree -/

section Tree

variable {name : String} {f g : ColumnPruner → ColumnPruner} {cs : List (String × ColumnPruner)}

theorem lookup_modifyChild : (modifyChild name f cs).lookup name = (cs.lookup name).map f := by
  induction cs with
  | nil => rfl
  | cons c cs ih =>
    obtain ⟨childName, child⟩ := c
    rw [modifyChild]
    by_cases hname : childName = name
    · rw [if_pos hname, hname, List.lookup_cons_self, List.lookup_cons_self, Option.map_some]
    · rw [if_neg hname, List.lookup_cons, List.lookup_cons, ih]
      rw [show (name == childName) = false from beq_false_of_ne (Ne.symm hname)]

theorem modifyChild_congr (h : ∀ c, cs.lookup name = some c → f c = g c) :
    modifyChild name f cs = modifyChild name g cs := by
  induction cs with
  | nil => rfl
  | cons c cs ih =>
    obtain ⟨childName, child⟩ := c
    rw [modifyChild, modifyChild]
    by_cases hname : childName = name
    · rw [if_pos hname, if_pos hname]
      rw [hname, List.lookup_cons_self] at h
      rw [h child rfl]
    · rw [if_neg hname, if_neg hname]
      rw [List.lookup_cons, show (name == childName) = false from
        beq_false_of_ne (Ne.symm hname)] at h
      rw [ih h]

theorem modifyChild_modifyChild :
    modifyChild name g (modifyChild name f cs) = modifyChild name (g ∘ f) cs := by
  induction cs with
  | nil => rfl
  | cons c cs ih =>
    obtain ⟨childName, child⟩ := c
    rw [modifyChild, modifyChild]
    by_cases hname : childName = name
    · rw [if_pos hname, if_pos hname, modifyChild, if_pos hname]
      rfl
    · rw [if_neg hname, if_neg hname, modifyChild, if_neg hname, ih]

/-- A child with a new name, changed. -/
theorem modifyChild_append (h : cs.lookup name = none) (c : ColumnPruner) :
    modifyChild name f (cs ++ [(name, c)]) = cs ++ [(name, f c)] := by
  induction cs with
  | nil => exact if_pos rfl
  | cons d cs ih =>
    obtain ⟨childName, child⟩ := d
    by_cases hname : childName = name
    · rw [hname, List.lookup_cons_self] at h
      exact absurd h (Option.some_ne_none _)
    · rw [List.lookup_cons, show (name == childName) = false from
        beq_false_of_ne (Ne.symm hname)] at h
      rw [List.cons_append, modifyChild, if_neg hname, ih h, List.cons_append]

namespace ColumnPruner

variable {path : Pointer} {root : ColumnPruner}
  {F G : List (String × ColumnPruner) → List (String × ColumnPruner)}

theorem modifyChildren_modifyChildren :
    modifyChildren G path (modifyChildren F path root) = modifyChildren (G ∘ F) path root := by
  induction path generalizing root with
  | nil => cases root; rfl
  | cons name path ih =>
    cases root
    rw [modifyChildren, modifyChildren, modifyChild_modifyChild, modifyChildren]
    congr 2
    exact funext fun _ => ih

theorem modifyChildren_append :
    modifyChildren F (path ++ [name]) root =
      modifyChildren (modifyChild name (modifyChildren F [])) path root := by
  induction path generalizing root with
  | nil => cases root; rfl
  | cons name' path ih =>
    cases root
    rw [List.cons_append, modifyChildren, modifyChildren]
    congr 2
    exact funext fun _ => ih

theorem modifyChildren_congr (hat : childrenAt path root = some cs) (h : F cs = G cs) :
    modifyChildren F path root = modifyChildren G path root := by
  induction path generalizing root with
  | nil =>
    cases root
    cases hat
    exact congrArg _ h
  | cons name path ih =>
    cases root
    rw [modifyChildren, modifyChildren]
    congr 1
    apply modifyChild_congr
    intro c hc
    rw [childrenAt, children, hc] at hat
    exact ih hat

theorem childrenAt_modifyChildren (hat : childrenAt path root = some cs) :
    childrenAt path (modifyChildren F path root) = some (F cs) := by
  induction path generalizing root with
  | nil =>
    cases root
    cases hat
    rfl
  | cons name path ih =>
    cases root
    rw [childrenAt, children, Option.bind_eq_some_iff] at hat
    obtain ⟨c, hc, hat⟩ := hat
    rw [modifyChildren, childrenAt, children, lookup_modifyChild, hc, Option.map_some,
      Option.bind_some]
    exact ih hat

theorem childrenAt_append : childrenAt (path ++ [name]) root =
    (childrenAt path root).bind fun cs => (cs.lookup name).map children := by
  induction path generalizing root with
  | nil =>
    rw [List.nil_append, childrenAt, childrenAt, Option.bind_some]
    cases root.children.lookup name <;> rfl
  | cons name' path ih =>
    rw [List.cons_append, childrenAt, childrenAt, Option.bind_assoc]
    congr 1
    exact funext fun _ => ih

end ColumnPruner

open ColumnPruner

theorem prunerOf_fst (t : RoseTree (String × Tag)) : (prunerOf t).1 = t.label.1 := by
  cases t
  rfl

theorem flattening_cons (t : RoseTree (String × Tag)) (forest : List (RoseTree (String × Tag))) :
    flattening (t :: forest) = flattening [t] ++ flattening forest := by
  rw [flattening, flattening, flattening, List.flatMap_cons, List.flatMap_singleton, List.map_append]

theorem flattening_node (label : String × Tag) (ts : List (RoseTree (String × Tag))) :
    flattening [.node label ts] = ⟨label.1, ts.length, label.2⟩ :: flattening ts := by
  rw [flattening, List.flatMap_singleton, depthFirst_node, List.map_cons]
  rfl

theorem addEntries_append (s : Building) (entries entries' : List Entry) :
    addEntries s (entries ++ entries') = (addEntries s entries).bind (addEntries · entries') := by
  rw [addEntries, List.foldlM_append]
  rfl

/-- Up the stacks after the last child of a node. -/
def popBack (treeStack : List Pointer) (numChildrenStack : List ℤ) :
    Option (List Pointer × List ℤ) :=
  if treeStack = [] then some (treeStack, numChildrenStack) else goBackUp treeStack numChildrenStack

theorem goBackUp_last (back : Pointer) (trees : List Pointer) (ns : List ℤ) :
    goBackUp (back :: trees) (1 :: ns) = popBack trees ns := rfl

theorem goBackUp_more {n : ℤ} (hn : 0 < n) (back : Pointer) (trees : List Pointer)
    (ns : List ℤ) : goBackUp (back :: trees) ((n + 1) :: ns) =
      some (back :: trees, n :: ns) := by
  rw [goBackUp, Int.add_sub_cancel]
  exact if_pos hn

/-- The entries of a tree add it to the children of the back, and count as one child of it. -/
def AddsTree (t : RoseTree (String × Tag)) : Prop :=
  ∀ (root : ColumnPruner) (back : Pointer) (treeStack : List Pointer) (n : ℤ) (ns : List ℤ)
    (cs : List (String × ColumnPruner)), childrenAt back root = some cs →
    cs.lookup t.label.1 = none → (∀ u ∈ t.subtrees, (u.children.map (·.label.1)).Nodup) →
    addEntries ⟨root, back :: treeStack, n :: ns⟩ (flattening [t]) =
      (goBackUp (back :: treeStack) (n :: ns)).map fun left =>
        ⟨root.modifyChildren (· ++ [prunerOf t]) back, left.1, left.2⟩

variable {root : ColumnPruner} {back : Pointer} {ts : List (RoseTree (String × Tag))}

/-- All children of the back. -/
theorem addEntries_children (trees : List Pointer) (ns : List ℤ) (hne : ts ≠ []) (htrees : ∀ t ∈ ts, AddsTree t)
    (hat : childrenAt back root = some cs) (hnew : ∀ t ∈ ts, cs.lookup t.label.1 = none)
    (hnodup : (ts.map (·.label.1)).Nodup)
    (hbelow : ∀ t ∈ ts, ∀ u ∈ t.subtrees, (u.children.map (·.label.1)).Nodup) :
    addEntries ⟨root, back :: trees, (ts.length : ℤ) :: ns⟩ (flattening ts) =
      (popBack trees ns).map fun left =>
        ⟨root.modifyChildren (· ++ prunersOf ts) back, left.1, left.2⟩ := by
  induction ts generalizing root cs with
  | nil => exact absurd rfl hne
  | cons t ts ih =>
    obtain ⟨ht, hts⟩ := List.forall_mem_cons.1 htrees
    obtain ⟨hnewt, hnewts⟩ := List.forall_mem_cons.1 hnew
    obtain ⟨hbelowt, hbelowts⟩ := List.forall_mem_cons.1 hbelow
    rw [List.map_cons, List.nodup_cons] at hnodup
    have hfirst := ht root back trees ((t :: ts).length : ℤ) ns cs hat hnewt hbelowt
    rw [flattening_cons, addEntries_append, hfirst]
    rw [List.length_cons, Nat.cast_succ]
    cases ts with
    | nil =>
      rw [List.length_nil, Nat.cast_zero, zero_add, goBackUp_last, prunersOf, prunersOf]
      cases popBack trees ns <;> rfl
    | cons t' ts =>
      have hlen : (0 : ℤ) < ((t' :: ts).length : ℤ) := Nat.cast_pos.2 (Nat.succ_pos _)
      have hnew' : ∀ u ∈ t' :: ts, (cs ++ [prunerOf t]).lookup u.label.1 = none := by
        intro u hu
        rw [List.lookup_append, hnewts u hu, Option.none_or, List.lookup_cons]
        -- its name is a new one among the children
        have hname : (u.label.1 == (prunerOf t).1) = false := by
          apply beq_false_of_ne
          rw [prunerOf_fst]
          intro heq
          exact hnodup.1 (heq ▸ List.mem_map_of_mem hu)
        rw [hname]
        rfl
      have hrest := ih (List.cons_ne_nil _ _) hts
        (childrenAt_modifyChildren (F := (· ++ [prunerOf t])) hat) hnew' hnodup.2 hbelowts
      rw [goBackUp_more hlen, Option.map_some, Option.bind_some, hrest,
        modifyChildren_modifyChildren]
      congr 1
      funext left
      congr 2
      funext cs
      rw [Function.comp_apply, List.append_assoc]
      rfl

/-- The node is added first, then its children to it. -/
theorem addsTree (t : RoseTree (String × Tag)) : AddsTree t := by
  induction t using RoseTree.induct with
  | node label ts ih =>
    obtain ⟨name, tag⟩ := label
    intro root back trees n ns cs hat hnew hbelow
    have hnew' : cs.lookup name = none := hnew
    have hadd : root.modifyChildren (tryEmplace name tag) back =
        root.modifyChildren (· ++ [(name, .mk tag [])]) back := by
      apply modifyChildren_congr hat
      rw [tryEmplace, hnew']
      rfl
    rw [flattening_node, addEntries, List.foldlM_cons, addEntry]
    dsimp only
    rw [hadd]
    by_cases hts : ts = []
    · subst hts
      rw [if_neg (by decide)]
      cases goBackUp (back :: trees) (n :: ns) <;> rfl
    · have hpos : ((ts.length : ℕ) : ℤ) > 0 :=
        Nat.cast_pos.2 (List.length_pos_of_ne_nil hts)
      rw [if_pos hpos]
      -- the new node has no children yet
      have hat' : childrenAt (back ++ [name])
          (root.modifyChildren (· ++ [(name, .mk tag [])]) back) = some [] := by
        rw [childrenAt_append, childrenAt_modifyChildren hat, Option.bind_some, List.lookup_append,
          hnew', Option.none_or, List.lookup_cons_self]
        rfl
      have hself := hbelow _ (RoseTree.self_mem_subtrees _)
      have hchildren := addEntries_children (back :: trees) (n :: ns) hts ih hat'
        (fun _ _ => rfl) hself fun t ht u hu =>
          hbelow u (RoseTree.mem_subtrees_node.2 (.inr ⟨t, ht, hu⟩))
      have hpop : popBack (back :: trees) (n :: ns) = goBackUp (back :: trees) (n :: ns) :=
        if_neg (List.cons_ne_nil _ _)
      rw [hpop] at hchildren
      refine hchildren.trans ?_
      congr 1
      funext left
      congr 1
      rw [modifyChildren_append, modifyChildren_modifyChildren]
      apply modifyChildren_congr hat
      exact modifyChild_append hnew' _

/-- The trees of a request are decoded from their entries. -/
theorem ofDepthFirst_flattening (hdistinct : DistinctNames ts) :
    ColumnPruner.ofDepthFirst (flattening ts) ts.length =
      some (.ok (.mk .struct (prunersOf ts))) := by
  rw [ofDepthFirst, addDepthFirst]
  by_cases hts : ts = []
  · subst hts
    rfl
  · have hpos : ((ts.length : ℕ) : ℤ) ≠ 0 :=
      Nat.cast_ne_zero.2 (List.length_pos_of_ne_nil hts).ne'
    have hat : childrenAt [] (.mk .struct []) = some [] := rfl
    have hrun := addEntries_children [] [] hts (fun t _ => addsTree t) hat (fun _ _ => rfl)
      hdistinct.1 hdistinct.2
    rw [if_neg hpos, hrun]
    rfl

end Tree

/-! ### Which arrays are decoded exactly -/

section Exactly

variable {entries : List Entry} {parentNumChildren : ℤ}

/-- Unless entries are left after the tree is complete, the result is a tree where it is complete at the
end. -/
theorem ofDepthFirst_cases (entries : List Entry) (hparent : 0 < parentNumChildren) :
    (ColumnPruner.ofDepthFirst entries parentNumChildren = none ∧
      ∃ k < entries.length, Complete (entries.take k) parentNumChildren) ∨
    ((∀ k < entries.length, ¬Complete (entries.take k) parentNumChildren) ∧
      (Complete entries parentNumChildren →
        ∃ root, ColumnPruner.ofDepthFirst entries parentNumChildren = some (.ok root)) ∧
      (¬Complete entries parentNumChildren →
        ColumnPruner.ofDepthFirst entries parentNumChildren =
          some (.error "DIDN'T CONSUME EVERYTHING..."))) := by
  have hbalanced : Balanced [[]] [parentNumChildren] :=
    ⟨rfl, List.forall_mem_singleton.2 hparent⟩
  have hstart : pending [parentNumChildren] = parentNumChildren := by
    rw [pending, List.map_nil, List.sum_nil, add_zero]
  have hcomplete : ∀ k < entries.length, (Complete (entries.take k) parentNumChildren ↔
      (k : ℤ) = parentNumChildren + announced (entries.take k)) := by
    intro k hk
    rw [Complete, List.length_take, Nat.min_eq_left hk.le]
  have hspec := addEntries_spec (s := ⟨.mk .struct [], [[]], [parentNumChildren]⟩) entries hbalanced
  rw [hstart] at hspec
  rw [ColumnPruner.ofDepthFirst, ColumnPruner.addDepthFirst, if_neg hparent.ne']
  rcases hspec with ⟨hnone, k, hk, hkcomplete⟩ | ⟨hbefore, s, hs, hleft, hend⟩
  · left
    rw [hnone]
    exact ⟨rfl, k, hk, (hcomplete k hk).2 hkcomplete⟩
  · right
    refine ⟨fun k hk => mt (hcomplete k hk).1 (hbefore k hk), ?_⟩
    have hzero : pending s.numChildrenStack = 0 ↔ Complete entries parentNumChildren := by
      rw [hend, Complete, sub_eq_zero, eq_comm]
    rw [pending_eq_zero hleft.pos, ← List.length_eq_zero_iff] at hzero
    rw [hs, Option.map_some, hleft.length_eq]
    constructor
    · intro hc
      have hempty := hzero.2 hc
      exact ⟨s.root, congrArg some (if_neg (not_or.2 ⟨not_not.2 hempty, not_not.2 hempty⟩))⟩
    · intro hc
      exact congrArg some (if_pos (.inl (mt hzero.1 hc)))

theorem announced_flattening (forest : List (RoseTree (String × Tag))) :
    announced (flattening forest) = (((forest.flatMap depthFirst).map Prod.snd).sum : ℕ) := by
  rw [announced, flattening, List.map_map, Nat.cast_list_sum, List.map_map]
  congr 1
  apply List.map_congr_left
  intro node _
  exact max_eq_left (Nat.cast_nonneg node.2)

theorem complete_flattening (forest : List (RoseTree (String × Tag))) :
    Complete (flattening forest) forest.length := by
  rw [Complete, announced_flattening, flattening, List.length_map, length_flatMap_depthFirst]
  exact Nat.cast_add _ _

theorem nonneg_of_mem_flattening {forest : List (RoseTree (String × Tag))} {e : Entry}
    (he : e ∈ flattening forest) : 0 ≤ e.numChildren := by
  obtain ⟨node, -, rfl⟩ := List.mem_map.1 he
  exact Nat.cast_nonneg node.2

/-- Arrays that are complete at the end, and not before, are the flattening of trees. -/
theorem exists_flattening (hparent : 0 < parentNumChildren)
    (hbefore : ∀ k < entries.length, ¬Complete (entries.take k) parentNumChildren)
    (hcomplete : Complete entries parentNumChildren) (hnonneg : ∀ e ∈ entries, 0 ≤ e.numChildren) :
    ∃ forest : List (RoseTree (String × Tag)),
      forest.length = parentNumChildren ∧ flattening forest = entries := by
  set nodes := entries.map fun e => ((e.name, e.tag), e.numChildren.toNat) with hnodes
  have hentries : nodes.map (fun node => (⟨node.1.1, node.2, node.1.2⟩ : Entry)) = entries := by
    rw [hnodes, List.map_map]
    refine (List.map_congr_left fun e he => ?_).trans (List.map_id _)
    rw [Function.comp_apply, id_eq, Int.toNat_of_nonneg (hnonneg e he)]
  rcases exists_forest_or_short parentNumChildren.toNat nodes with
    ⟨forest, rest, hlen, hforest⟩ | hshort
  · have hparent' : (forest.length : ℤ) = parentNumChildren := by
      rw [hlen, Int.toNat_of_nonneg hparent.le]
    refine ⟨forest, hparent', ?_⟩
    rw [hforest, List.map_append] at hentries
    cases rest with
    | nil => rwa [List.map_nil, List.append_nil] at hentries
    | cons node rest =>
      -- the trees would be complete before the rest
      have hlt : (flattening forest).length < entries.length := by
        rw [← hentries, List.length_append, flattening]
        exact Nat.lt_add_of_pos_right (Nat.succ_pos _)
      have htake : entries.take (flattening forest).length = flattening forest := by
        rw [← hentries]
        exact List.take_left
      have := hbefore _ hlt
      rw [htake, ← hparent'] at this
      exact absurd (complete_flattening forest) this
  · -- more would be announced than there is
    have hend := hshort nodes.length le_rfl
    have hsum : announced entries = ((nodes.map Prod.snd).sum : ℕ) := by
      rw [announced, hnodes, List.map_map, Nat.cast_list_sum, List.map_map]
      congr 1
      apply List.map_congr_left
      intro e he
      exact (max_eq_left (hnonneg e he)).trans (Int.toNat_of_nonneg (hnonneg e he)).symm
    have hlen : nodes.length = entries.length := List.length_map _
    rw [List.take_length, hlen] at hend
    rw [Complete, hsum] at hcomplete
    omega

/-- The arrays are decoded exactly unless entries are left after the tree is complete, or the tree is
complete with a number of children below zero, which is read as none. -/
theorem decodesExactly_iff (hparent : 0 < parentNumChildren) :
    DecodesExactly entries parentNumChildren ↔
      (∀ k < entries.length, ¬Complete (entries.take k) parentNumChildren) ∧
        (Complete entries parentNumChildren → ∀ e ∈ entries, 0 ≤ e.numChildren) := by
  rcases ofDepthFirst_cases entries hparent with
    ⟨hnone, k, hk, hkcomplete⟩ | ⟨hbefore, hok, herror⟩
  · constructor
    · intro h
      exact absurd hnone h.accesses
    · intro h
      exact absurd hkcomplete (h.1 k hk)
  · constructor
    · intro h
      refine ⟨hbefore, fun hcomplete => ?_⟩
      by_contra hnegative
      have hrejected := h.rejected fun forest hlen hflat =>
        hnegative fun e he => nonneg_of_mem_flattening (hflat ▸ he)
      obtain ⟨root, hroot⟩ := hok hcomplete
      rw [hroot] at hrejected
      cases hrejected
    · intro h
      refine ⟨fun forest hlen hflat hdistinct => ?_, fun hnone => ?_, ?_⟩
      · rw [← hflat, ← hlen]
        exact ofDepthFirst_flattening hdistinct
      · apply herror
        intro hcomplete
        obtain ⟨forest, hlen, hflat⟩ :=
          exists_flattening hparent hbefore hcomplete (h.2 hcomplete)
        exact hnone forest hlen hflat
      · by_cases hcomplete : Complete entries parentNumChildren
        · obtain ⟨root, hroot⟩ := hok hcomplete
          rw [hroot]
          exact Option.some_ne_none _
        · rw [herror hcomplete]
          exact Option.some_ne_none _

end Exactly

end SparkRapids.ParquetFooter
