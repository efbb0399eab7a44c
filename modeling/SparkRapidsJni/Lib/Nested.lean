import Mathlib.Tactic

/-!
# Nested types and visitors

A tree whose inner nodes are lists, with one child, and structs, with any number. A visitor goes
through a tree in preorder and changes a state; it may fail. `Nested.flatten` lists the nodes in
that order, each with a context that a list passes on to its child: a visitor that keeps the
contexts on a stack is verified by what it does at one node of the flattened tree
(`Visitor.Goes.visitTrees`).
-/

namespace SparkRapids

/-- A tree with leaves of type `t` and a value at every node. -/
inductive Nested (τ α : Type)
  | leaf (t : τ) (a : α)
  | list (a : α) (child : Nested τ α)
  | struct (a : α) (children : List (Nested τ α))

/-- What a node is. -/
inductive NodeKind (τ : Type)
  | leaf (t : τ)
  | list
  | struct
  deriving DecidableEq, Repr

/-- A node of a flattened tree, with its context. -/
@[ext]
structure FlatNode (τ α γ : Type) where
  kind : NodeKind τ
  val : α
  ctx : γ

/-- A node with its context mapped. -/
def FlatNode.mapCtx {τ α γ δ : Type} (h : γ → δ) (p : FlatNode τ α γ) : FlatNode τ α δ :=
  ⟨p.kind, p.val, h p.ctx⟩

namespace Nested

variable {τ α β γ δ : Type}

def kind : Nested τ α → NodeKind τ
  | leaf t _ => .leaf t
  | list _ _ => .list
  | struct _ _ => .struct

def val : Nested τ α → α
  | leaf _ a => a
  | list a _ => a
  | struct a _ => a

mutual

/-- The nodes in preorder. `child` makes the context of a list's child. -/
def flatten (child : α → γ → γ) : Nested τ α → γ → List (FlatNode τ α γ)
  | leaf t a, g => [⟨.leaf t, a, g⟩]
  | list a c, g => ⟨.list, a, g⟩ :: flatten child c (child a g)
  | struct a cs, g => ⟨.struct, a, g⟩ :: flattenAll child cs g

def flattenAll (child : α → γ → γ) : List (Nested τ α) → γ → List (FlatNode τ α γ)
  | [], _ => []
  | c :: cs, g => flatten child c g ++ flattenAll child cs g

end

mutual

/-- The number of nodes. -/
def size : Nested τ α → Nat
  | leaf _ _ => 1
  | list _ c => c.size + 1
  | struct _ cs => sizeAll cs + 1

def sizeAll : List (Nested τ α) → Nat
  | [] => 0
  | c :: cs => c.size + sizeAll cs

end

/-! ### Flattened trees -/

section Flatten

variable {child : α → γ → γ}

mutual

theorem length_flatten (t : Nested τ α) (g : γ) : (flatten child t g).length = t.size := by
  cases t with
  | leaf t a => rfl
  | list a c =>
    show (flatten child c (child a g)).length + 1 = c.size + 1
    rw [length_flatten c]
  | struct a cs =>
    show (flattenAll child cs g).length + 1 = sizeAll cs + 1
    rw [length_flattenAll cs]

theorem length_flattenAll (ts : List (Nested τ α)) (g : γ) :
    (flattenAll child ts g).length = sizeAll ts := by
  cases ts with
  | nil => rfl
  | cons t ts =>
    show (flatten child t g ++ flattenAll child ts g).length = t.size + sizeAll ts
    rw [List.length_append, length_flatten t, length_flattenAll ts]

end

mutual

/-- A map of the contexts that agrees with the lists' steps goes through the tree. -/
theorem flatten_mapCtx {child' : α → δ → δ} {h : γ → δ}
    (hchild : ∀ a g, h (child a g) = child' a (h g)) (t : Nested τ α) (g : γ) :
    flatten child' t (h g) = (flatten child t g).map (FlatNode.mapCtx h) := by
  cases t with
  | leaf t a => rfl
  | list a c =>
    show _ :: flatten child' c (child' a (h g)) = _ :: (flatten child c (child a g)).map _
    rw [← hchild, flatten_mapCtx hchild c]
    rfl
  | struct a cs =>
    show _ :: flattenAll child' cs (h g) = _ :: (flattenAll child cs g).map _
    rw [flattenAll_mapCtx hchild cs]
    rfl

theorem flattenAll_mapCtx {child' : α → δ → δ} {h : γ → δ}
    (hchild : ∀ a g, h (child a g) = child' a (h g)) (ts : List (Nested τ α)) (g : γ) :
    flattenAll child' ts (h g) = (flattenAll child ts g).map (FlatNode.mapCtx h) := by
  cases ts with
  | nil => rfl
  | cons t ts =>
    show flatten child' t (h g) ++ flattenAll child' ts (h g) =
      (flatten child t g ++ flattenAll child ts g).map (FlatNode.mapCtx h)
    rw [List.map_append, flatten_mapCtx hchild t, flattenAll_mapCtx hchild ts]

end

/-- The contexts of two flattenings of a tree side by side. -/
def both (child : α → γ → γ) (child' : α → δ → δ) (a : α) (g : γ × δ) : γ × δ :=
  (child a g.1, child' a g.2)

theorem flattenAll_both_fst (child : α → γ → γ) (child' : α → δ → δ) (ts : List (Nested τ α))
    (g : γ) (g' : δ) :
    (flattenAll (both child child') ts (g, g')).map (FlatNode.mapCtx Prod.fst) =
      flattenAll child ts g :=
  have hfst : ∀ a g, (both child child' a g).1 = child a g.1 := fun _ _ => rfl
  (flattenAll_mapCtx hfst ts (g, g')).symm

theorem flattenAll_both_snd (child : α → γ → γ) (child' : α → δ → δ) (ts : List (Nested τ α))
    (g : γ) (g' : δ) :
    (flattenAll (both child child') ts (g, g')).map (FlatNode.mapCtx Prod.snd) =
      flattenAll child' ts g' :=
  have hsnd : ∀ a g, (both child child' a g).2 = child' a g.2 := fun _ _ => rfl
  (flattenAll_mapCtx hsnd ts (g, g')).symm

theorem fst_mem_flattenAll {child' : α → δ → δ} {ts : List (Nested τ α)} {g : γ} {g' : δ}
    {p : FlatNode τ α (γ × δ)} (hp : p ∈ flattenAll (both child child') ts (g, g')) :
    FlatNode.mapCtx Prod.fst p ∈ flattenAll child ts g := by
  rw [← flattenAll_both_fst child child' ts g g']
  exact List.mem_map_of_mem hp

theorem snd_mem_flattenAll {child' : α → δ → δ} {ts : List (Nested τ α)} {g : γ} {g' : δ}
    {p : FlatNode τ α (γ × δ)} (hp : p ∈ flattenAll (both child child') ts (g, g')) :
    FlatNode.mapCtx Prod.snd p ∈ flattenAll child' ts g' := by
  rw [← flattenAll_both_snd child child' ts g g']
  exact List.mem_map_of_mem hp

/-- A node of one flattening has a node of the other at its side. -/
theorem exists_both_of_mem (child : α → γ → γ) {child' : α → δ → δ} {ts : List (Nested τ α)}
    (g : γ) {g' : δ} {p : FlatNode τ α δ} (hp : p ∈ flattenAll child' ts g') :
    ∃ q ∈ flattenAll (both child child') ts (g, g'), FlatNode.mapCtx Prod.snd q = p := by
  rw [← flattenAll_both_snd child child' ts g g'] at hp
  exact List.mem_map.1 hp

mutual

/-- What holds of the root's context, and of a list's child's if of the list's, holds of all. -/
theorem ctx_of_mem_flatten {Q : γ → Prop} (t : Nested τ α) {g : γ} (hg : Q g)
    (hchild : ∀ p ∈ flatten child t g, p.kind = .list → Q p.ctx → Q (child p.val p.ctx)) :
    ∀ p ∈ flatten child t g, Q p.ctx := by
  intro p hp
  cases t with
  | leaf t a =>
    obtain rfl := List.mem_singleton.1 hp
    exact hg
  | list a c =>
    rcases List.mem_cons.1 hp with rfl | hp
    · exact hg
    · refine ctx_of_mem_flatten c (hchild _ (List.mem_cons_self ..) rfl hg) (fun q hq => ?_) p hp
      exact hchild q (List.mem_cons_of_mem _ hq)
  | struct a cs =>
    rcases List.mem_cons.1 hp with rfl | hp
    · exact hg
    · refine ctx_of_mem_flattenAll cs hg (fun q hq => ?_) p hp
      exact hchild q (List.mem_cons_of_mem _ hq)

theorem ctx_of_mem_flattenAll {Q : γ → Prop} (ts : List (Nested τ α)) {g : γ} (hg : Q g)
    (hchild : ∀ p ∈ flattenAll child ts g, p.kind = .list → Q p.ctx → Q (child p.val p.ctx)) :
    ∀ p ∈ flattenAll child ts g, Q p.ctx := by
  intro p hp
  cases ts with
  | nil => exact absurd hp (List.not_mem_nil)
  | cons t ts =>
    rcases List.mem_append.1 hp with hp | hp
    · exact ctx_of_mem_flatten t hg (fun q hq => hchild q (List.mem_append_left _ hq)) p hp
    · exact ctx_of_mem_flattenAll ts hg (fun q hq => hchild q (List.mem_append_right _ hq)) p hp

end

/-- Flattenings whose lists' steps agree wherever the contexts do are the same. -/
theorem flattenAll_congr {child' : α → γ → γ} (ts : List (Nested τ α)) (g : γ)
    (h : ∀ p ∈ flattenAll (both child child') ts (g, g), p.kind = .list → p.ctx.1 = p.ctx.2 →
      child p.val p.ctx.1 = child' p.val p.ctx.2) :
    (∀ p ∈ flattenAll (both child child') ts (g, g), p.ctx.1 = p.ctx.2) ∧
      flattenAll child ts g = flattenAll child' ts g := by
  have hsame := ctx_of_mem_flattenAll (Q := fun g : γ × γ => g.1 = g.2) ts (g := (g, g)) rfl h
  refine ⟨hsame, ?_⟩
  rw [← flattenAll_both_fst child child' ts g g, ← flattenAll_both_snd child child' ts g g]
  refine List.map_congr_left fun p hp => ?_
  show FlatNode.mk p.kind p.val p.ctx.1 = FlatNode.mk p.kind p.val p.ctx.2
  rw [hsame p hp]

end Flatten

end Nested

/-! ### Visitors -/

/-- Two steps that succeed together succeed one after the other. -/
theorem exists_of_bind_ok {ε α β : Type} {x : Except ε α} {f : α → Except ε β} {b : β}
    (h : (x >>= f) = .ok b) : ∃ a, x = .ok a ∧ f a = .ok b := by
  cases x with
  | error e => exact absurd h (by simp [bind, Except.bind])
  | ok a => exact ⟨a, rfl, h⟩

/-- What a computation ends with: a result with `P`, or an error with `E`. -/
def Outcome {ε α : Type} (x : Except ε α) (P : α → Prop) (E : ε → Prop) : Prop :=
  match x with
  | .ok a => P a
  | .error e => E e

namespace Outcome

variable {ε α β : Type} {x : Except ε α} {f : α → Except ε β} {P P' : α → Prop} {Q : β → Prop}
  {E E' : ε → Prop}

theorem bind (hx : Outcome x P E) (hf : ∀ a, P a → Outcome (f a) Q E) : Outcome (x >>= f) Q E := by
  cases x with
  | ok a => exact hf a hx
  | error e => exact hx

theorem of_ok (h : ∃ a, x = .ok a ∧ P a) : Outcome x P E := by
  obtain ⟨a, rfl, ha⟩ := h
  exact ha

theorem of_imp (h : ∀ a, x = .ok a → P a) : Outcome x P fun _ => True := by
  cases x with
  | ok a => exact h a rfl
  | error e => trivial

theorem exists_ok (hx : Outcome x P fun _ => False) : ∃ a, x = .ok a ∧ P a := by
  cases x with
  | ok a => exact ⟨a, rfl, hx⟩
  | error e => exact False.elim hx

theorem of_eq_ok {a : α} (hx : Outcome x P E) (h : x = .ok a) : P a := by
  rw [h] at hx
  exact hx

end Outcome

/-- What a visitor does at the nodes: before and after the children of the inner ones. -/
structure Visitor (ε τ α σ : Type) where
  preVisitStruct : α → σ → Except ε σ
  visitStruct : α → σ → Except ε σ
  preVisitList : α → σ → Except ε σ
  visitList : α → σ → Except ε σ
  visit : τ → α → σ → Except ε σ

namespace Visitor

variable {ε τ α β σ γ : Type} (v : Visitor ε τ α σ)

mutual

/-- Visits a tree. -/
def visitTree : Nested τ α → σ → Except ε σ
  | .leaf t a, st => v.visit t a st
  | .list a c, st => do
    let st ← v.preVisitList a st
    let st ← visitTree c st
    v.visitList a st
  | .struct a cs, st => do
    let st ← v.preVisitStruct a st
    let st ← visitTrees cs st
    v.visitStruct a st

/-- Visits the trees one after another. -/
def visitTrees : List (Nested τ α) → σ → Except ε σ
  | [], st => .ok st
  | c :: cs, st => do
    let st ← visitTree c st
    visitTrees cs st

end

/-- The nodes `part` are those of `whole` from `k` on. -/
def PartAt (whole part : List (FlatNode τ α γ)) (k : Nat) : Prop :=
  ∃ pre post, whole = pre ++ (part ++ post) ∧ pre.length = k

section PartAt

variable {whole part part' : List (FlatNode τ α γ)} {p : FlatNode τ α γ} {k : Nat}

theorem PartAt.self : PartAt whole whole 0 := ⟨[], [], by simp, rfl⟩

theorem PartAt.getElem? (h : PartAt whole (p :: part) k) : whole[k]? = some p := by
  obtain ⟨pre, post, rfl, rfl⟩ := h
  simp

theorem PartAt.tail (h : PartAt whole (p :: part) k) : PartAt whole part (k + 1) := by
  obtain ⟨pre, post, rfl, rfl⟩ := h
  exact ⟨pre ++ [p], post, by simp, by simp⟩

theorem PartAt.left (h : PartAt whole (part ++ part') k) : PartAt whole part k := by
  obtain ⟨pre, post, rfl, rfl⟩ := h
  exact ⟨pre, part' ++ post, by simp, rfl⟩

theorem PartAt.right (h : PartAt whole (part ++ part') k) :
    PartAt whole part' (k + part.length) := by
  obtain ⟨pre, post, rfl, rfl⟩ := h
  exact ⟨pre ++ part, post, by simp, by simp⟩

end PartAt

/-- `v` goes through the nodes `whole` of a flattened tree and may fail: `P k stack` says where it is
before node `k`, with the contexts of that node, of the list above it and so on, and `E` what it fails
with. -/
structure Goes (v : Visitor ε τ α σ) (child : α → γ → γ) (whole : List (FlatNode τ α γ))
    (P : Nat → List γ → σ → Prop) (E : ε → Prop) : Prop where
  preVisitStruct : ∀ {k a g stack st}, whole[k]? = some ⟨.struct, a, g⟩ → P k (g :: stack) st →
    Outcome (v.preVisitStruct a st) (P (k + 1) (g :: stack)) E
  visitStruct : ∀ {k a stack st}, P k stack st → Outcome (v.visitStruct a st) (P k stack) E
  preVisitList : ∀ {k a g stack st}, whole[k]? = some ⟨.list, a, g⟩ → P k (g :: stack) st →
    Outcome (v.preVisitList a st) (P (k + 1) (child a g :: g :: stack)) E
  visitList : ∀ {k a g stack st}, P k (g :: stack) st → Outcome (v.visitList a st) (P k stack) E
  visit : ∀ {k t a g stack st}, whole[k]? = some ⟨.leaf t, a, g⟩ → P k (g :: stack) st →
    Outcome (v.visit t a st) (P (k + 1) (g :: stack)) E

namespace Goes

variable {v} {child : α → γ → γ} {whole : List (FlatNode τ α γ)} {P : Nat → List γ → σ → Prop}
  {E : ε → Prop}

mutual

/-- A visit of a tree goes through its nodes. -/
theorem visitTree (h : Goes v child whole P E) (t : Nested τ α) {k : Nat} {g : γ} {stack : List γ}
    {st : σ} (hpart : PartAt whole (t.flatten child g) k) (hP : P k (g :: stack) st) :
    Outcome (v.visitTree t st) (P (k + t.size) (g :: stack)) E := by
  cases t with
  | leaf t a => exact h.visit hpart.getElem? hP
  | list a c =>
    refine (h.preVisitList hpart.getElem? hP).bind fun st₁ hP1 => ?_
    refine (visitTree h c hpart.tail hP1).bind fun st₂ hP2 => ?_
    have hk : k + 1 + c.size = k + (c.size + 1) := by omega
    rw [hk] at hP2
    exact h.visitList hP2
  | struct a cs =>
    refine (h.preVisitStruct hpart.getElem? hP).bind fun st₁ hP1 => ?_
    refine (visitTrees h cs hpart.tail hP1).bind fun st₂ hP2 => ?_
    have hk : k + 1 + Nested.sizeAll cs = k + (Nested.sizeAll cs + 1) := by omega
    rw [hk] at hP2
    exact h.visitStruct hP2

theorem visitTrees (h : Goes v child whole P E) (ts : List (Nested τ α)) {k : Nat} {g : γ}
    {stack : List γ} {st : σ} (hpart : PartAt whole (Nested.flattenAll child ts g) k)
    (hP : P k (g :: stack) st) :
    Outcome (v.visitTrees ts st) (P (k + Nested.sizeAll ts) (g :: stack)) E := by
  cases ts with
  | nil => exact hP
  | cons t ts =>
    refine (visitTree h t (PartAt.left hpart) hP).bind fun st₁ hP1 => ?_
    have hright := PartAt.right hpart
    rw [Nested.length_flatten] at hright
    have hrest := visitTrees h ts hright hP1
    rw [Nat.add_assoc] at hrest
    exact hrest

end

end Goes

/-- `v` steps through the nodes `whole` of a flattened tree: as in `Goes`, but it does not fail. -/
structure Steps (v : Visitor ε τ α σ) (child : α → γ → γ) (whole : List (FlatNode τ α γ))
    (P : Nat → List γ → σ → Prop) : Prop where
  preVisitStruct : ∀ {k a g stack st}, whole[k]? = some ⟨.struct, a, g⟩ → P k (g :: stack) st →
    ∃ st', v.preVisitStruct a st = .ok st' ∧ P (k + 1) (g :: stack) st'
  visitStruct : ∀ {k a stack st}, P k stack st → ∃ st', v.visitStruct a st = .ok st' ∧ P k stack st'
  preVisitList : ∀ {k a g stack st}, whole[k]? = some ⟨.list, a, g⟩ → P k (g :: stack) st →
    ∃ st', v.preVisitList a st = .ok st' ∧ P (k + 1) (child a g :: g :: stack) st'
  visitList : ∀ {k a g stack st}, P k (g :: stack) st →
    ∃ st', v.visitList a st = .ok st' ∧ P k stack st'
  visit : ∀ {k t a g stack st}, whole[k]? = some ⟨.leaf t, a, g⟩ → P k (g :: stack) st →
    ∃ st', v.visit t a st = .ok st' ∧ P (k + 1) (g :: stack) st'

namespace Steps

variable {v} {child : α → γ → γ} {whole : List (FlatNode τ α γ)} {P : Nat → List γ → σ → Prop}

theorem goes (h : Steps v child whole P) : Goes v child whole P fun _ => False where
  preVisitStruct hp hP := Outcome.of_ok (h.preVisitStruct hp hP)
  visitStruct hP := Outcome.of_ok (h.visitStruct hP)
  preVisitList hp hP := Outcome.of_ok (h.preVisitList hp hP)
  visitList hP := Outcome.of_ok (h.visitList hP)
  visit hp hP := Outcome.of_ok (h.visit hp hP)

theorem visitTrees (h : Steps v child whole P) (ts : List (Nested τ α)) {k : Nat} {g : γ}
    {stack : List γ} {st : σ} (hpart : PartAt whole (Nested.flattenAll child ts g) k)
    (hP : P k (g :: stack) st) :
    ∃ st', v.visitTrees ts st = .ok st' ∧ P (k + Nested.sizeAll ts) (g :: stack) st' :=
  (h.goes.visitTrees ts hpart hP).exists_ok

end Steps

/-- `v` keeps `P` on the nodes `whole` of a flattened tree, wherever it succeeds: `P k stack` says
where it is before node `k`, as in `Goes`. -/
structure Keeps (v : Visitor ε τ α σ) (child : α → γ → γ) (whole : List (FlatNode τ α γ))
    (P : Nat → List γ → σ → Prop) : Prop where
  preVisitStruct : ∀ {k a g stack st st'}, whole[k]? = some ⟨.struct, a, g⟩ → P k (g :: stack) st →
    v.preVisitStruct a st = .ok st' → P (k + 1) (g :: stack) st'
  visitStruct : ∀ {k a stack st st'}, P k stack st → v.visitStruct a st = .ok st' → P k stack st'
  preVisitList : ∀ {k a g stack st st'}, whole[k]? = some ⟨.list, a, g⟩ → P k (g :: stack) st →
    v.preVisitList a st = .ok st' → P (k + 1) (child a g :: g :: stack) st'
  visitList : ∀ {k a g stack st st'}, P k (g :: stack) st → v.visitList a st = .ok st' →
    P k stack st'
  visit : ∀ {k t a g stack st st'}, whole[k]? = some ⟨.leaf t, a, g⟩ → P k (g :: stack) st →
    v.visit t a st = .ok st' → P (k + 1) (g :: stack) st'

namespace Keeps

variable {v} {child : α → γ → γ} {whole : List (FlatNode τ α γ)} {P : Nat → List γ → σ → Prop}

theorem goes (h : Keeps v child whole P) : Goes v child whole P fun _ => True where
  preVisitStruct hp hP := Outcome.of_imp fun _ => h.preVisitStruct hp hP
  visitStruct hP := Outcome.of_imp fun _ => h.visitStruct hP
  preVisitList hp hP := Outcome.of_imp fun _ => h.preVisitList hp hP
  visitList hP := Outcome.of_imp fun _ => h.visitList hP
  visit hp hP := Outcome.of_imp fun _ => h.visit hp hP

theorem visitTrees (h : Keeps v child whole P) (ts : List (Nested τ α)) {k : Nat} {g : γ}
    {stack : List γ} {st st' : σ} (hpart : PartAt whole (Nested.flattenAll child ts g) k)
    (hP : P k (g :: stack) st) (hrun : v.visitTrees ts st = .ok st') :
    P (k + Nested.sizeAll ts) (g :: stack) st' :=
  (h.goes.visitTrees ts hpart hP).of_eq_ok hrun

end Keeps

end Visitor

end SparkRapids
