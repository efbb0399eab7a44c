import SparkRapidsJni.ResourceAdaptor.Deadlock

/-!
# What the deadlock detection decides

`is_in_deadlock` says yes exactly when a dedicated thread is registered and every task with a
dedicated thread is blocked: one of its dedicated threads is, and so are all pool threads that work
on it (`Deadlocked`, `deadlock_detection_exact`).

The source walks unordered sets and two passes over a map. `WalkOrder` is any order in which it may
do so; the answer is the same in all of them. What carries this is that the second pass only ever
erases from the one set that both passes write, and an erased task stays erased.
-/

namespace SparkRapids.ResourceAdaptor.Adaptor

open Std (ExtTreeMap ExtTreeSet)
open DeadlockScan
open DeadlockScan (CountsAsBlocked WorksOn DedicatedTo)

variable {s : Adaptor} {java : Option (ExtTreeSet Int)} {id : Int}

/-! ### The walk in an arbitrary order -/

/-- An order in which the two passes of `is_in_deadlock` may meet the registered threads, and the
second one the tasks of a pool thread. -/
structure WalkOrder (s : Adaptor) where
  firstPass : List FullThreadState
  secondPass : List FullThreadState
  tasksOf : FullThreadState → List Int
  firstPass_perm : firstPass.Perm (s.threads.toList.map Prod.snd)
  secondPass_perm : secondPass.Perm (s.threads.toList.map Prod.snd)
  tasksOf_perm : ∀ t, (tasksOf t).Perm t.poolTaskIds.toList

/-- The second pass over one pool thread, whose tasks are met in the order `ids`. -/
def DeadlockScan.poolThreadWalking (java : Option (ExtTreeSet Int)) (ids : List Int)
    (d : DeadlockScan) (t : FullThreadState) : DeadlockScan :=
  if t.taskId < 0 then
    let isBufnPlus := isThreadBufnOrAbove t java
    { d with
      poolTaskThreadCount := countTasks d.poolTaskThreadCount ids
      poolBufnTaskThreadCount :=
        if isBufnPlus then countTasks d.poolBufnTaskThreadCount ids
        else d.poolBufnTaskThreadCount
      blockedTaskIds :=
        if !isBufnPlus && t.state ≠ .blocked then ids.foldl (fun b id => b.erase id) d.blockedTaskIds
        else d.blockedTaskIds }
  else d

/-- The two passes of `is_in_deadlock`, in the order `o`. -/
def WalkOrder.scan (o : WalkOrder s) (java : Option (ExtTreeSet Int)) : DeadlockScan :=
  o.secondPass.foldl (fun d t => poolThreadWalking java (o.tasksOf t) d t)
    (o.firstPass.foldl (dedicatedThread java) {})

/-- The increasing order. -/
def WalkOrder.increasing (s : Adaptor) : WalkOrder s where
  firstPass := s.threads.toList.map Prod.snd
  secondPass := s.threads.toList.map Prod.snd
  tasksOf t := t.poolTaskIds.toList
  firstPass_perm := .refl _
  secondPass_perm := .refl _
  tasksOf_perm _ := .refl _

theorem scan_increasing (s : Adaptor) (java : Option (ExtTreeSet Int)) :
    (WalkOrder.increasing s).scan java = s.deadlockScan java := rfl

namespace WalkOrder

variable (o : WalkOrder s)

theorem mem_firstPass {t : FullThreadState} :
    t ∈ o.firstPass ↔ ∃ T : Int, s.threads[T]? = some t := by
  rw [o.firstPass_perm.mem_iff, mem_threads_iff]

theorem mem_secondPass {t : FullThreadState} :
    t ∈ o.secondPass ↔ ∃ T : Int, s.threads[T]? = some t := by
  rw [o.secondPass_perm.mem_iff, mem_threads_iff]

/-- The order in which the tasks of one pool thread are met does not matter: they are all erased. -/
theorem mem_blockedTaskIds_poolThreadWalking {d d' : DeadlockScan} (t : FullThreadState)
    (h : id ∈ d.blockedTaskIds ↔ id ∈ d'.blockedTaskIds) :
    id ∈ (poolThreadWalking java (o.tasksOf t) d t).blockedTaskIds ↔
      id ∈ (poolThread java d' t).blockedTaskIds := by
  unfold poolThreadWalking poolThread
  by_cases hpool : t.taskId < 0
  · rw [if_pos hpool, if_pos hpool]
    dsimp only
    split_ifs
    · rw [mem_foldl_erase, mem_foldl_erase, h, (o.tasksOf_perm t).mem_iff]
    · exact h
  · rw [if_neg hpool, if_neg hpool]
    exact h

theorem mem_blockedTaskIds_secondPass (ts : List FullThreadState) {d d' : DeadlockScan}
    (h : id ∈ d.blockedTaskIds ↔ id ∈ d'.blockedTaskIds) :
    id ∈ (ts.foldl (fun d t => poolThreadWalking java (o.tasksOf t) d t)
        d).blockedTaskIds ↔
      id ∈ (ts.foldl (poolThread java) d').blockedTaskIds := by
  induction ts generalizing d d' with
  | nil => exact h
  | cons t rest ih =>
    rw [List.foldl_cons, List.foldl_cons]
    exact ih (o.mem_blockedTaskIds_poolThreadWalking t h)

theorem allTaskIds_secondPass (ts : List FullThreadState) (d : DeadlockScan) :
    (ts.foldl (fun d t => poolThreadWalking java (o.tasksOf t) d t) d).allTaskIds =
      d.allTaskIds := by
  induction ts generalizing d with
  | nil => rfl
  | cons t rest ih =>
    rw [List.foldl_cons, ih]
    unfold poolThreadWalking
    split_ifs
    · rfl
    · rfl

theorem mem_allTaskIds_scan : id ∈ (o.scan java).allTaskIds ↔ s.HasDedicated id := by
  unfold scan
  rw [o.allTaskIds_secondPass, mem_allTaskIds_dedicated]
  simp only [o.mem_firstPass, Finset.notMem_empty, false_or]
  exact exists_threads_iff

theorem mem_blockedTaskIds_scan : id ∈ (o.scan java).blockedTaskIds ↔ s.TaskBlocked java id := by
  unfold scan
  rw [o.mem_blockedTaskIds_secondPass _ Iff.rfl, mem_blockedTaskIds_pool,
    mem_blockedTaskIds_dedicated]
  simp only [o.mem_firstPass, o.mem_secondPass, Finset.notMem_empty, false_or]
  exact and_congr exists_threads_iff forall_threads_iff

end WalkOrder

/-! ### What is decided -/

/-- The deadlock the detection looks for: there are tasks with dedicated threads, and all of them
are blocked. -/
def Deadlocked (s : Adaptor) (java : Option (ExtTreeSet Int)) : Prop :=
  (∃ (T : Int) (t : FullThreadState), s.threads[T]? = some t ∧ 0 ≤ t.taskId) ∧
  ∀ id, s.HasDedicated id → s.TaskBlocked java id

theorem isInDeadlock_scan (o : WalkOrder s) :
    isInDeadlock (o.scan java) = true ↔ s.Deadlocked java := by
  have hall : ∀ id, id ∈ (o.scan java).allTaskIds ↔ _ := fun _ => o.mem_allTaskIds_scan
  have hblocked : ∀ id, id ∈ (o.scan java).blockedTaskIds ↔ _ := fun _ => o.mem_blockedTaskIds_scan
  -- only tasks with dedicated threads are ever put into `blocked_task_ids`, so equal sizes mean
  -- equal sets
  have hsub : (o.scan java).blockedTaskIds ⊆ (o.scan java).allTaskIds := by
    intro id hid
    obtain ⟨⟨T, t, hT, ht, -⟩, -⟩ := (hblocked id).1 hid
    exact (hall id).2 ⟨T, t, hT, ht⟩
  have hne : (o.scan java).allTaskIds ≠ ∅ ↔
      ∃ (T : Int) (t : FullThreadState), s.threads[T]? = some t ∧ 0 ≤ t.taskId := by
    rw [← Finset.nonempty_iff_ne_empty]
    constructor
    · rintro ⟨id, hid⟩
      obtain ⟨T, t, hT, ht⟩ := (hall id).1 hid
      exact ⟨T, t, hT, ht.1⟩
    · rintro ⟨T, t, hT, ht⟩
      exact ⟨t.taskId, (hall _).2 ⟨T, t, hT, ht, rfl⟩⟩
  have hcard : (o.scan java).allTaskIds.card = (o.scan java).blockedTaskIds.card ↔
      ∀ id, s.HasDedicated id → s.TaskBlocked java id := by
    constructor
    · intro h id hid
      have heq := Finset.eq_of_subset_of_card_le hsub h.le
      rw [← hblocked, heq, hall]
      exact hid
    · intro h
      refine congrArg Finset.card (Finset.Subset.antisymm (fun id hid => ?_) hsub)
      exact (hblocked id).2 (h id ((hall id).1 hid))
  unfold isInDeadlock
  rw [decide_eq_true_iff, hcard, hne]
  exact and_comm

theorem isInDeadlock_iff : isInDeadlock (s.deadlockScan java) = true ↔ s.Deadlocked java := by
  rw [← scan_increasing]
  exact isInDeadlock_scan _

/-- **Deadlock detection is exact**: `is_in_deadlock` answers whether the adaptor is deadlocked, and
its answer does not depend on the order in which it meets threads and tasks. -/
theorem deadlock_detection_exact (s : Adaptor) (java : Option (ExtTreeSet Int)) :
    (isInDeadlock (s.deadlockScan java) = true ↔ s.Deadlocked java) ∧
      ∀ o : WalkOrder s, isInDeadlock (o.scan java) = isInDeadlock (s.deadlockScan java) := by
  refine ⟨isInDeadlock_iff, fun o => ?_⟩
  rw [Bool.eq_iff_iff, isInDeadlock_scan, isInDeadlock_iff]

end SparkRapids.ResourceAdaptor.Adaptor
