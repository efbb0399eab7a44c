import SparkRapidsJni.ResourceAdaptor.Step

/-!
# What the operations leave in the maps

For each operation of `Adaptor.lean` and `Step.lean` that removes threads, the entry it leaves for
one thread `U`, in closed form: removing one thread changes no other thread's entry, so the entry
of `U` after a whole operation is a function of the entry of `U` before.

* `FullThreadState.removed` is the entry `remove_thread_association` leaves, or `none`.
* `Op.removedEntry` is the entry an operation leaves once its removals are done, before any thread
  is woken; `Op.Erases` says that it leaves none.
-/

namespace SparkRapids.ResourceAdaptor

open Std (ExtTreeMap ExtTreeSet)

namespace FullThreadState

/-- The entry `remove_thread_association` leaves for the thread it is called on. -/
def removed (t : FullThreadState) (removeTaskId : Int) : Option FullThreadState :=
  let (threadShouldBeRemoved, t) := t.checkpointed.dropTask removeTaskId
  if threadShouldBeRemoved then
    if isBlocked t.state then some { t with state := .removeThrow } else none
  else some t

/-- The entry the second loop of `task_done` leaves for a thread. -/
def droppedFromPool (t : FullThreadState) (taskId : Int) : Option FullThreadState :=
  if taskId ∈ t.poolTaskIds then
    let t := { t with poolTaskIds := t.poolTaskIds.erase taskId }
    if t.poolTaskIds.isEmpty then t.removed taskId else some t
  else some t

/-- The entry `pool_thread_finished_for_tasks` leaves for the thread it is called on. -/
def finishedForTasks (t : FullThreadState) (taskIds : ExtTreeSet Int) : Option FullThreadState :=
  let poolTaskIds := taskIds.toList.foldl (fun ids id => ids.erase id) t.poolTaskIds
  let t := { t.checkpointed with poolTaskIds }
  if poolTaskIds.isEmpty then t.removed (-1) else some t

@[simp] theorem dropTask_state (t : FullThreadState) (id : Int) :
    (t.dropTask id).2.state = t.state := by
  unfold dropTask
  split_ifs <;> rfl

@[simp] theorem dropTask_taskId (t : FullThreadState) (id : Int) :
    (t.dropTask id).2.taskId = t.taskId := by
  unfold dropTask
  split_ifs <;> rfl

@[simp] theorem dropTask_threadId (t : FullThreadState) (id : Int) :
    (t.dropTask id).2.threadId = t.threadId := by
  unfold dropTask
  split_ifs <;> rfl

@[simp] theorem dropTask_isCpuAlloc (t : FullThreadState) (id : Int) :
    (t.dropTask id).2.isCpuAlloc = t.isCpuAlloc := by
  unfold dropTask
  split_ifs <;> rfl

@[simp] theorem dropTask_wakeCondition (t : FullThreadState) (id : Int) :
    (t.dropTask id).2.wakeCondition = t.wakeCondition := by
  unfold dropTask
  split_ifs <;> rfl

@[simp] theorem dropTask_metrics (t : FullThreadState) (id : Int) :
    (t.dropTask id).2.metrics = t.metrics := by
  unfold dropTask
  split_ifs <;> rfl

end FullThreadState

namespace Adaptor

/-- The threads `task_to_threads` lists for a task. -/
def listed (s : Adaptor) (taskId : Int) : ExtTreeSet Int :=
  s.taskToThreads[taskId]?.getD ∅

/-- `task_done` goes through the threads listed for the task first, and then through all. -/
theorem taskDone_eq (s : Adaptor) (id : Int) :
    s.taskDone id =
      let listed := forThreads (fun s T => s.removeThreadAssociation T id) (s.listed id).toList s
      let all := forThreads (removeTaskFromPool id) listed.2.threads.keys listed.2
      let s := if all.1 || listed.1 then all.2.wakeUpThreadsAfterTaskFinishes else all.2
      { s with taskToThreads := s.taskToThreads.erase id } := by
  unfold taskDone listed
  cases s.taskToThreads[id]? with
  | none => rfl
  | some threadIds => rfl

/-! ### Updating one entry -/

section Updates

variable (s : Adaptor) (T U : Int) (t : FullThreadState) (st : ThreadState) (c : Nat)

theorem threads_setThread :
    (s.setThread T t).threads[U]? = if T = U then some t else s.threads[U]? :=
  ExtTreeMap.getElem?_insert_eq ..

theorem threads_eraseThread :
    (s.eraseThread T).threads[U]? = if T = U then none else s.threads[U]? :=
  ExtTreeMap.getElem?_erase_eq ..

theorem threads_transition :
    (s.transition T st).threads[U]? =
      if T = U then s.threads[U]?.map fun t => { t with state := st } else s.threads[U]? :=
  ExtTreeMap.getElem?_modify_eq ..

@[simp] theorem threads_notifyAll : (s.notifyAll c).threads = s.threads := rfl

@[simp] theorem sleepers_setThread : (s.setThread T t).sleepers = s.sleepers := rfl
@[simp] theorem sleepers_eraseThread : (s.eraseThread T).sleepers = s.sleepers := rfl
@[simp] theorem sleepers_transition : (s.transition T st).sleepers = s.sleepers := rfl

theorem sleepers_notifyAll :
    (s.notifyAll c).sleepers[U]? = s.sleepers[U]?.map (Sleeper.notify c) :=
  ExtTreeMap.getElem?_map

theorem threads_checkpointMetrics :
    (s.checkpointMetrics T t).threads[U]? =
      if T = U then some t.checkpointed else s.threads[U]? :=
  threads_setThread ..

@[simp] theorem sleepers_checkpointMetrics : (s.checkpointMetrics T t).sleepers = s.sleepers := rfl

end Updates

/-! ### Removing threads -/

@[simp] theorem threads_unlinkThread (s : Adaptor) (id T : Int) :
    (s.unlinkThread id T).threads = s.threads := by
  unfold unlinkThread
  split_ifs <;> rfl

@[simp] theorem sleepers_unlinkThread (s : Adaptor) (id T : Int) :
    (s.unlinkThread id T).sleepers = s.sleepers := by
  unfold unlinkThread
  split_ifs <;> rfl

/-- `removeEntry` marks or erases the entry of its own thread. -/
theorem threads_removeEntry {s : Adaptor} {T : Int} {t : FullThreadState}
    (hT : s.threads[T]? = some t) (U : Int) :
    (s.removeEntry T t).2.threads[U]? =
      if T = U then if isBlocked t.state then some { t with state := .removeThrow } else none
      else s.threads[U]? := by
  unfold removeEntry
  by_cases hU : T = U
  · subst hU
    cases hst : t.state <;>
      simp [threads_transition, threads_eraseThread, isBlocked, hT]
  · cases hst : t.state <;>
      simp [threads_transition, threads_eraseThread, hU]

/-- `remove_thread_association` touches the entry of its own thread only. -/
theorem threads_removeThreadAssociation (s : Adaptor) (T id U : Int) :
    (s.removeThreadAssociation T id).2.threads[U]? =
      if T = U then s.threads[U]?.bind fun t => t.removed id else s.threads[U]? := by
  unfold removeThreadAssociation
  cases hT : s.threads[T]? with
  | none =>
    by_cases hU : T = U
    · rw [if_pos hU, ← hU, hT]
      rfl
    · rw [if_neg hU]
  | some t =>
    have hset : ∀ V, ((s.checkpointMetrics T t).setThread T
        (t.checkpointed.dropTask id).2).threads[V]? =
        if T = V then some (t.checkpointed.dropTask id).2 else s.threads[V]? := by
      intro V
      rw [threads_setThread, threads_checkpointMetrics]
      split_ifs <;> rfl
    by_cases hr : (t.checkpointed.dropTask id).1 = true
    · simp only [hr, if_true]
      rw [threads_removeEntry (by rw [threads_unlinkThread, hset, if_pos rfl]),
        threads_unlinkThread, hset]
      by_cases hU : T = U
      · simp [← hU, hT, FullThreadState.removed, hr]
      · simp [hU]
    · simp only [hr, Bool.false_eq_true, if_false]
      rw [hset]
      by_cases hU : T = U
      · simp [← hU, hT, FullThreadState.removed, hr]
      · simp [hU]

/-- The fields of the adaptor that removing threads leaves alone. -/
structure Counters where
  nextCondition : Nat
  shuttingDown : Bool
  gpuMemoryAllocatedBytes : Int

def counters (s : Adaptor) : Counters where
  nextCondition := s.nextCondition
  shuttingDown := s.shuttingDown
  gpuMemoryAllocatedBytes := s.gpuMemoryAllocatedBytes

/-- Removing a thread uses up no condition variable, does not shut the adaptor down and frees
nothing. -/
theorem counters_removeThreadAssociation (s : Adaptor) (T id : Int) :
    (s.removeThreadAssociation T id).2.counters = s.counters := by
  unfold removeThreadAssociation
  cases s.threads[T]? with
  | none => rfl
  | some t =>
    dsimp only
    split_ifs
    · unfold removeEntry unlinkThread
      cases (t.checkpointed.dropTask id).2.state <;> dsimp only <;> split_ifs <;> rfl
    · rfl

theorem threads_removeTaskFromPool (s : Adaptor) (T id U : Int) :
    (removeTaskFromPool id s T).2.threads[U]? =
      if T = U then s.threads[U]?.bind fun t => t.droppedFromPool id else s.threads[U]? := by
  unfold removeTaskFromPool
  cases hT : s.threads[T]? with
  | none =>
    by_cases hU : T = U
    · rw [if_pos hU, ← hU, hT]
      rfl
    · rw [if_neg hU]
  | some t =>
    have hdrop : T = U → s.threads[U]?.bind (fun t => t.droppedFromPool id) =
        t.droppedFromPool id := by
      rintro rfl
      rw [hT, Option.bind_some]
    by_cases hid : id ∈ t.poolTaskIds
    · by_cases hempty : (t.poolTaskIds.erase id).isEmpty = true
      · simp only [hid, hempty, if_true]
        rw [threads_removeThreadAssociation, threads_setThread]
        by_cases hU : T = U
        · rw [if_pos hU, if_pos hU, if_pos hU, Option.bind_some, hdrop hU]
          simp only [FullThreadState.droppedFromPool, hid, hempty, if_true]
        · simp only [hU, if_false]
      · simp only [hid, hempty, if_true, Bool.false_eq_true, if_false]
        rw [threads_setThread]
        by_cases hU : T = U
        · rw [if_pos hU, if_pos hU, hdrop hU]
          simp only [FullThreadState.droppedFromPool, hid, hempty, if_true, Bool.false_eq_true,
            if_false]
        · simp only [hU, if_false]
    · simp only [hid, if_false]
      by_cases hU : T = U
      · rw [if_pos hU, hdrop hU, ← hU, hT]
        simp only [FullThreadState.droppedFromPool, hid, if_false]
      · rw [if_neg hU]

/-- A loop whose turn for a thread changes that thread's entry by `g` and no other entry changes
the entry of each of its threads by `g`, once. -/
theorem threads_forThreads {f : Adaptor → Int → Bool × Adaptor}
    {g : FullThreadState → Option FullThreadState}
    (hf : ∀ s T U, (f s T).2.threads[U]? = if T = U then s.threads[U]?.bind g else s.threads[U]?)
    (s : Adaptor) {ids : List Int} (hids : ids.Nodup) (U : Int) :
    (forThreads f ids s).2.threads[U]? =
      if U ∈ ids then s.threads[U]?.bind g else s.threads[U]? := by
  unfold forThreads
  generalize false = b
  induction ids generalizing b s with
  | nil => simp
  | cons T rest ih =>
    obtain ⟨hT, hrest⟩ := List.nodup_cons.1 hids
    rw [List.foldl_cons, ih _ hrest, hf]
    by_cases hU : T = U
    · subst hU
      simp [hT]
    · simp [hU, Ne.symm hU]

/-! ### Registering threads -/

/-- How `start_dedicated_task_thread` ends. -/
theorem startDedicatedTaskThread_cases (s : Adaptor) (T taskId : Int) :
    (s.shuttingDown = true ∧ ∃ e, s.startDedicatedTaskThread T taskId = (.threw e, s)) ∨
    (s.shuttingDown = false ∧
      (((s.fixup T taskId).threads[T]? = none ∧
          s.startDedicatedTaskThread T taskId =
            (.returned .unit, ((s.fixup T taskId).emplaceThread T taskId false).dedicate T taskId)) ∨
        (∃ t, (s.fixup T taskId).threads[T]? = some t ∧ t.state ≠ .removeThrow ∧
          t.taskId = taskId ∧
          s.startDedicatedTaskThread T taskId =
            (.returned .unit, (s.fixup T taskId).dedicate T taskId)) ∨
        ∃ t e, (s.fixup T taskId).threads[T]? = some t ∧
          s.startDedicatedTaskThread T taskId = (.threw e, s.fixup T taskId))) := by
  unfold startDedicatedTaskThread
  by_cases hdown : s.shuttingDown = true
  · rw [if_pos hdown]
    exact .inl ⟨hdown, _, rfl⟩
  · rw [if_neg hdown]
    refine .inr ⟨by simpa using hdown, ?_⟩
    dsimp only
    cases hT : (s.fixup T taskId).threads[T]? with
    | none => exact .inl ⟨rfl, rfl⟩
    | some t =>
      dsimp only
      split_ifs with hst hid
      · exact .inr (.inr ⟨t, _, rfl, rfl⟩)
      · exact .inr (.inr ⟨t, _, rfl, rfl⟩)
      · exact .inr (.inl ⟨t, rfl, hst, by simpa using hid, rfl⟩)

/-- How `pool_thread_working_on_tasks` ends. -/
theorem poolThreadWorkingOnTasks_cases (s : Adaptor) (isForShuffle : Bool) (T : Int)
    (taskIds : ExtTreeSet Int) :
    (∃ e, s.poolThreadWorkingOnTasks isForShuffle T taskIds = (.threw e, s)) ∨
    (s.shuttingDown = false ∧
      ((s.threads[T]? = none ∧
          s.poolThreadWorkingOnTasks isForShuffle T taskIds =
            (.returned .unit, (s.emplaceThread T (-1) isForShuffle).addPoolTasks T
              (s.newThread T (-1) isForShuffle) taskIds)) ∨
        ∃ t, s.threads[T]? = some t ∧ t.taskId = -1 ∧ t.state ≠ .removeThrow ∧
          s.poolThreadWorkingOnTasks isForShuffle T taskIds =
            (.returned .unit, s.addPoolTasks T t taskIds))) := by
  unfold poolThreadWorkingOnTasks
  by_cases hdown : s.shuttingDown = true
  · rw [if_pos hdown]
    exact .inl ⟨_, rfl⟩
  · rw [if_neg hdown]
    have hopen : s.shuttingDown = false := by simpa using hdown
    cases hT : s.threads[T]? with
    | none => exact .inr ⟨hopen, .inl ⟨rfl, rfl⟩⟩
    | some t =>
      dsimp only
      by_cases hid : t.taskId ≠ -1
      · rw [if_pos hid]
        exact .inl ⟨_, rfl⟩
      by_cases hst : t.state = .removeThrow
      · rw [if_neg hid, if_pos hst]
        exact .inl ⟨_, rfl⟩
      by_cases hsh : t.isForShuffle ≠ isForShuffle
      · rw [if_neg hid, if_neg hst, if_pos hsh]
        exact .inl ⟨_, rfl⟩
      · rw [if_neg hid, if_neg hst, if_neg hsh]
        exact .inr ⟨hopen, .inr ⟨t, rfl, by simpa using hid, hst, rfl⟩⟩

/-- The FIXUP removes the thread or does nothing. -/
theorem fixup_cases (s : Adaptor) (T taskId : Int) :
    (s.fixup T taskId = s ∧
      ∀ t, s.threads[T]? = some t → 0 ≤ t.taskId → t.taskId = taskId) ∨
    ∃ t, s.threads[T]? = some t ∧ 0 ≤ t.taskId ∧ t.taskId ≠ taskId ∧
      s.fixup T taskId = (s.removeThreadAssociation T t.taskId).2 := by
  unfold fixup
  cases hT : s.threads[T]? with
  | none => exact .inl ⟨rfl, fun t ht => by cases ht⟩
  | some t =>
    dsimp only
    by_cases h : 0 ≤ t.taskId ∧ t.taskId ≠ taskId
    · rw [if_pos h]
      exact .inr ⟨t, rfl, h.1, h.2, rfl⟩
    · rw [if_neg h]
      refine .inl ⟨rfl, fun t' ht' h0 => ?_⟩
      cases ht'
      by_contra hne
      exact h ⟨h0, hne⟩

theorem counters_fixup (s : Adaptor) (T taskId : Int) :
    (s.fixup T taskId).counters = s.counters := by
  obtain ⟨h, -⟩ | ⟨t, -, -, -, h⟩ := fixup_cases s T taskId
  · rw [h]
  · rw [h]
    exact counters_removeThreadAssociation ..

theorem threads_emplaceThread (s : Adaptor) (T taskId : Int) (isForShuffle : Bool) (U : Int) :
    (s.emplaceThread T taskId isForShuffle).threads[U]? =
      if T = U then some (s.newThread T taskId isForShuffle) else s.threads[U]? :=
  threads_setThread ..

theorem threads_addPoolTasks (s : Adaptor) (T : Int) (t : FullThreadState)
    (taskIds : ExtTreeSet Int) (U : Int) :
    (s.addPoolTasks T t taskIds).threads[U]? =
      if T = U then
        some { t.checkpointed with
          poolTaskIds := taskIds.toList.foldl (fun ids id => ids.insert id) t.poolTaskIds }
      else s.threads[U]? := by
  unfold addPoolTasks
  rw [threads_setThread, threads_checkpointMetrics]
  split_ifs <;> rfl

end Adaptor

/-! ### The entry an operation leaves -/

/-- The entry `t` of `U` once the removals of the operation are done, before any thread is woken. -/
def Op.removedEntry (s : Adaptor) (U : Int) (t : FullThreadState) : Op → Option FullThreadState
  | .removeThreadAssociation threadId taskId =>
    if threadId = U then t.removed taskId else some t
  | .poolThreadFinishedForTasks threadId taskIds =>
    if threadId = U ∧ s.shuttingDown = false then t.finishedForTasks taskIds else some t
  | .taskDone taskId =>
    (if U ∈ s.listed taskId then t.removed taskId else some t).bind
      fun t => t.droppedFromPool taskId
  | .startDedicatedTaskThread threadId taskId =>
    if threadId = U ∧ s.shuttingDown = false ∧ 0 ≤ t.taskId ∧ t.taskId ≠ taskId then
      t.removed t.taskId
    else some t
  | .allDone => t.removed (-1)
  | _ => some t

/-- The operation takes the registration of `U` away. -/
def Op.Erases (s : Adaptor) (op : Op) (U : Int) : Prop :=
  ∃ t ∈ s.threads[U]?, op.removedEntry s U t = none

instance (s : Adaptor) (op : Op) (U : Int) : Decidable (op.Erases s U) :=
  decidable_of_iff ((s.threads[U]?.any fun t => (op.removedEntry s U t).isNone) = true) (by
    unfold Op.Erases
    cases s.threads[U]? with
    | none => simp
    | some t => simp)

end SparkRapids.ResourceAdaptor
