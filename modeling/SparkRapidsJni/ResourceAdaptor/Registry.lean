import SparkRapidsJni.ResourceAdaptor.AllocFree

/-!
# `task_to_threads` and `threads`

Two maps say which threads are dedicated to a task: `task_to_threads` lists them, and the entry of a
thread in `threads` holds its task id. The metrics of a task are read and reset through the first
map, so a thread it lists in error lends its metrics to another task.

The maps agree (`Consistent`) as long as no operation removes a dedicated thread with a negative
task id, which stands for all its tasks: `remove_thread_association` erases such a thread from
`threads` and from no set of `task_to_threads`. Everything else keeps them in agreement, and then
the metrics of a task are those of the threads dedicated to it (`registry_consistent`).
-/

namespace SparkRapids.ResourceAdaptor

open Std (ExtTreeMap ExtTreeSet)
open FullThreadState

/-- The thread has a task of its own, and is not marked for removal. -/
def FullThreadState.isDedicated (t : FullThreadState) : Bool :=
  0 ≤ t.taskId && t.state ≠ .removeThrow

/-- The task id of the thread's entry, if it has one that is not marked for removal. -/
def Snapshot.dedication (x : Snapshot) : Option Int :=
  x.entry.bind fun e => if e.state = .removeThrow then none else some e.taskId

namespace Adaptor

/-- The two maps agree on the threads that are dedicated to a task. -/
def Consistent (s : Adaptor) : Prop :=
  ∀ (T taskId : Int), 0 ≤ taskId →
    (T ∈ s.listed taskId ↔
      ∃ t, s.threads[T]? = some t ∧ t.taskId = taskId ∧ t.state ≠ .removeThrow)

/-- The threads the operation removes with a negative task id, which stands for all tasks. -/
def removedWholly (s : Adaptor) : Op → List Int
  | .removeThreadAssociation threadId taskId => if taskId < 0 then [threadId] else []
  | .poolThreadFinishedForTasks threadId _ => if s.shuttingDown then [] else [threadId]
  | .taskDone taskId =>
    if taskId < 0 then
      (s.threads.toList.filter fun kt =>
        (s.listed taskId).contains kt.1 || kt.2.poolTaskIds.contains taskId).map Prod.fst
    else []
  | .allDone => s.threads.keys
  | _ => []

/-- The operation removes no dedicated thread with a negative task id. -/
def KeepsRegistry (s : Adaptor) (op : Op) : Prop :=
  ∀ T ∈ s.removedWholly op, (s.threads[T]?.any fun t => t.isDedicated) = false

instance (s : Adaptor) (op : Op) : Decidable (s.KeepsRegistry op) :=
  inferInstanceAs (Decidable (∀ T ∈ s.removedWholly op, _))

/-- The registered threads that are dedicated to a task. -/
def dedicatedThreads (s : Adaptor) (taskId : Int) : List (Int × FullThreadState) :=
  s.threads.toList.filter fun kt => kt.2.taskId = taskId && kt.2.state ≠ .removeThrow

/-- The metrics of a task are those of the threads dedicated to it, and what is kept for the task
itself. -/
structure MetricsFromDedicated (s : Adaptor) (taskId : Int) : Prop where
  getMetric : ∀ metric, s.getMetric taskId metric =
    ((s.dedicatedThreads taskId).map fun kt => metric.get kt.2.metrics).sum +
      ((s.taskToMetrics[taskId]?.map metric.get).getD 0)
  getTotalBlockedOrLost : s.getTotalBlockedOrLost taskId =
    ((s.dedicatedThreads taskId).map fun kt =>
        (kt.2.currentlyBlockedFor s.now : Int) + kt.2.metrics.timeLostOrBlocked).sum +
      ((s.taskToMetrics[taskId]?.map fun m => (m.timeLostOrBlocked : Int)).getD 0)
  getAndResetMetric : ∀ metric, (s.getAndResetMetric taskId metric).1 = s.getMetric taskId metric
  reset : ∀ metric (T : Int), (s.getAndResetMetric taskId metric).2.threads[T]? =
    s.threads[T]?.map fun t =>
      if t.taskId = taskId ∧ t.state ≠ .removeThrow then
        { t with metrics := metric.reset t.metrics }
      else t

/-- The task id of the entry of `T`, if it has one that is not marked for removal. -/
def dedication (s : Adaptor) (T : Int) : Option Int :=
  (s.snapshot T).dedication

variable {s s' : Adaptor} {T U id : Int}

/-! ### Dedications -/

theorem dedication_eq (s : Adaptor) (T : Int) :
    s.dedication T =
      s.threads[T]?.bind fun t => if t.state = .removeThrow then none else some t.taskId := by
  unfold dedication Snapshot.dedication
  cases hT : s.threads[T]? with
  | none => rw [snapshot_of_none hT]; rfl
  | some t => rw [snapshot_of_some hT]; rfl

theorem dedication_eq_some_iff :
    s.dedication T = some id ↔
      ∃ t, s.threads[T]? = some t ∧ t.taskId = id ∧ t.state ≠ .removeThrow := by
  rw [dedication_eq]
  constructor
  · intro h
    obtain ⟨t, hT, ht⟩ := Option.bind_eq_some_iff.1 h
    split_ifs at ht with hst
    exact ⟨t, hT, Option.some_inj.1 ht, hst⟩
  · rintro ⟨t, hT, rfl, hst⟩
    rw [hT, Option.bind_some, if_neg hst]

theorem consistent_iff :
    s.Consistent ↔ ∀ T taskId, 0 ≤ taskId → (T ∈ s.listed taskId ↔ s.dedication T = some taskId) := by
  simp only [Consistent, dedication_eq_some_iff]

theorem dedication_congr (h : s'.threads[T]? = s.threads[T]?) :
    s'.dedication T = s.dedication T := by
  rw [dedication_eq, dedication_eq, h]

theorem dedication_of_eq {t t' : FullThreadState} (hT : s.threads[T]? = some t)
    (hT' : s'.threads[T]? = some t') (hstate : t'.state = t.state) (hid : t'.taskId = t.taskId) :
    s'.dedication T = s.dedication T := by
  rw [dedication_eq, dedication_eq, hT, hT', Option.bind_some, Option.bind_some, hstate, hid]

/-- Agreement only depends on what is listed and on the dedications to tasks. -/
theorem Consistent.of_iff (hs : s.Consistent) (hlisted : ∀ taskId, s'.listed taskId = s.listed taskId)
    (hded : ∀ T taskId, 0 ≤ taskId → (s'.dedication T = some taskId ↔ s.dedication T = some taskId)) :
    s'.Consistent := by
  rw [consistent_iff] at hs ⊢
  intro T taskId h0
  rw [hlisted, hded T taskId h0]
  exact hs T taskId h0

theorem Consistent.congr (hs : s.Consistent) (hlisted : ∀ taskId, s'.listed taskId = s.listed taskId)
    (hded : ∀ T, s'.dedication T = s.dedication T) : s'.Consistent :=
  hs.of_iff hlisted fun T _ _ => by rw [hded T]

theorem listed_of_books (h : s'.books = s.books) (taskId : Int) :
    s'.listed taskId = s.listed taskId := by
  unfold listed
  rw [show s'.taskToThreads = s.taskToThreads from congrArg Books.taskToThreads h]

/-- Waking threads that are not marked for removal keeps their dedication. -/
theorem dedication_wakeThreadsIn {wakes : ThreadState → Bool} (h : wakes .removeThrow = false) :
    (s.wakeThreadsIn wakes).dedication T = s.dedication T := by
  rw [dedication_eq, dedication_eq, threads_wakeThreadsIn]
  cases s.threads[T]? with
  | none => rfl
  | some t =>
    rw [Option.map_some, Option.bind_some, Option.bind_some]
    by_cases hw : wakes t.state = true
    · have hst : t.state ≠ .removeThrow := by
        rintro hst
        rw [hst, h] at hw
        cases hw
      rw [if_pos hw, if_neg hst]
      rfl
    · rw [if_neg hw]

theorem dedication_wakeUp : s.wakeUpThreadsAfterTaskFinishes.dedication T = s.dedication T := by
  unfold wakeUpThreadsAfterTaskFinishes
  dsimp only
  split_ifs
  · exact dedication_wakeThreadsIn (by decide)
  · rw [dedication_wakeThreadsIn (by decide), dedication_wakeThreadsIn (by decide)]

theorem consistent_wakeUp (hs : s.Consistent) : s.wakeUpThreadsAfterTaskFinishes.Consistent :=
  hs.congr (listed_of_books (congrArg Ledger.toBooks (ledger_wakeUpThreadsAfterTaskFinishes s))) fun _ => dedication_wakeUp

/-! ### Removing one thread -/

/-- `remove_thread_association` with this id removes the thread. -/
def IsRemoved (s : Adaptor) (T id : Int) : Prop :=
  ∃ t, s.threads[T]? = some t ∧ (t.checkpointed.dropTask id).1 = true

theorem mem_listed_unlinkThread {taskId : Int} :
    U ∈ (s.unlinkThread id T).listed taskId ↔
      U ∈ s.listed taskId ∧ ¬(U = T ∧ 0 ≤ id ∧ taskId = id) := by
  unfold unlinkThread listed
  by_cases h0 : 0 ≤ id
  · rw [if_pos h0]
    dsimp only
    rw [ExtTreeMap.getElem?_modify_eq]
    by_cases hid : id = taskId
    · rw [if_pos hid]
      subst hid
      cases s.taskToThreads[id]? with
      | none => simp
      | some threadIds =>
        simp only [Option.map_some, Option.getD_some, ExtTreeSet.mem_erase_iff, h0, and_true]
        tauto
    · rw [if_neg hid]
      have hne : taskId ≠ id := Ne.symm hid
      simp [hne]
  · rw [if_neg h0]
    simp [h0]

theorem listed_removeEntry (t : FullThreadState) (taskId : Int) :
    (s.removeEntry T t).2.listed taskId = s.listed taskId := by
  unfold removeEntry listed
  cases t.state <;> rfl

/-- Removing a thread takes it off the list of the task it is removed from. -/
theorem mem_listed_removeThreadAssociation {taskId : Int} :
    U ∈ (s.removeThreadAssociation T id).2.listed taskId ↔
      U ∈ s.listed taskId ∧ ¬(U = T ∧ s.IsRemoved T id ∧ 0 ≤ id ∧ taskId = id) := by
  unfold removeThreadAssociation IsRemoved
  cases hT : s.threads[T]? with
  | none => simp
  | some t =>
    dsimp only
    by_cases hr : (t.checkpointed.dropTask id).1 = true
    · rw [if_pos hr, listed_removeEntry, mem_listed_unlinkThread]
      have hsame : ((s.checkpointMetrics T t).setThread T
          (t.checkpointed.dropTask id).2).listed taskId = s.listed taskId := rfl
      rw [hsame]
      simp [hr]
    · rw [if_neg hr]
      have hsame : ((s.checkpointMetrics T t).setThread T
          (t.checkpointed.dropTask id).2).listed taskId = s.listed taskId := rfl
      rw [hsame]
      simp [hr]

/-- Removing a thread ends its dedication, whether its entry is marked or erased. -/
theorem dedication_removeThreadAssociation :
    (s.removeThreadAssociation T id).2.dedication U =
      open Classical in if U = T ∧ s.IsRemoved T id then none else s.dedication U := by
  by_cases hU : T = U
  · subst hU
    rw [dedication_eq, dedication_eq, threads_removeThreadAssociation, if_pos rfl]
    cases hT : s.threads[T]? with
    | none => simp
    | some t =>
      rw [Option.bind_some, Option.bind_some]
      unfold removed
      have hrem : s.IsRemoved T id ↔ (t.checkpointed.dropTask id).1 = true := by
        simp [IsRemoved, hT]
      have hstate : (t.checkpointed.dropTask id).2.state = t.state :=
        dropTask_state ..
      have htask : (t.checkpointed.dropTask id).2.taskId = t.taskId :=
        dropTask_taskId ..
      by_cases hr : (t.checkpointed.dropTask id).1 = true
      · rw [if_pos ⟨rfl, hrem.2 hr⟩]
        dsimp only
        rw [if_pos hr]
        split_ifs <;> rfl
      · rw [if_neg fun h => hr (hrem.1 h.2)]
        dsimp only
        rw [if_neg hr, Option.bind_some, hstate, htask]
  · rw [if_neg fun h => hU h.1.symm]
    exact dedication_congr (by rw [threads_removeThreadAssociation, if_neg hU])

/-- A dedication that is there after the removal was there before. -/
theorem dedication_of_removeThreadAssociation {taskId : Int}
    (h : (s.removeThreadAssociation T id).2.dedication U = some taskId) :
    s.dedication U = some taskId := by
  classical
  rw [dedication_removeThreadAssociation] at h
  split_ifs at h
  exact h

/-- A thread that has a task of its own is removed by that task only, or by a negative id. -/
theorem isRemoved_of_dedication {taskId : Int} (hded : s.dedication T = some taskId)
    (h0 : 0 ≤ taskId) (h : s.IsRemoved T id) : id < 0 ∨ taskId = id := by
  obtain ⟨t, hT, rfl, -⟩ := dedication_eq_some_iff.1 hded
  obtain ⟨t', hT', hr⟩ := h
  rw [hT] at hT'
  cases hT'
  by_contra hno
  push Not at hno
  unfold dropTask at hr
  have htask : t.checkpointed.taskId = t.taskId := rfl
  rw [htask, if_neg (by omega), if_pos h0] at hr
  exact hno.2 (of_decide_eq_true hr)

/-- **One removal** keeps the maps in agreement, unless it removes a dedicated thread with a
negative id. -/
theorem consistent_removeThreadAssociation (hs : s.Consistent)
    (hneg : id < 0 → ∀ taskId, 0 ≤ taskId → s.dedication T ≠ some taskId) :
    (s.removeThreadAssociation T id).2.Consistent := by
  classical
  rw [consistent_iff] at hs ⊢
  intro U taskId h0
  rw [mem_listed_removeThreadAssociation, dedication_removeThreadAssociation, hs U taskId h0]
  by_cases hrem : U = T ∧ s.IsRemoved T id
  · obtain ⟨rfl, hrem⟩ := hrem
    rw [if_pos ⟨rfl, hrem⟩]
    refine iff_of_false ?_ (by simp)
    rintro ⟨hded, hnot⟩
    rcases isRemoved_of_dedication hded h0 hrem with hid | rfl
    · exact hneg hid taskId h0 hded
    · exact hnot ⟨rfl, hrem, h0, rfl⟩
  · rw [if_neg hrem]
    exact and_iff_left fun h => hrem ⟨h.1, h.2.1⟩

/-! ### Removing many threads -/

/-- No turn of the loop removes a dedicated thread with a negative id. -/
def Undedicated (s : Adaptor) (id T : Int) : Prop :=
  id < 0 → ∀ taskId, 0 ≤ taskId → s.dedication T ≠ some taskId

/-- A loop keeps what each of its turns keeps, given a condition on the threads still to come that
no turn breaks. -/
theorem forThreads_preserves {f : Adaptor → Int → Bool × Adaptor} {P : Adaptor → Prop}
    {C : Adaptor → Int → Prop} (hP : ∀ s T, P s → C s T → P (f s T).2)
    (hC : ∀ s T U, C s U → C (f s T).2 U) {ids : List Int} (hs : P s) (hids : ∀ T ∈ ids, C s T) :
    P (forThreads f ids s).2 := by
  unfold forThreads
  generalize false = b
  induction ids generalizing b s with
  | nil => exact hs
  | cons T rest ih =>
    rw [List.foldl_cons]
    exact ih (hP s T hs (hids T (.head _)))
      (fun U hU => hC s T U (hids U (.tail _ hU))) _

theorem undedicated_removeThreadAssociation {id' : Int} (h : s.Undedicated id U) :
    (s.removeThreadAssociation T id').2.Undedicated id U :=
  fun hneg taskId h0 hded => h hneg taskId h0 (dedication_of_removeThreadAssociation hded)

/-- The loops of `task_done` over the listed threads and of `all_done`. -/
theorem consistent_removeThreads {ids : List Int} (hs : s.Consistent)
    (hids : ∀ T ∈ ids, s.Undedicated id T) :
    (forThreads (fun s T => s.removeThreadAssociation T id) ids s).2.Consistent :=
  forThreads_preserves (P := Consistent) (C := fun s T => s.Undedicated id T)
    (fun _ _ hs hC => consistent_removeThreadAssociation hs hC)
    (fun _ _ _ h => undedicated_removeThreadAssociation h) hs hids

/-- Dropping a task from the pool tasks of a thread is a removal of the thread, or keeps both
maps. -/
theorem removeTaskFromPool_cases (s : Adaptor) (T id : Int) :
    ((removeTaskFromPool id s T).2.listed = s.listed ∧
      ∀ U, (removeTaskFromPool id s T).2.dedication U = s.dedication U) ∨
    ∃ (s1 : Adaptor) (t : FullThreadState), s.threads[T]? = some t ∧ id ∈ t.poolTaskIds ∧
      s1.listed = s.listed ∧ (∀ U, s1.dedication U = s.dedication U) ∧
      (removeTaskFromPool id s T).2 = (s1.removeThreadAssociation T id).2 := by
  unfold removeTaskFromPool
  cases hT : s.threads[T]? with
  | none => exact .inl ⟨rfl, fun _ => rfl⟩
  | some t =>
    have hded : ∀ U, (s.setThread T { t with poolTaskIds := t.poolTaskIds.erase id }).dedication U =
        s.dedication U := by
      intro U
      by_cases hU : T = U
      · subst hU
        have hT' := threads_setThread s T T { t with poolTaskIds := t.poolTaskIds.erase id }
        rw [if_pos rfl] at hT'
        exact dedication_of_eq hT hT' rfl rfl
      · exact dedication_congr (by rw [threads_setThread, if_neg hU])
    dsimp only
    by_cases hid : id ∈ t.poolTaskIds
    · rw [if_pos hid]
      by_cases hempty : (t.poolTaskIds.erase id).isEmpty = true
      · rw [if_pos hempty]
        exact .inr ⟨s.setThread T { t with poolTaskIds := t.poolTaskIds.erase id }, t, rfl, hid,
          rfl, hded, rfl⟩
      · rw [if_neg hempty]
        exact .inl ⟨rfl, hded⟩
    · rw [if_neg hid]
      exact .inl ⟨rfl, fun _ => rfl⟩

theorem dedication_of_removeTaskFromPool {taskId : Int}
    (h : (removeTaskFromPool id s T).2.dedication U = some taskId) :
    s.dedication U = some taskId := by
  obtain ⟨-, hded⟩ | ⟨s1, t, -, -, -, hded, heq⟩ := removeTaskFromPool_cases s T id
  · rwa [hded] at h
  · rw [heq] at h
    rw [← hded]
    exact dedication_of_removeThreadAssociation h

/-- With a negative id, a thread that works on the task as a pool thread is not dedicated. -/
def UndedicatedPool (s : Adaptor) (id T : Int) : Prop :=
  ∀ t, s.threads[T]? = some t → id ∈ t.poolTaskIds → s.Undedicated id T

theorem consistent_removeTaskFromPool (hs : s.Consistent) (h : s.UndedicatedPool id T) :
    (removeTaskFromPool id s T).2.Consistent := by
  obtain ⟨hlisted, hded⟩ | ⟨s1, t, hT, hid, hlisted, hded, heq⟩ := removeTaskFromPool_cases s T id
  · exact hs.congr (fun _ => by rw [hlisted]) hded
  · rw [heq]
    refine consistent_removeThreadAssociation (hs.congr (fun _ => by rw [hlisted]) hded) ?_
    intro hneg taskId h0
    rw [hded]
    exact h t hT hid hneg taskId h0

/-- What `remove_thread_association` leaves of a thread works on no new task. -/
theorem mem_poolTaskIds_of_removed {t t' : FullThreadState} {id' : Int} (h : t.removed id' = some t')
    (hid : id ∈ t'.poolTaskIds) : id ∈ t.poolTaskIds := by
  have hdrop : ∀ {x}, x ∈ (t.checkpointed.dropTask id').2.poolTaskIds → x ∈ t.poolTaskIds := by
    intro x hx
    unfold dropTask at hx
    split_ifs at hx
    · exact hx
    · exact hx
    · exact (ExtTreeSet.mem_erase_iff.1 hx).2
  unfold removed at h
  dsimp only at h
  split_ifs at h
  · cases h
    exact hdrop hid
  · cases h
    exact hdrop hid

theorem mem_poolTaskIds_of_droppedFromPool {t t' : FullThreadState} {id' : Int}
    (h : t.droppedFromPool id' = some t') (hid : id ∈ t'.poolTaskIds) : id ∈ t.poolTaskIds := by
  unfold droppedFromPool at h
  dsimp only at h
  split_ifs at h
  · exact (ExtTreeSet.mem_erase_iff.1 (mem_poolTaskIds_of_removed h hid)).2
  · cases h
    exact (ExtTreeSet.mem_erase_iff.1 hid).2
  · cases h
    exact hid

theorem undedicatedPool_removeTaskFromPool {id' : Int} (h : s.UndedicatedPool id U) :
    (removeTaskFromPool id' s T).2.UndedicatedPool id U := by
  intro t' hU' hid hneg taskId h0 hded
  rw [threads_removeTaskFromPool] at hU'
  have hded' := dedication_of_removeTaskFromPool hded
  split_ifs at hU'
  · obtain ⟨t, hU, ht⟩ := Option.bind_eq_some_iff.1 hU'
    exact h t hU (mem_poolTaskIds_of_droppedFromPool ht hid) hneg taskId h0 hded'
  · exact h t' hU' hid hneg taskId h0 hded'

theorem undedicatedPool_removeThreadAssociation {id' : Int} (h : s.UndedicatedPool id U) :
    (s.removeThreadAssociation T id').2.UndedicatedPool id U := by
  intro t' hU' hid hneg taskId h0 hded
  rw [threads_removeThreadAssociation] at hU'
  have hded' := dedication_of_removeThreadAssociation hded
  split_ifs at hU'
  · obtain ⟨t, hU, ht⟩ := Option.bind_eq_some_iff.1 hU'
    exact h t hU (mem_poolTaskIds_of_removed ht hid) hneg taskId h0 hded'
  · exact h t' hU' hid hneg taskId h0 hded'

/-! ### The operations -/

/-- After the first loop of `task_done` no thread is dedicated to the task. -/
theorem not_dedicated_removeThreads {ids : List Int} (hids : ids.Nodup) (hid : 0 ≤ id)
    (hall : ∀ T, s.dedication T = some id → T ∈ ids) :
    (forThreads (fun s T => s.removeThreadAssociation T id) ids s).2.dedication U ≠ some id := by
  intro hded
  obtain ⟨t', hU', htask, hst⟩ := dedication_eq_some_iff.1 hded
  rw [threads_forThreads (fun s T V => threads_removeThreadAssociation s T id V) s hids] at hU'
  have hbefore : ∀ t, s.threads[U]? = some t → t.taskId = id → t.state ≠ .removeThrow → U ∈ ids :=
    fun t hU ht hst => hall U (dedication_eq_some_iff.2 ⟨t, hU, ht, hst⟩)
  by_cases hU : U ∈ ids
  · rw [if_pos hU] at hU'
    obtain ⟨t, -, hrem⟩ := Option.bind_eq_some_iff.1 hU'
    unfold removed dropTask at hrem
    have hc : t.checkpointed.taskId = t.taskId := rfl
    rw [hc, if_neg (by omega)] at hrem
    dsimp only at hrem
    split_ifs at hrem with h0 heq hb hp hb
    all_goals cases hrem
    · exact hst rfl
    · exact heq (decide_eq_true htask)
    · exact hst rfl
    · exact h0 (hid.trans_eq htask.symm)
  · rw [if_neg hU] at hU'
    exact hU (hbefore t' hU' htask hst)

theorem undedicated_of_any (h : (s.threads[T]?.any fun t => t.isDedicated) = false) :
    s.Undedicated id T := by
  intro _ taskId h0 hded
  obtain ⟨t, hT, rfl, hst⟩ := dedication_eq_some_iff.1 hded
  rw [hT, Option.any_some] at h
  unfold isDedicated at h
  rw [decide_eq_true h0, decide_eq_true hst] at h
  cases h

theorem consistent_runChecks {r : Bool × Adaptor} (h : r.2.Consistent) :
    (if r.1 then r.2.wakeUpThreadsAfterTaskFinishes else r.2).Consistent := by
  split_ifs
  · exact consistent_wakeUp h
  · exact h

theorem consistent_poolThreadFinishedForTasks {taskIds : ExtTreeSet Int} (hs : s.Consistent)
    (hok : s.KeepsRegistry (.poolThreadFinishedForTasks T taskIds)) :
    (s.poolThreadFinishedForTasks T taskIds).2.Consistent := by
  unfold poolThreadFinishedForTasks
  by_cases hdown : s.shuttingDown = true
  · rw [if_pos hdown]
    exact hs
  · rw [if_neg hdown]
    cases hT : s.threads[T]? with
    | none => exact hs
    | some t =>
      dsimp only
      set poolTaskIds := taskIds.toList.foldl (fun ids id => ids.erase id) t.poolTaskIds
      set s1 := (s.checkpointMetrics T t).setThread T
        { t.checkpointed with poolTaskIds := poolTaskIds } with hs1
      have hded : ∀ U, s1.dedication U = s.dedication U := by
        intro U
        by_cases hU : T = U
        · subst hU
          have hT' := threads_setThread (s.checkpointMetrics T t) T T
            { t.checkpointed with poolTaskIds := poolTaskIds }
          rw [if_pos rfl] at hT'
          exact dedication_of_eq hT hT' rfl rfl
        · exact dedication_congr (by
            rw [hs1, threads_setThread, if_neg hU, threads_checkpointMetrics, if_neg hU])
      have hs1c : s1.Consistent := hs.congr (fun _ => rfl) hded
      by_cases hempty : poolTaskIds.isEmpty = true
      · rw [if_pos hempty]
        -- the thread is a pool thread, by the assumption on the call
        have hT' : (s.threads[T]?.any fun t => t.isDedicated) = false := by
          refine hok T ?_
          dsimp only [removedWholly]
          rw [if_neg hdown]
          exact List.mem_singleton_self T
        have hund : s1.Undedicated (-1) T := by
          intro hneg taskId h0
          rw [hded]
          exact undedicated_of_any hT' hneg taskId h0
        exact consistent_runChecks (consistent_removeThreadAssociation hs1c hund)
      · rw [if_neg hempty]
        exact hs1c

theorem mem_listed_erase {taskId : Int} :
    U ∈ ({ s with taskToThreads := s.taskToThreads.erase id } : Adaptor).listed taskId ↔
      U ∈ s.listed taskId ∧ taskId ≠ id := by
  unfold listed
  dsimp only
  rw [ExtTreeMap.getElem?_erase_eq]
  by_cases hid : id = taskId
  · rw [if_pos hid]
    simp [hid]
  · rw [if_neg hid]
    have hne : taskId ≠ id := Ne.symm hid
    simp [hne]

theorem consistent_taskDone (hs : s.Consistent) (hok : s.KeepsRegistry (.taskDone id)) :
    (s.taskDone id).Consistent := by
  -- with a negative id neither loop meets a dedicated thread
  have hmeets : ∀ T t, s.threads[T]? = some t → T ∈ s.listed id ∨ id ∈ t.poolTaskIds →
      s.Undedicated id T := by
    intro T t hT hmem hneg taskId h0
    refine undedicated_of_any (hok T ?_) hneg taskId h0
    dsimp only [removedWholly]
    rw [if_pos hneg]
    refine List.mem_map.2 ⟨(T, t), List.mem_filter.2 ⟨ExtTreeMap.mem_toList_iff.2 hT, ?_⟩, rfl⟩
    simpa using hmem
  have hlisted : ∀ T ∈ (s.listed id).toList, s.Undedicated id T := by
    intro T hmem hneg taskId h0 hded
    obtain ⟨t, hT, -⟩ := dedication_eq_some_iff.1 hded
    exact hmeets T t hT (.inl (ExtTreeSet.mem_toList.1 hmem)) hneg taskId h0 hded
  have hpool : ∀ T, s.UndedicatedPool id T := fun T t hT hid => hmeets T t hT (.inr hid)
  rw [taskDone_eq]
  dsimp only
  set s1 := (forThreads (fun s T => s.removeThreadAssociation T id) (s.listed id).toList s).2
    with hs1
  have hs1c : s1.Consistent := consistent_removeThreads hs hlisted
  have hpool1 : ∀ T, s1.UndedicatedPool id T :=
    forThreads_preserves (P := fun s => ∀ T, s.UndedicatedPool id T) (C := fun _ _ => True)
      (fun _ _ h _ U => undedicatedPool_removeThreadAssociation (h U)) (fun _ _ _ h => h) hpool
      (fun _ _ => trivial)
  have hnone1 : 0 ≤ id → ∀ U, s1.dedication U ≠ some id := fun h0 _ =>
    not_dedicated_removeThreads (ExtTreeSet.nodup_toList _) h0 fun T hded =>
      ExtTreeSet.mem_toList.2 ((consistent_iff.1 hs T id h0).2 hded)
  set s2 := (forThreads (removeTaskFromPool id) s1.threads.keys s1).2
  have hs2c : s2.Consistent :=
    forThreads_preserves (P := Consistent) (C := fun s T => s.UndedicatedPool id T)
      (fun _ _ hs h => consistent_removeTaskFromPool hs h)
      (fun _ _ _ h => undedicatedPool_removeTaskFromPool h) hs1c (fun T _ => hpool1 T)
  have hnone2 : 0 ≤ id → ∀ U, s2.dedication U ≠ some id := fun h0 =>
    forThreads_preserves (P := fun s => ∀ U, s.dedication U ≠ some id) (C := fun _ _ => True)
      (fun _ _ h _ U hded => h U (dedication_of_removeTaskFromPool hded)) (fun _ _ _ h => h)
      (hnone1 h0) (fun _ _ => trivial)
  have herase : ∀ s : Adaptor, s.Consistent → (0 ≤ id → ∀ U, s.dedication U ≠ some id) →
      ({ s with taskToThreads := s.taskToThreads.erase id } : Adaptor).Consistent := by
    intro s hs hnone
    rw [consistent_iff] at hs ⊢
    intro U taskId h0
    have hded : ({ s with taskToThreads := s.taskToThreads.erase id } : Adaptor).dedication U =
        s.dedication U := rfl
    rw [mem_listed_erase, hded, hs U taskId h0]
    refine and_iff_left_of_imp ?_
    rintro hU rfl
    exact hnone h0 U hU
  split_ifs
  · exact herase _ (consistent_wakeUp hs2c) fun h0 U => by
      rw [dedication_wakeUp]
      exact hnone2 h0 U
  · exact herase _ hs2c hnone2

theorem consistent_allDone (hs : s.Consistent) (hok : s.KeepsRegistry .allDone) :
    s.allDone.Consistent := by
  have hloop : (forThreads (fun s T => s.removeThreadAssociation T (-1)) s.threads.keys s).2.Consistent :=
    consistent_removeThreads hs fun T hT => undedicated_of_any (hok T hT)
  exact hloop.congr (fun _ => rfl) fun _ => rfl

theorem mem_listed_dedicate {taskId : Int} :
    U ∈ (s.dedicate T id).listed taskId ↔ U ∈ s.listed taskId ∨ U = T ∧ taskId = id := by
  unfold dedicate listed
  dsimp only
  rw [ExtTreeMap.getElem?_insert_eq]
  by_cases hid : id = taskId
  · subst hid
    rw [if_pos rfl, Option.getD_some, ExtTreeSet.mem_insert_iff]
    simp only [and_true]
    tauto
  · rw [if_neg hid]
    have hne : taskId ≠ id := Ne.symm hid
    simp [hne]

/-- A dedicated thread is put on the list of its task. -/
theorem consistent_dedicate (hT : s.dedication T = some id)
    (hs : ∀ U taskId, 0 ≤ taskId → ¬(U = T ∧ taskId = id) →
      (U ∈ s.listed taskId ↔ s.dedication U = some taskId)) : (s.dedicate T id).Consistent := by
  rw [consistent_iff]
  intro U taskId h0
  have hded : (s.dedicate T id).dedication U = s.dedication U := rfl
  rw [mem_listed_dedicate, hded]
  by_cases hU : U = T ∧ taskId = id
  · obtain ⟨rfl, rfl⟩ := hU
    exact iff_of_true (.inr ⟨rfl, rfl⟩) hT
  · rw [or_iff_left hU]
    exact hs U taskId h0 hU

theorem dedication_emplaceThread {taskId : Int} {isForShuffle : Bool} :
    (s.emplaceThread T taskId isForShuffle).dedication U =
      if T = U then some taskId else s.dedication U := by
  rw [dedication_eq, threads_emplaceThread]
  split_ifs
  · rfl
  · rw [dedication_eq]

theorem consistent_startDedicatedTaskThread (hs : s.Consistent) :
    (s.startDedicatedTaskThread T id).2.Consistent := by
  have hfixup : (s.fixup T id).Consistent := by
    obtain ⟨h, -⟩ | ⟨t, -, h0, -, h⟩ := fixup_cases s T id
    · rw [h]
      exact hs
    · rw [h]
      exact consistent_removeThreadAssociation hs fun hneg => absurd h0 (by omega)
  rw [consistent_iff] at hfixup
  obtain ⟨-, e, heq⟩ | ⟨-, ⟨hnone, heq⟩ | ⟨t, hT, hst, htask, heq⟩ | ⟨t, e, -, heq⟩⟩ :=
    startDedicatedTaskThread_cases s T id
  · rw [heq]
    exact hs
  · rw [heq]
    refine consistent_dedicate (by rw [dedication_emplaceThread, if_pos rfl]) ?_
    intro U taskId h0 hU
    have hlisted : ((s.fixup T id).emplaceThread T id false).listed taskId =
        (s.fixup T id).listed taskId := rfl
    rw [hlisted, hfixup U taskId h0, dedication_emplaceThread]
    by_cases hUT : T = U
    · subst hUT
      rw [if_pos rfl, dedication_eq, hnone]
      have hne : id ≠ taskId := fun h => hU ⟨rfl, h.symm⟩
      simpa using hne
    · rw [if_neg hUT]
  · rw [heq]
    exact consistent_dedicate (dedication_eq_some_iff.2 ⟨t, hT, htask, hst⟩)
      fun U taskId h0 _ => hfixup U taskId h0
  · rw [heq]
    exact consistent_iff.2 hfixup

theorem dedication_addPoolTasks {t : FullThreadState} {taskIds : ExtTreeSet Int}
    (hT : s.threads[T]? = some t) : (s.addPoolTasks T t taskIds).dedication U = s.dedication U := by
  by_cases hU : T = U
  · subst hU
    have hT' := threads_addPoolTasks s T t taskIds T
    rw [if_pos rfl] at hT'
    exact dedication_of_eq hT hT' rfl rfl
  · exact dedication_congr (by rw [threads_addPoolTasks, if_neg hU])

theorem consistent_poolThreadWorkingOnTasks {isForShuffle : Bool} {taskIds : ExtTreeSet Int}
    (hs : s.Consistent) : (s.poolThreadWorkingOnTasks isForShuffle T taskIds).2.Consistent := by
  obtain ⟨e, heq⟩ | ⟨-, ⟨hnone, heq⟩ | ⟨t, hT, -, -, heq⟩⟩ :=
    poolThreadWorkingOnTasks_cases s isForShuffle T taskIds
  · rw [heq]
    exact hs
  · rw [heq]
    have hnew : (s.emplaceThread T (-1) isForShuffle).threads[T]? =
        some (s.newThread T (-1) isForShuffle) := by
      rw [threads_emplaceThread, if_pos rfl]
    refine hs.of_iff (fun _ => rfl) fun U taskId h0 => ?_
    rw [dedication_addPoolTasks hnew, dedication_emplaceThread]
    by_cases hU : T = U
    · subst hU
      rw [if_pos rfl, dedication_eq, hnone]
      have hne : (-1 : Int) ≠ taskId := by omega
      simpa using hne
    · rw [if_neg hU]
  · rw [heq]
    exact hs.congr (fun _ => rfl) fun _ => dedication_addPoolTasks hT

/-- A move that is neither a registration nor a removal keeps the dedication of the thread. -/
theorem dedication_of_moves {r : Rights} {x y : Snapshot} (hmark : ¬r.mark) (herase : ¬r.erase)
    (hregister : ¬r.register)
    (hstray : U = -1 → ∀ e, x.entry = some e → e.state ≠ .removeThrow) (hmoves : Moves r U x y) :
    y.dedication = x.dedication := by
  refine (Moves.preserves (P := fun y => y.dedication = x.dedication ∧
    (U = -1 → ∀ e, y.entry = some e → e.state ≠ .removeThrow)) ?_ hmoves ⟨rfl, hstray⟩).1
  rintro y z ⟨hy, hstray⟩ hmove
  have keeps : ∀ {e : Registration} {st : ThreadState} {k : Bool} {w w' : Option Sleeper},
      e.state ≠ .removeThrow → st ≠ .removeThrow →
      (⟨some e, w⟩ : Snapshot).dedication = x.dedication →
      (⟨some { e with state := st, isCpuAlloc := k }, w'⟩ : Snapshot).dedication = x.dedication ∧
        (U = -1 → ∀ e', some { e with state := st, isCpuAlloc := k } = some e' →
          e'.state ≠ .removeThrow) := by
    intro e st k w w' he hst hy
    refine ⟨?_, ?_⟩
    · rw [← hy]
      unfold Snapshot.dedication
      rw [Option.bind_some, Option.bind_some, if_neg hst, if_neg he]
    · rintro - e' he'
      cases he'
      exact hst
  have not_marked : ∀ {e : Registration}, isBlocked e.state = true → e.state ≠ .removeThrow := by
    intro e hb hst
    rw [hst] at hb
    cases hb
  -- a move changes the state, but not into or out of `REMOVE_THROW`
  cases hmove with
  | notified | sleep | wake => exact ⟨hy, hstray⟩
  | leave hb hst =>
    refine keeps (not_marked hb) ?_ hy
    rcases hst with rfl | rfl | rfl <;> decide
  | stray hU => exact keeps (hstray hU _ rfl) (by decide) hy
  | restart hst =>
    refine keeps ?_ (by decide) hy
    rcases hst with h | h <;> rw [h] <;> decide
  | free hst => exact keeps (by rw [hst]; decide) (by decide) hy
  | own _ hst hst' => exact keeps hst hst' hy
  | ownErase _ hst =>
    refine ⟨?_, by rintro - e ⟨⟩⟩
    rw [← hy]
    unfold Snapshot.dedication
    rw [Option.bind_some, if_pos hst]
    rfl
  | mark hm => exact absurd hm hmark
  | erase he => exact absurd he herase
  | register _ hr => exact absurd hr hregister

/-- The operations that write no books keep the maps in agreement. -/
theorem consistent_of_keepsBooks {op : Op} (hs : s.Consistent) (hop : op.KeepsBooks)
    (hkeyed : s.Keyed) (hen : s.enabled op)
    (hstray : ∀ t, s.threads[(-1 : Int)]? = some t → t.state = .running ∨ t.state = .splitThrow) :
    (s.exec op).2.Consistent := by
  have hmark : ¬op.Removes := by
    cases op <;> first | exact not_false | exact hop.elim
  have hregister : ∀ U, ¬op.Registers U := by
    intro U
    cases op <;> first | exact not_false | exact hop.elim
  have herase : ∀ U, ¬op.Erases s U := by
    rintro U ⟨t, -, hgone⟩
    cases op <;> first | exact hop.elim | cases hgone
  refine hs.congr (listed_of_books (books_exec s hop)) fun U => ?_
  have hopen : ¬(op.rights s U).register := fun h => hregister U h.2
  refine dedication_of_moves hmark (herase U) hopen ?_ (exec_moves hkeyed hen U)
  rintro rfl e he
  obtain ⟨t, ht, rfl⟩ := Option.map_eq_some_iff.1 he
  change t.state ≠ .removeThrow
  rcases hstray t ht with h | h <;> rw [h] <;> decide

/-- **Every operation** keeps the maps in agreement if it removes no dedicated thread with a
negative id. -/
theorem consistent_exec {op : Op} (hs : s.Consistent) (hok : s.KeepsRegistry op)
    (hkeyed : s.Keyed) (hen : s.enabled op)
    (hstray : ∀ t, s.threads[(-1 : Int)]? = some t → t.state = .running ∨ t.state = .splitThrow) :
    (s.exec op).2.Consistent := by
  by_cases hop : op.KeepsBooks
  · exact consistent_of_keepsBooks hs hop hkeyed hen hstray
  · cases op with
    | startDedicatedTaskThread T taskId => exact consistent_startDedicatedTaskThread hs
    | poolThreadWorkingOnTasks isForShuffle T taskIds =>
      exact consistent_poolThreadWorkingOnTasks hs
    | poolThreadFinishedForTasks T taskIds => exact consistent_poolThreadFinishedForTasks hs hok
    | removeThreadAssociation T taskId =>
      refine consistent_runChecks (consistent_removeThreadAssociation hs ?_)
      intro hneg
      refine undedicated_of_any (hok T ?_) hneg
      dsimp only [removedWholly]
      rw [if_pos hneg]
      exact List.mem_singleton_self T
    | taskDone taskId => exact consistent_taskDone hs hok
    | allDone => exact consistent_allDone hs hok
    | getAndResetMetric taskId metric =>
      refine hs.congr (fun id => ?_) fun U => ?_
      · unfold listed
        rw [show (s.exec (.getAndResetMetric taskId metric)).2.taskToThreads = s.taskToThreads from
          (ledger_getAndResetMetric s taskId metric).2]
      · unfold dedication
        rw [show (s.exec (.getAndResetMetric taskId metric)).2.snapshot U = s.snapshot U from
          snapshot_getAndResetMetric s taskId metric U]
    | removeTaskMetrics taskId => exact hs.congr (fun _ => rfl) fun _ => rfl
    | _ => exact absurd trivial hop

theorem consistent_invariant :
    (system.restrict KeepsRegistry).Invariant fun s =>
      ((s.Keyed ∧ s.Fresh) ∧
        ∀ t, s.threads[(-1 : Int)]? = some t → t.state = .running ∨ t.state = .splitThrow) ∧
      s.Consistent := by
  refine (stray_invariant.restrict _).strengthen ?_ ?_
  · intro s hs T taskId _
    have hthreads : s.threads = ∅ := congrArg Adaptor.threads hs
    have hlisted : s.taskToThreads = ∅ := congrArg Adaptor.taskToThreads hs
    unfold listed
    rw [hthreads, hlisted, ExtTreeMap.getElem?_empty, ExtTreeMap.getElem?_empty]
    simp
  · rintro s op s' ⟨⟨hkeyed, -⟩, hstray⟩ hs ⟨hok, hen, -, rfl⟩
    exact consistent_exec hs hok hkeyed hen hstray

/-! ### Reading the metrics of a task -/

theorem mem_threadsOfTask {t : FullThreadState} :
    (T, t) ∈ s.threadsOfTask id ↔ T ∈ s.listed id ∧ s.threads[T]? = some t := by
  unfold threadsOfTask listed
  cases s.taskToThreads[id]? with
  | none => simp
  | some threadIds =>
    dsimp only
    rw [List.mem_filterMap, Option.getD_some]
    constructor
    · rintro ⟨U, hU, hmap⟩
      obtain ⟨t', ht', heq⟩ := Option.map_eq_some_iff.1 hmap
      cases heq
      exact ⟨ExtTreeSet.mem_toList.1 hU, ht'⟩
    · rintro ⟨hT, ht⟩
      exact ⟨T, ExtTreeSet.mem_toList.2 hT, by rw [ht]; rfl⟩

theorem mem_dedicatedThreads {t : FullThreadState} :
    (T, t) ∈ s.dedicatedThreads id ↔
      s.threads[T]? = some t ∧ t.taskId = id ∧ t.state ≠ .removeThrow := by
  unfold dedicatedThreads
  rw [List.mem_filter, ExtTreeMap.mem_toList_iff]
  simp

theorem nodup_threadsOfTask : (s.threadsOfTask id).Nodup := by
  unfold threadsOfTask
  cases s.taskToThreads[id]? with
  | none => exact List.nodup_nil
  | some threadIds =>
    refine List.Nodup.filterMap ?_ (ExtTreeSet.nodup_toList threadIds)
    intro T T' kt hT hT'
    obtain ⟨_, -, rfl⟩ := Option.map_eq_some_iff.1 hT
    obtain ⟨_, -, heq⟩ := Option.map_eq_some_iff.1 hT'
    exact (Prod.mk.inj heq).1.symm

theorem nodup_dedicatedThreads : (s.dedicatedThreads id).Nodup := by
  refine List.Nodup.filter _ ?_
  exact s.threads.distinct_keys_toList.imp fun h heq => h (compare_eq_iff_eq.2 (congrArg Prod.fst heq))

/-- The threads whose metrics are read for a task are the threads dedicated to it. -/
theorem Consistent.threadsOfTask_perm (hs : s.Consistent) (h0 : 0 ≤ id) :
    (s.threadsOfTask id).Perm (s.dedicatedThreads id) := by
  rw [List.perm_ext_iff_of_nodup nodup_threadsOfTask nodup_dedicatedThreads]
  rintro ⟨T, t⟩
  rw [mem_threadsOfTask, mem_dedicatedThreads, hs T id h0]
  constructor
  · rintro ⟨⟨t', hT', htask, hst⟩, hT⟩
    rw [hT] at hT'
    cases hT'
    exact ⟨hT, htask, hst⟩
  · rintro ⟨hT, htask, hst⟩
    exact ⟨⟨t, hT, htask, hst⟩, hT⟩

/-- Resetting a metric changes the entries of the given threads, and no others. -/
theorem threads_foldl_reset (metric : Metric) (m : ExtTreeMap Int FullThreadState)
    {kts : List (Int × FullThreadState)} (hkts : ∀ kt ∈ kts, m[kt.1]? = some kt.2) (s : Adaptor)
    (T : Int) :
    (kts.foldl (fun s kt => s.setThread kt.1
        { kt.2 with metrics := metric.reset kt.2.metrics }) s).threads[T]? =
      if T ∈ kts.map Prod.fst then
        m[T]?.map fun t : FullThreadState => { t with metrics := metric.reset t.metrics }
      else s.threads[T]? := by
  induction kts generalizing s with
  | nil => rfl
  | cons kt rest ih =>
    rw [List.foldl_cons, ih fun kt' hkt' => hkts kt' (.tail _ hkt')]
    by_cases hrest : T ∈ rest.map Prod.fst
    · rw [if_pos hrest, if_pos (.tail _ hrest)]
    · rw [if_neg hrest, threads_setThread]
      by_cases hT : kt.1 = T
      · rw [if_pos hT, if_pos (by rw [← hT]; exact .head _), ← hT, hkts kt (.head _), Option.map_some]
      · have hne : T ∉ (kt :: rest).map Prod.fst := by
          rw [List.map_cons, List.mem_cons]
          exact not_or.2 ⟨Ne.symm hT, hrest⟩
        rw [if_neg hT, if_neg hne]

theorem Consistent.threads_getAndResetMetric (hs : s.Consistent) (h0 : 0 ≤ id) (metric : Metric) :
    (s.getAndResetMetric id metric).2.threads[T]? =
      s.threads[T]?.map fun t =>
        if t.taskId = id ∧ t.state ≠ .removeThrow then
          { t with metrics := metric.reset t.metrics }
        else t := by
  have hall : ∀ kt ∈ s.threadsOfTask id, s.threads[kt.1]? = some kt.2 :=
    fun kt hkt => (mem_threadsOfTask.1 hkt).2
  have hfold := threads_foldl_reset metric s.threads hall s T
  refine hfold.trans ?_
  cases hT : s.threads[T]? with
  | none => split_ifs <;> rfl
  | some t =>
    have hmem : T ∈ (s.threadsOfTask id).map Prod.fst ↔ t.taskId = id ∧ t.state ≠ .removeThrow := by
      constructor
      · intro h
        obtain ⟨⟨T', t'⟩, hkt, rfl⟩ := List.mem_map.1 h
        have hded := mem_dedicatedThreads.1 ((hs.threadsOfTask_perm h0).mem_iff.1 hkt)
        rw [hT] at hded
        cases hded.1
        exact hded.2
      · intro h
        have hkt := (hs.threadsOfTask_perm h0).mem_iff.2 (mem_dedicatedThreads.2 ⟨hT, h⟩)
        exact List.mem_map.2 ⟨(T, t), hkt, rfl⟩
    rw [Option.map_some, Option.map_some]
    by_cases h : t.taskId = id ∧ t.state ≠ .removeThrow
    · rw [if_pos (hmem.2 h), if_pos h]
    · rw [if_neg (mt hmem.1 h), if_neg h]

theorem Consistent.metricsFromDedicated (hs : s.Consistent) (h0 : 0 ≤ id) :
    s.MetricsFromDedicated id where
  getMetric metric := by
    unfold Adaptor.getMetric
    rw [((hs.threadsOfTask_perm h0).map _).sum_eq]
    cases s.taskToMetrics[id]? with
    | none => rfl
    | some m => rfl
  getTotalBlockedOrLost := by
    unfold Adaptor.getTotalBlockedOrLost
    rw [((hs.threadsOfTask_perm h0).map _).sum_eq]
    cases s.taskToMetrics[id]? with
    | none => rfl
    | some m => rfl
  getAndResetMetric _ := rfl
  reset metric _ := hs.threads_getAndResetMetric h0 metric

/-- **The registry is consistent** in every run that removes no dedicated thread with a negative
task id, and the metrics of a task come from the threads dedicated to it. -/
theorem registry_consistent (hs : (system.restrict KeepsRegistry).Reachable s) :
    s.Consistent ∧ ∀ taskId, 0 ≤ taskId → s.MetricsFromDedicated taskId := by
  have hcons := (consistent_invariant.reachable hs).2
  exact ⟨hcons, fun _ h0 => hcons.metricsFromDedicated h0⟩

/-- A thread moves from one task to another, and a pool thread works on both. -/
def switchTasks : List Op := [
  .startDedicatedTaskThread 1 1, .poolThreadWorkingOnTasks false 2 {1, 2},
  .startDedicatedTaskThread 1 2, .poolThreadFinishedForTasks 2 {1}, .taskDone 2]

/-- The maps agree after `switchTasks`. -/
theorem registry_consistent_switchTasks :
    (run {} switchTasks).Consistent ∧
      ∀ taskId, 0 ≤ taskId → (run {} switchTasks).MetricsFromDedicated taskId :=
  registry_consistent (reachable_run_restrict (s := {}) (.init rfl) (by decide))

/-- The thread of task `1` is removed with the id `-1` and registered again for task `2`, where it
throws a `RetryOOM`. -/
def removeWholly : List Op := [
  .startDedicatedTaskThread 1 1, .removeThreadAssociation 1 (-1), .startDedicatedTaskThread 1 2,
  .forceRetryOom 1 1 0 0, .preAlloc 1 false true]

/-- After `removeWholly` the thread is still listed for task `1`, which reports its `RetryOOM`. -/
theorem registry_not_consistent :
    ∃ s, system.Reachable s ∧ s.shuttingDown = false ∧ ¬s.Consistent ∧
      s.dedicatedThreads 1 = [] ∧ s.getMetric 1 .numTimesRetryThrow = 1 := by
  refine ⟨run {} removeWholly, reachable_run reachable_new (by decide), by decide, ?_, ?_,
    by decide⟩
  · intro hs
    obtain ⟨t, hT, htask, -⟩ := (hs 1 1 (by decide)).1 (by decide)
    have h : (run {} removeWholly).threads[(1 : Int)]?.map (fun t => t.taskId) = some 2 := by decide
    rw [hT, Option.map_some, htask] at h
    cases h
  · rw [← List.isEmpty_iff]
    decide

end Adaptor

end SparkRapids.ResourceAdaptor
