import SparkRapidsJni.ResourceAdaptor.Registry

/-!
# The metrics of a thread that leaves a task

A thread collects metrics for the tasks it works on. `checkpoint_metrics` moves them to
`task_to_metrics`, and an operation that takes a thread from a task is to do so first.

The accounts are kept for each task and each additive metric: what is saved for the task
(`Adaptor.kept`) and what the threads that work on it still hold (`Adaptor.pending`). Removing a
thread keeps their sum (`total_removeThreadAssociation`). The second loop of `task_done` takes the
task from the set of a pool thread without a checkpoint, and the share of that thread is gone
(`total_removeTaskFromPool`).

`metrics_saved_iff`: an operation that takes threads from tasks saves their metrics, unless it is
`task_done` and a pool thread of the task, one that `task_to_threads` does not list, holds some.
-/

namespace SparkRapids.ResourceAdaptor

open Std (ExtTreeMap ExtTreeSet)
open FullThreadState

/-- The metrics that add up over threads and checkpoints. -/
inductive AdditiveMetric where
  | numTimesRetryThrow
  | numTimesSplitRetryThrow
  | timeBlockedNanos
  | timeLostNanos
  | timeLostOrBlocked
  deriving DecidableEq, Repr

namespace AdditiveMetric

/-- The value of the metric. -/
def get : AdditiveMetric → TaskMetrics → Nat
  | numTimesRetryThrow, m => m.numTimesRetryThrow
  | numTimesSplitRetryThrow, m => m.numTimesSplitRetryThrow
  | timeBlockedNanos, m => m.timeBlockedNanos
  | timeLostNanos, m => m.timeLostNanos
  | timeLostOrBlocked, m => m.timeLostOrBlocked

theorem get_add (f : AdditiveMetric) (m m' : TaskMetrics) : f.get (m.add m') = f.get m + f.get m' := by
  cases f <;> rfl

@[simp] theorem get_clear (f : AdditiveMetric) : f.get TaskMetrics.clear = 0 := by
  cases f <;> rfl

end AdditiveMetric

namespace FullThreadState

/-- `checkpoint_metrics` adds the metrics of the thread to this task. -/
def worksFor (t : FullThreadState) (taskId : Int) : Bool :=
  if t.taskId < 0 then t.poolTaskIds.contains taskId else t.taskId = taskId

/-- What the thread holds for a task. -/
def share (f : AdditiveMetric) (taskId : Int) (t : FullThreadState) : Nat :=
  if t.worksFor taskId then f.get t.metrics else 0

/-- With the entry `o` after it, the thread no longer works on the task: it has no entry, or another
task, or it has been marked for removal. -/
def isDetached (t : FullThreadState) (o : Option FullThreadState) (taskId : Int) : Bool :=
  t.worksFor taskId &&
    o.all fun t' => !t'.worksFor taskId || (t'.state = .removeThrow && t.state ≠ .removeThrow)

end FullThreadState

namespace Adaptor

/-- What `task_to_metrics` holds for a task. -/
def kept (s : Adaptor) (f : AdditiveMetric) (taskId : Int) : Nat :=
  s.taskToMetrics[taskId]?.elim 0 f.get

/-- What the threads hold for a task. -/
def pending (s : Adaptor) (f : AdditiveMetric) (taskId : Int) : Nat :=
  s.threads.sumValues (share f taskId)

/-- All there is of a metric of a task. -/
def total (s : Adaptor) (f : AdditiveMetric) (taskId : Int) : Nat :=
  s.kept f taskId + s.pending f taskId

/-- The threads that work on the task in `s` and no longer do so in `s'`. -/
def detached (s s' : Adaptor) (taskId : Int) : Finset Int :=
  s.threads.keys.toFinset.filter fun T =>
    s.threads[T]?.any fun t => t.isDetached s'.threads[T]? taskId

/-- Whatever the threads that the operation takes from a task have collected for it is in
`task_to_metrics` when the operation ends. -/
def MetricsSaved (s : Adaptor) (op : Op) : Prop :=
  ∀ (taskId : Int) (f : AdditiveMetric),
    s.kept f taskId +
        ∑ T ∈ s.detached (s.exec op).2 taskId, s.threads[T]?.elim 0 (fun t => f.get t.metrics) ≤
      (s.exec op).2.kept f taskId

/-- The entry of a thread that holds a metric of the task `taskId`, which it works on as a pool
thread and is not listed for. -/
def HoldsAsPool (s : Adaptor) (taskId T : Int) (t : FullThreadState) : Prop :=
  s.threads[T]? = some t ∧ T ∉ s.listed taskId ∧ t.taskId < 0 ∧ taskId ∈ t.poolTaskIds ∧
    ∃ f : AdditiveMetric, f.get t.metrics ≠ 0

variable {s s' : Adaptor} {T U id : Int} {t : FullThreadState} {f : AdditiveMetric} {taskId : Int}

/-! ### Checkpoints -/

theorem share_of_metrics (h : f.get t.metrics = 0) : t.share f taskId = 0 := by
  unfold share
  rw [h]
  split_ifs <;> rfl

theorem kept_addTaskMetrics (m : ExtTreeMap Int TaskMetrics) (id : Int) (x : TaskMetrics) :
    (addTaskMetrics m id x)[taskId]?.elim 0 f.get =
      m[taskId]?.elim 0 f.get + if id = taskId then f.get x else 0 := by
  unfold addTaskMetrics
  rw [ExtTreeMap.getElem?_insert_eq]
  by_cases hid : id = taskId
  · subst hid
    rw [if_pos rfl, if_pos rfl, Option.elim_some, AdditiveMetric.get_add]
    cases m[id]? with
    | none => rw [Option.getD_none, AdditiveMetric.get_clear]; rfl
    | some y => rfl
  · rw [if_neg hid, if_neg hid]
    rfl

theorem kept_foldl_addTaskMetrics (m : ExtTreeMap Int TaskMetrics) {ids : List Int}
    (hids : ids.Nodup) (x : TaskMetrics) :
    (ids.foldl (fun metrics id => addTaskMetrics metrics id x) m)[taskId]?.elim 0 f.get =
      m[taskId]?.elim 0 f.get + if taskId ∈ ids then f.get x else 0 := by
  induction ids generalizing m with
  | nil => rfl
  | cons id rest ih =>
    obtain ⟨hid, hrest⟩ := List.nodup_cons.1 hids
    rw [List.foldl_cons, ih _ hrest, kept_addTaskMetrics]
    by_cases h : id = taskId
    · subst h
      rw [if_pos rfl, if_neg hid, if_pos (.head _)]
      rfl
    · have hmem : taskId ∈ id :: rest ↔ taskId ∈ rest := by
        rw [List.mem_cons]
        exact or_iff_right (Ne.symm h)
      simp only [h, if_false, hmem]
      rfl

variable (f taskId) in
/-- A checkpoint adds the share of the thread to what is kept for each task. -/
theorem kept_checkpointMetrics (s : Adaptor) (T : Int) (t : FullThreadState) :
    (s.checkpointMetrics T t).kept f taskId = s.kept f taskId + t.share f taskId := by
  have hmetrics : (s.checkpointMetrics T t).taskToMetrics =
      if t.taskId < 0 then
        t.poolTaskIds.toList.foldl (fun metrics id => addTaskMetrics metrics id t.metrics)
          s.taskToMetrics
      else addTaskMetrics s.taskToMetrics t.taskId t.metrics := rfl
  unfold kept share worksFor
  rw [hmetrics]
  by_cases h : t.taskId < 0
  · rw [if_pos h, if_pos h, kept_foldl_addTaskMetrics _ (ExtTreeSet.nodup_toList _)]
    simp only [ExtTreeSet.mem_toList, ExtTreeSet.contains_iff_mem]
  · rw [if_neg h, if_neg h, kept_addTaskMetrics]
    simp only [decide_eq_true_eq]

/-! ### The accounts of a task -/

variable (f taskId) in
/-- Writing one entry changes what is pending by the difference of the shares. -/
theorem pending_update (h : ∀ U : Int, T ≠ U → s'.threads[U]? = s.threads[U]?) :
    s'.pending f taskId + s.threads[T]?.elim 0 (share f taskId) =
      s.pending f taskId + s'.threads[T]?.elim 0 (share f taskId) :=
  ExtTreeMap.sumValues_update h

theorem pending_congr (h : ∀ U : Int, s'.threads[U]?.elim 0 (share f taskId) =
    s.threads[U]?.elim 0 (share f taskId)) :
    s'.pending f taskId = s.pending f taskId :=
  ExtTreeMap.sumValues_congr h

theorem kept_of_taskToMetrics (h : s'.taskToMetrics = s.taskToMetrics) :
    s'.kept f taskId = s.kept f taskId := by
  unfold kept
  rw [h]

/-- A thread that has been removed, or only lost a task, holds nothing. -/
theorem share_removed {t' : FullThreadState} (h : t.removed id = some t') :
    t'.share f taskId = 0 := by
  refine share_of_metrics ?_
  have hclear : (t.checkpointed.dropTask id).2.metrics = TaskMetrics.clear :=
    dropTask_metrics ..
  unfold removed at h
  dsimp only at h
  split_ifs at h
  · cases h
    change f.get (t.checkpointed.dropTask id).2.metrics = 0
    rw [hclear, AdditiveMetric.get_clear]
  · cases h
    rw [hclear, AdditiveMetric.get_clear]

theorem taskToMetrics_unlinkThread :
    (s.unlinkThread id T).taskToMetrics = s.taskToMetrics := by
  unfold unlinkThread
  split_ifs <;> rfl

theorem taskToMetrics_removeEntry : (s.removeEntry T t).2.taskToMetrics = s.taskToMetrics := by
  unfold removeEntry
  cases t.state <;> rfl

variable (f taskId) in
/-- `remove_thread_association` saves the share of the thread. -/
theorem kept_removeThreadAssociation (s : Adaptor) (T id : Int) :
    (s.removeThreadAssociation T id).2.kept f taskId =
      s.kept f taskId + s.threads[T]?.elim 0 (share f taskId) := by
  unfold removeThreadAssociation
  cases s.threads[T]? with
  | none => rfl
  | some t =>
    have hcheckpoint := kept_checkpointMetrics f taskId s T t
    refine Eq.trans ?_ hcheckpoint
    refine kept_of_taskToMetrics ?_
    dsimp only
    split_ifs
    · rw [taskToMetrics_removeEntry, taskToMetrics_unlinkThread]
      rfl
    · rfl

/-- **Removing a thread loses nothing**, for any task. -/
theorem total_removeThreadAssociation :
    (s.removeThreadAssociation T id).2.total f taskId = s.total f taskId := by
  have hother : ∀ U, T ≠ U → (s.removeThreadAssociation T id).2.threads[U]? = s.threads[U]? := by
    intro U hU
    rw [threads_removeThreadAssociation, if_neg hU]
  have hpending := pending_update f taskId hother
  have hgone : (s.removeThreadAssociation T id).2.threads[T]?.elim 0
      (share f taskId) = 0 := by
    rw [threads_removeThreadAssociation, if_pos rfl]
    cases hT : s.threads[T]? with
    | none => rfl
    | some t =>
      rw [Option.bind_some]
      cases hr : t.removed id with
      | none => rfl
      | some t' => exact share_removed hr
  have hkept := kept_removeThreadAssociation f taskId s T id
  unfold total
  omega

/-- What a pool thread holds for a task it is taken from by the second loop of `task_done`. -/
def poolShare (s : Adaptor) (f : AdditiveMetric) (id T : Int) : Nat :=
  s.threads[T]?.elim 0 fun t => if t.taskId < 0 ∧ id ∈ t.poolTaskIds then f.get t.metrics else 0

variable (f taskId) in
/-- The second loop of `task_done` loses the share of the pool thread it comes to. -/
theorem total_removeTaskFromPool (s : Adaptor) (T id : Int) :
    (removeTaskFromPool id s T).2.total f taskId +
        (if taskId = id then s.poolShare f id T else 0) = s.total f taskId := by
  unfold removeTaskFromPool poolShare
  cases hT : s.threads[T]? with
  | none => simp
  | some t =>
    dsimp only
    by_cases hid : id ∈ t.poolTaskIds
    · rw [if_pos hid, Option.elim_some]
      set t1 : FullThreadState := { t with poolTaskIds := t.poolTaskIds.erase id } with ht1
      have hremove : (if t1.poolTaskIds.isEmpty = true then
          (s.setThread T t1).removeThreadAssociation T id
          else (false, s.setThread T t1)).2.total f taskId = (s.setThread T t1).total f taskId := by
        split_ifs
        · exact total_removeThreadAssociation
        · rfl
      rw [hremove]
      have hother : ∀ U, T ≠ U → (s.setThread T t1).threads[U]? = s.threads[U]? := by
        intro U hU
        rw [threads_setThread, if_neg hU]
      have hpending := pending_update f taskId hother
      rw [threads_setThread, if_pos rfl, hT, Option.elim_some, Option.elim_some] at hpending
      have hkept : (s.setThread T t1).kept f taskId = s.kept f taskId := rfl
      -- the thread keeps its share, but for the task that is removed
      have hshare : t1.share f taskId +
          (if taskId = id then if t.taskId < 0 ∧ id ∈ t.poolTaskIds then f.get t.metrics else 0 else 0) =
          t.share f taskId := by
        have hcontains : t1.poolTaskIds.contains taskId = true ↔
            id ≠ taskId ∧ t.poolTaskIds.contains taskId = true := by
          rw [ExtTreeSet.contains_iff_mem, ExtTreeSet.contains_iff_mem]
          exact ExtTreeSet.mem_erase_iff
        unfold share worksFor
        have htask : t1.taskId = t.taskId := rfl
        have hmetrics : t1.metrics = t.metrics := rfl
        rw [htask, hmetrics]
        by_cases hpool : t.taskId < 0
        · rw [if_pos hpool, if_pos hpool]
          by_cases htid : taskId = id
          · subst htid
            have hnot : ¬t1.poolTaskIds.contains taskId = true := fun h => (hcontains.1 h).1 rfl
            rw [if_neg hnot, if_pos rfl, if_pos ⟨hpool, hid⟩,
              if_pos (ExtTreeSet.contains_iff_mem.2 hid), Nat.zero_add]
          · have hiff : t1.poolTaskIds.contains taskId = true ↔
                t.poolTaskIds.contains taskId = true :=
              hcontains.trans (and_iff_right (Ne.symm htid))
            rw [if_neg htid, Nat.add_zero]
            simp only [hiff]
        · simp [hpool]
      unfold total
      omega
    · have hno : ¬(t.taskId < 0 ∧ id ∈ t.poolTaskIds) := fun h => hid h.2
      rw [if_neg hid, Option.elim_some, if_neg hno, ite_self, Nat.add_zero]

/-! ### The loops, and waking threads -/

theorem total_removeThreads (s : Adaptor) (ids : List Int) :
    (forThreads (fun s T => s.removeThreadAssociation T id) ids s).2.total f taskId =
      s.total f taskId :=
  forThreads_preserves (P := fun s' => s'.total f taskId = s.total f taskId)
    (C := fun _ _ => True) (fun _ _ h _ => total_removeThreadAssociation.trans h)
    (fun _ _ _ h => h) rfl (fun _ _ => trivial)

/-- A turn of the second loop of `task_done` does not touch the share of another thread. -/
theorem poolShare_removeTaskFromPool (h : T ≠ U) :
    (removeTaskFromPool id s T).2.poolShare f id U = s.poolShare f id U := by
  unfold poolShare
  rw [threads_removeTaskFromPool, if_neg h]

variable (f taskId id) in
/-- The second loop of `task_done` loses the shares of the pool threads it comes to. -/
theorem total_removeTasksFromPool (s : Adaptor) {ids : List Int} (hids : ids.Nodup) :
    (forThreads (removeTaskFromPool id) ids s).2.total f taskId +
        (if taskId = id then (ids.map (s.poolShare f id)).sum else 0) = s.total f taskId := by
  unfold forThreads
  generalize false = b
  induction ids generalizing b s with
  | nil => simp
  | cons T rest ih =>
    obtain ⟨hT, hrest⟩ := List.nodup_cons.1 hids
    rw [List.foldl_cons]
    dsimp only
    have hturn := total_removeTaskFromPool f taskId s T id
    have hloop := ih (removeTaskFromPool id s T).2 hrest ((removeTaskFromPool id s T).1 || b)
    have hsame : rest.map ((removeTaskFromPool id s T).2.poolShare f id) =
        rest.map (s.poolShare f id) :=
      List.map_congr_left fun U hU => poolShare_removeTaskFromPool fun h => hT (h ▸ hU)
    rw [hsame] at hloop
    rw [List.map_cons, List.sum_cons]
    by_cases hid : taskId = id
    · rw [if_pos hid] at hturn hloop ⊢
      omega
    · rw [if_neg hid] at hturn hloop ⊢
      omega

/-- Waking threads changes nothing but the states of threads that are not marked for removal. -/
theorem threads_wakeUp (s : Adaptor) (U : Int) :
    ∃ st : FullThreadState → ThreadState,
      (∀ t, st t = .removeThrow ↔ t.state = .removeThrow) ∧
      s.wakeUpThreadsAfterTaskFinishes.threads[U]? =
        s.threads[U]?.map fun t => { t with state := st t } := by
  have hone : ∀ (s : Adaptor) (wakes : ThreadState → Bool), wakes .removeThrow = false →
      ∃ st : FullThreadState → ThreadState,
        (∀ t, st t = .removeThrow ↔ t.state = .removeThrow) ∧
        (s.wakeThreadsIn wakes).threads[U]? =
          s.threads[U]?.map fun t => { t with state := st t } := by
    intro s wakes hw
    refine ⟨fun t => if wakes t.state then .running else t.state, fun t => ?_, ?_⟩
    · dsimp only
      split_ifs with h
      · refine iff_of_false (by decide) fun hst => ?_
        rw [hst, hw] at h
        cases h
      · exact Iff.rfl
    · rw [threads_wakeThreadsIn]
      refine congrArg (fun g => s.threads[U]?.map g) (funext fun t => ?_)
      dsimp only
      split_ifs <;> rfl
  unfold wakeUpThreadsAfterTaskFinishes
  dsimp only
  split_ifs
  · exact hone s _ (by decide)
  · obtain ⟨st, hst, heq⟩ := hone s (fun state => state = .blocked) (by decide)
    obtain ⟨st', hst', heq'⟩ := hone (s.wakeThreadsIn fun state => state = .blocked)
      (fun state => state = .bufn ∨ state = .bufnThrow ∨ state = .bufnWait) (by decide)
    refine ⟨fun t => st' { t with state := st t }, fun t => ?_, ?_⟩
    · rw [hst' { t with state := st t }]
      exact hst t
    · rw [heq', heq, Option.map_map]
      rfl

/-! ### What an operation leaves of a thread -/

/-- What the entry `o'` still holds for the task is at most what the entry `o` has held, if the
thread still works on the task, and nothing otherwise. -/
def Settled (f : AdditiveMetric) (taskId : Int) (o o' : Option FullThreadState) : Prop :=
  o'.elim 0 (share f taskId) ≤
    if o.any fun t => t.isDetached o' taskId then 0
    else o.elim 0 (share f taskId)

/-- As `Settled`, with nothing lost and nothing moved by a thread that still works on the task. -/
def SettledExactly (f : AdditiveMetric) (taskId : Int) (o o' : Option FullThreadState) : Prop :=
  o'.elim 0 (share f taskId) =
    if o.any fun t => t.isDetached o' taskId then 0
    else o.elim 0 (share f taskId)

theorem SettledExactly.settled {o o' : Option FullThreadState} (h : SettledExactly f taskId o o') :
    Settled f taskId o o' :=
  le_of_eq h

theorem settled_of_share {o o' : Option FullThreadState}
    (h : o'.elim 0 (share f taskId) = 0) : Settled f taskId o o' := by
  unfold Settled
  rw [h]
  exact Nat.zero_le _

/-- The states of threads that are not marked do not matter. -/
theorem settled_map_state {o o' : Option FullThreadState} {st : FullThreadState → ThreadState}
    (hst : ∀ t, st t = .removeThrow ↔ t.state = .removeThrow) :
    (Settled f taskId o (o'.map fun t => { t with state := st t }) ↔ Settled f taskId o o') ∧
      (SettledExactly f taskId o (o'.map fun t => { t with state := st t }) ↔
        SettledExactly f taskId o o') := by
  have hshare : (o'.map fun t => { t with state := st t }).elim 0
      (share f taskId) = o'.elim 0 (share f taskId) := by
    cases o' with
    | none => rfl
    | some t => rfl
  have hdet : ∀ t : FullThreadState,
      t.isDetached (o'.map fun t => { t with state := st t }) taskId = t.isDetached o' taskId := by
    intro t
    cases o' with
    | none => rfl
    | some t' =>
      unfold isDetached
      have hw : ({ t' with state := st t' } : FullThreadState).worksFor taskId =
          t'.worksFor taskId := rfl
      have hmark : decide (st t' = .removeThrow) = decide (t'.state = .removeThrow) :=
        decide_eq_decide.2 (hst t')
      rw [Option.map_some, Option.all_some, Option.all_some, hw, hmark]
  unfold Settled SettledExactly
  rw [hshare]
  simp only [hdet, and_self]

/-- An entry with the same tasks, mark and metrics. -/
theorem settledExactly_of_same {t' : FullThreadState} {o : Option FullThreadState}
    (ho : o = some t) (hworks : t'.worksFor taskId = t.worksFor taskId)
    (hmark : t'.state = t.state) (hmetrics : t'.metrics = t.metrics) :
    SettledExactly f taskId o (some t') := by
  have hdet : t.isDetached (some t') taskId = false := by
    unfold isDetached
    rw [Option.all_some, hworks, hmark]
    cases t.worksFor taskId <;> by_cases h : t.state = .removeThrow <;> simp [h]
  unfold SettledExactly
  rw [ho, Option.any_some, hdet, if_neg Bool.false_ne_true, Option.elim_some, Option.elim_some]
  unfold share
  rw [hworks, hmetrics]

/-- Nobody holds anything for a task that nobody works on any more. -/
theorem settledExactly_of_not_worksFor {o o' : Option FullThreadState}
    (h : o'.all fun t' => !t'.worksFor taskId) : SettledExactly f taskId o o' := by
  have hshare : o'.elim 0 (share f taskId) = 0 := by
    cases o' with
    | none => rfl
    | some t' =>
      rw [Option.all_some] at h
      rw [Option.elim_some, share, if_neg (by simpa using h)]
  unfold SettledExactly
  rw [hshare]
  cases o with
  | none => rfl
  | some t =>
    rw [Option.any_some, Option.elim_some]
    by_cases hw : t.worksFor taskId = true
    · have hdet : t.isDetached o' taskId = true := by
        unfold isDetached
        rw [hw, Bool.true_and]
        cases o' with
        | none => rfl
        | some t' =>
          rw [Option.all_some] at h ⊢
          rw [h, Bool.true_or]
      rw [if_pos hdet]
    · rw [share, if_neg hw, ite_self]

/-- A thread that is marked, and was not before, no longer works on the task. -/
theorem settledExactly_of_marked {t' : FullThreadState} {o : Option FullThreadState}
    (ho : o = some t) (hshare : t'.share f taskId = 0)
    (hst' : t'.state = .removeThrow) (hst : t.state ≠ .removeThrow) :
    SettledExactly f taskId o (some t') := by
  unfold SettledExactly
  rw [ho, Option.any_some, Option.elim_some, Option.elim_some, hshare]
  by_cases hw : t.worksFor taskId = true
  · have hdet : t.isDetached (some t') taskId = true := by
      unfold isDetached
      rw [hw, Option.all_some, hst']
      simp [hst]
    rw [if_pos hdet]
  · rw [share, if_neg hw, ite_self]

theorem worksFor_of_subset {t' : FullThreadState} (htask : t'.taskId = t.taskId)
    (hpool : taskId ∈ t'.poolTaskIds → taskId ∈ t.poolTaskIds) (h : t'.worksFor taskId = true) :
    t.worksFor taskId = true := by
  unfold worksFor at h ⊢
  rw [htask] at h
  by_cases h0 : t.taskId < 0
  · rw [if_pos h0] at h ⊢
    exact ExtTreeSet.contains_iff_mem.2 (hpool (ExtTreeSet.contains_iff_mem.1 h))
  · rw [if_neg h0] at h ⊢
    exact h

theorem taskId_of_removed {t' : FullThreadState} (h : t.removed id = some t') :
    t'.taskId = t.taskId := by
  have htask : (t.checkpointed.dropTask id).2.taskId = t.taskId :=
    dropTask_taskId ..
  unfold removed at h
  dsimp only at h
  split_ifs at h
  · cases h
    exact htask
  · cases h
    exact htask

/-- A thread that is marked for removal keeps its mark or is erased. -/
theorem state_of_removed {t' : FullThreadState} (h : t.removed id = some t')
    (hst : t.state = .removeThrow) : t'.state = .removeThrow := by
  have hstate : (t.checkpointed.dropTask id).2.state = t.state := dropTask_state ..
  unfold removed at h
  dsimp only at h
  split_ifs at h
  · cases h
    rfl
  · cases h
    rw [hstate, hst]

/-- Removing a thread from a task ends its work on that task, or marks the thread. -/
theorem removed_settles (t : FullThreadState) (id : Int) :
    (t.removed id).all (fun t' => !t'.worksFor id) = true ∨
      ∃ t', t.removed id = some t' ∧ t'.metrics = TaskMetrics.clear ∧ t'.state = .removeThrow ∧
        t.state ≠ .removeThrow := by
  have hstate : (t.checkpointed.dropTask id).2.state = t.state := dropTask_state ..
  have hclear : (t.checkpointed.dropTask id).2.metrics = TaskMetrics.clear :=
    dropTask_metrics ..
  unfold removed
  dsimp only
  by_cases hr : (t.checkpointed.dropTask id).1 = true
  · rw [if_pos hr]
    by_cases hb : isBlocked (t.checkpointed.dropTask id).2.state = true
    · rw [if_pos hb]
      refine .inr ⟨_, rfl, hclear, rfl, ?_⟩
      rintro hst
      rw [hstate, hst] at hb
      cases hb
    · rw [if_neg hb]
      exact .inl rfl
  · rw [if_neg hr]
    refine .inl ?_
    have htask : t.checkpointed.taskId = t.taskId := rfl
    unfold dropTask at hr ⊢
    rw [htask] at hr ⊢
    by_cases hneg : id < 0
    · rw [if_pos hneg] at hr
      exact absurd rfl hr
    rw [if_neg hneg] at hr ⊢
    rw [Option.all_some]
    -- a dedicated thread works for another task, a pool thread loses this one
    by_cases h0 : 0 ≤ t.taskId
    · rw [if_pos h0] at hr ⊢
      unfold worksFor
      rw [htask, if_neg (by omega)]
      simpa using hr
    · rw [if_neg h0]
      unfold worksFor
      dsimp only
      rw [if_pos (by omega)]
      simp

/-- As `removed_settles`, for the second loop of `task_done`: a thread it does not remove stays as
it is, or the task is taken from it. -/
theorem droppedFromPool_cases (t : FullThreadState) (id : Int) :
    t.droppedFromPool id = some t ∨
      t.droppedFromPool id = some { t with poolTaskIds := t.poolTaskIds.erase id } ∨
      t.droppedFromPool id = ({ t with poolTaskIds := t.poolTaskIds.erase id } :
        FullThreadState).removed id := by
  unfold droppedFromPool
  dsimp only
  split_ifs
  · exact .inr (.inr rfl)
  · exact .inr (.inl rfl)
  · exact .inl rfl

/-- The set of tasks of the thread without `id`. -/
theorem worksFor_erase (t : FullThreadState) (id taskId : Int) :
    ({ t with poolTaskIds := t.poolTaskIds.erase id } : FullThreadState).worksFor taskId = false ∨
      ({ t with poolTaskIds := t.poolTaskIds.erase id } : FullThreadState).worksFor taskId =
        t.worksFor taskId := by
  unfold worksFor
  dsimp only
  by_cases h0 : t.taskId < 0
  · rw [if_pos h0, if_pos h0, ExtTreeSet.contains_erase]
    by_cases hid : id = taskId
    · exact .inl (by simp [hid])
    · exact .inr (by simp [hid])
  · rw [if_neg h0, if_neg h0]
    exact .inr rfl

/-- The second loop of `task_done` settles the account of a thread for every task. -/
theorem settled_droppedFromPool {o : Option FullThreadState} (ho : o = some t) :
    Settled f taskId o (t.droppedFromPool id) := by
  obtain h | h | h := droppedFromPool_cases t id
  · rw [h]
    exact (settledExactly_of_same ho rfl rfl rfl).settled
  · rw [h]
    rcases worksFor_erase t id taskId with hw | hw
    · refine (settledExactly_of_not_worksFor ?_).settled
      rw [Option.all_some, hw]
      rfl
    · exact (settledExactly_of_same ho hw rfl rfl).settled
  · rw [h]
    refine settled_of_share ?_
    cases hr : ({ t with poolTaskIds := t.poolTaskIds.erase id } : FullThreadState).removed id with
    | none => rfl
    | some t' => exact share_removed hr

/-- For the task that is done the account is settled exactly. -/
theorem settledExactly_droppedFromPool {o : Option FullThreadState} (ho : o = some t) :
    SettledExactly f id o (t.droppedFromPool id) := by
  obtain h | h | h := droppedFromPool_cases t id
  · rw [h]
    exact settledExactly_of_same ho rfl rfl rfl
  · rw [h]
    rcases worksFor_erase t id id with hw | hw
    · refine settledExactly_of_not_worksFor ?_
      rw [Option.all_some, hw]
      rfl
    · exact settledExactly_of_same ho hw rfl rfl
  · rw [h]
    rcases removed_settles { t with poolTaskIds := t.poolTaskIds.erase id } id with
      hall | ⟨t', ht', -, hst', hst⟩
    · exact settledExactly_of_not_worksFor hall
    · rw [ht']
      exact settledExactly_of_marked ho (share_removed ht') hst' hst

/-- Both loops of `task_done`, on a thread that is listed for the task. -/
theorem settledExactly_removed_droppedFromPool {o : Option FullThreadState} (ho : o = some t) :
    SettledExactly f id o ((t.removed id).bind fun t => t.droppedFromPool id) := by
  cases hr : t.removed id with
  | none => exact settledExactly_of_not_worksFor rfl
  | some t1 =>
    rw [Option.bind_some]
    cases hd : t1.droppedFromPool id with
    | none => exact settledExactly_of_not_worksFor rfl
    | some t2 =>
      have htask : t2.taskId = t1.taskId := by
        obtain h | h | h := droppedFromPool_cases t1 id
        · rw [hd] at h
          cases h
          rfl
        · rw [hd] at h
          cases h
          rfl
        · rw [hd] at h
          have htask := taskId_of_removed h.symm
          exact htask
      have hworks : t2.worksFor id = true → t1.worksFor id = true :=
        worksFor_of_subset htask (mem_poolTaskIds_of_droppedFromPool hd)
      obtain hall | ⟨t', ht', hclear, hst', hst⟩ := removed_settles t id
      · refine settledExactly_of_not_worksFor ?_
        rw [hr, Option.all_some] at hall
        rw [Option.all_some]
        have hno : ¬t1.worksFor id = true := by simpa using hall
        simpa using mt hworks hno
      · rw [hr] at ht'
        cases ht'
        -- the first loop has marked the thread, and the mark stays
        obtain h | h | h := droppedFromPool_cases t1 id
        · rw [hd] at h
          cases h
          exact settledExactly_of_marked ho (share_removed hr) hst' hst
        · rw [hd] at h
          cases h
          refine settledExactly_of_marked ho (share_of_metrics ?_) hst' hst
          rw [hclear, AdditiveMetric.get_clear]
        · rw [hd] at h
          exact settledExactly_of_marked ho (share_removed h.symm) (state_of_removed h.symm hst') hst

/-! ### The accounts of an operation -/

/-- The sum over the threads that leave a task is the sum of their shares. -/
theorem sum_detached (s s' : Adaptor) (f : AdditiveMetric) (taskId : Int) :
    ∑ T ∈ s.detached s' taskId, s.threads[T]?.elim 0 (fun t => f.get t.metrics) =
      ∑ T ∈ s.detached s' taskId, s.threads[T]?.elim 0 (share f taskId) := by
  refine Finset.sum_congr rfl fun T hT => ?_
  have hdet := (Finset.mem_filter.1 hT).2
  cases hTs : s.threads[T]? with
  | none => rfl
  | some t =>
    rw [hTs, Option.any_some] at hdet
    unfold isDetached at hdet
    rw [Option.elim_some, Option.elim_some, share,
      if_pos (Bool.and_eq_true_iff.1 hdet).1]

/-- What is pending before is held by threads that leave the task, and by threads that stay. -/
theorem pending_eq_add (s s' : Adaptor) (f : AdditiveMetric) (taskId : Int) {K : Finset Int}
    (hK : s.threads.keys.toFinset ⊆ K) :
    s.pending f taskId =
      ∑ T ∈ s.detached s' taskId, s.threads[T]?.elim 0 (fun t => f.get t.metrics) +
        ∑ T ∈ K, if s.threads[T]?.any fun t => t.isDetached s'.threads[T]? taskId then 0
          else s.threads[T]?.elim 0 (share f taskId) := by
  have hrest : ∀ T ∈ K, T ∉ s.threads.keys.toFinset →
      (if s.threads[T]?.any fun t => t.isDetached s'.threads[T]? taskId then 0
        else s.threads[T]?.elim 0 (share f taskId)) = 0 := by
    intro T _ hT
    rw [List.mem_toFinset, ExtTreeMap.mem_keys] at hT
    rw [ExtTreeMap.getElem?_eq_none hT]
    rfl
  rw [sum_detached, ← Finset.sum_subset hK hrest]
  unfold pending ExtTreeMap.sumValues detached
  rw [Finset.sum_filter, ← Finset.sum_add_distrib]
  refine Finset.sum_congr rfl fun T _ => ?_
  split_ifs
  · rw [Nat.add_zero]
  · rw [Nat.zero_add]

theorem pending_eq_sum (s s' : Adaptor) (f : AdditiveMetric) (taskId : Int) :
    s'.pending f taskId = ∑ T ∈ s.threads.keys.toFinset ∪ s'.threads.keys.toFinset,
      s'.threads[T]?.elim 0 (share f taskId) :=
  ExtTreeMap.sumValues_eq_sum fun _ _ hT => Finset.mem_union_right _ (ExtTreeMap.mem_keys_toFinset hT)

/-- **The balance of an operation** that settles the account of every thread and loses `lost`. -/
theorem saved_of_total {lost : Nat} (htotal : s'.total f taskId + lost = s.total f taskId)
    (h : ∀ T : Int, Settled f taskId s.threads[T]? s'.threads[T]?) :
    s.kept f taskId +
        ∑ T ∈ s.detached s' taskId, s.threads[T]?.elim 0 (fun t => f.get t.metrics) ≤
      s'.kept f taskId + lost := by
  have hbefore := pending_eq_add s s' f taskId
    (show _ ⊆ _ ∪ s'.threads.keys.toFinset from Finset.subset_union_left)
  have hafter := pending_eq_sum s s' f taskId
  have hle := Finset.sum_le_sum (s := s.threads.keys.toFinset ∪ s'.threads.keys.toFinset)
    fun T _ => h T
  unfold total at htotal
  omega

/-- The exact balance, for a task whose accounts are settled exactly. -/
theorem saved_of_total_exactly {lost : Nat} (htotal : s'.total f taskId + lost = s.total f taskId)
    (h : ∀ T : Int, SettledExactly f taskId s.threads[T]? s'.threads[T]?) :
    s.kept f taskId +
        ∑ T ∈ s.detached s' taskId, s.threads[T]?.elim 0 (fun t => f.get t.metrics) =
      s'.kept f taskId + lost := by
  have hbefore := pending_eq_add s s' f taskId
    (show _ ⊆ _ ∪ s'.threads.keys.toFinset from Finset.subset_union_left)
  have hafter := pending_eq_sum s s' f taskId
  have hsum : s'.pending f taskId = ∑ T ∈ s.threads.keys.toFinset ∪ s'.threads.keys.toFinset,
      if s.threads[T]?.any fun t => t.isDetached s'.threads[T]? taskId then 0
      else s.threads[T]?.elim 0 (share f taskId) :=
    hafter.trans (Finset.sum_congr rfl fun T _ => h T)
  unfold total at htotal
  omega

theorem total_wakeUp : s.wakeUpThreadsAfterTaskFinishes.total f taskId = s.total f taskId := by
  have hkept : s.wakeUpThreadsAfterTaskFinishes.kept f taskId = s.kept f taskId :=
    kept_of_taskToMetrics (congrArg (fun l : Ledger => l.taskToMetrics) (ledger_wakeUpThreadsAfterTaskFinishes s))
  have hpending : s.wakeUpThreadsAfterTaskFinishes.pending f taskId = s.pending f taskId := by
    refine pending_congr fun U => ?_
    obtain ⟨st, -, heq⟩ := threads_wakeUp s U
    rw [heq]
    cases s.threads[U]? with
    | none => rfl
    | some t => rfl
  rw [total, total, hkept, hpending]

/-- Waking threads settles nothing new. -/
theorem settled_wakeUp {o : Option FullThreadState} {U : Int} :
    (Settled f taskId o s.wakeUpThreadsAfterTaskFinishes.threads[U]? ↔
        Settled f taskId o s.threads[U]?) ∧
      (SettledExactly f taskId o s.wakeUpThreadsAfterTaskFinishes.threads[U]? ↔
        SettledExactly f taskId o s.threads[U]?) := by
  obtain ⟨st, hst, heq⟩ := threads_wakeUp s U
  rw [heq]
  exact settled_map_state hst

theorem settled_refl (o : Option FullThreadState) : Settled f taskId o o := by
  cases o with
  | none => exact settled_of_share rfl
  | some t => exact (settledExactly_of_same rfl rfl rfl rfl).settled

theorem settled_removeThreadAssociation :
    Settled f taskId s.threads[U]? (s.removeThreadAssociation T id).2.threads[U]? := by
  rw [threads_removeThreadAssociation]
  by_cases hU : T = U
  · rw [if_pos hU]
    refine settled_of_share ?_
    cases s.threads[U]? with
    | none => rfl
    | some t =>
      rw [Option.bind_some]
      cases hr : t.removed id with
      | none => rfl
      | some t' => exact share_removed hr
  · rw [if_neg hU]
    exact settled_refl _

/-- What a step keeps in total and settles for each thread. -/
structure Accounted (s s' : Adaptor) : Prop where
  total : ∀ f taskId, s'.total f taskId = s.total f taskId
  settled : ∀ f taskId (T : Int), Settled f taskId s.threads[T]? s'.threads[T]?

theorem Accounted.saved (h : Accounted s s') (f : AdditiveMetric) (taskId : Int) :
    s.kept f taskId +
        ∑ T ∈ s.detached s' taskId, s.threads[T]?.elim 0 (fun t => f.get t.metrics) ≤
      s'.kept f taskId := by
  have htotal : s'.total f taskId + 0 = s.total f taskId := h.total f taskId
  exact saved_of_total htotal (h.settled f taskId)

theorem Accounted.refl (s : Adaptor) : Accounted s s where
  total _ _ := rfl
  settled _ _ _ := settled_refl _

theorem Accounted.runChecks {r : Bool × Adaptor} (h : Accounted s r.2) :
    Accounted s (if r.1 then r.2.wakeUpThreadsAfterTaskFinishes else r.2) := by
  split_ifs
  · exact ⟨fun f taskId => total_wakeUp.trans (h.total f taskId),
      fun f taskId T => settled_wakeUp.1.2 (h.settled f taskId T)⟩
  · exact h

theorem accounted_removeThreadAssociation :
    Accounted s (s.removeThreadAssociation T id).2 where
  total _ _ := total_removeThreadAssociation
  settled _ _ _ := settled_removeThreadAssociation

/-- A thread that comes new holds nothing. -/
theorem accounted_emplaceThread {taskId : Int} {isForShuffle : Bool}
    (hnone : s.threads[T]? = none) : Accounted s (s.emplaceThread T taskId isForShuffle) := by
  have hnew : ∀ f x, (s.newThread T taskId isForShuffle).share f x = 0 := fun f x =>
    share_of_metrics (AdditiveMetric.get_clear f)
  have hother : ∀ U, T ≠ U →
      (s.emplaceThread T taskId isForShuffle).threads[U]? = s.threads[U]? := by
    intro U hU
    rw [threads_emplaceThread, if_neg hU]
  refine ⟨fun f x => ?_, fun f x U => ?_⟩
  · have hpending := pending_update f x hother
    rw [threads_emplaceThread, if_pos rfl, hnone, Option.elim_none, Option.elim_some,
      hnew] at hpending
    have hkept : (s.emplaceThread T taskId isForShuffle).kept f x = s.kept f x := rfl
    unfold total
    omega
  · by_cases hU : T = U
    · rw [threads_emplaceThread, if_pos hU]
      exact settled_of_share (hnew f x)
    · rw [hother U hU]
      exact settled_refl _

theorem accounted_startDedicatedTaskThread :
    Accounted s (s.startDedicatedTaskThread T id).2 := by
  have hfixup : Accounted s (s.fixup T id) := by
    obtain ⟨h, -⟩ | ⟨t, -, -, -, h⟩ := fixup_cases s T id
    · rw [h]
      exact Accounted.refl s
    · rw [h]
      exact accounted_removeThreadAssociation
  obtain ⟨-, e, heq⟩ | ⟨-, ⟨hnone, heq⟩ | ⟨t, -, -, -, heq⟩ | ⟨t, e, -, heq⟩⟩ :=
    startDedicatedTaskThread_cases s T id
  · rw [heq]
    exact Accounted.refl s
  · rw [heq]
    have hnew : Accounted _ ((s.fixup T id).emplaceThread T id false) :=
      accounted_emplaceThread hnone
    refine ⟨fun f x => (hnew.total f x).trans (hfixup.total f x), fun f x U => ?_⟩
    change Settled f x s.threads[U]? ((s.fixup T id).emplaceThread T id false).threads[U]?
    by_cases hU : T = U
    · rw [threads_emplaceThread, if_pos hU]
      exact settled_of_share (share_of_metrics (AdditiveMetric.get_clear f))
    · rw [threads_emplaceThread, if_neg hU]
      exact hfixup.settled f x U
  · rw [heq]
    exact ⟨hfixup.total, hfixup.settled⟩
  · rw [heq]
    exact hfixup

theorem accounted_poolThreadFinishedForTasks {taskIds : ExtTreeSet Int} :
    Accounted s (s.poolThreadFinishedForTasks T taskIds).2 := by
  unfold poolThreadFinishedForTasks
  by_cases hdown : s.shuttingDown = true
  · rw [if_pos hdown]
    exact Accounted.refl s
  · rw [if_neg hdown]
    cases hT : s.threads[T]? with
    | none => exact Accounted.refl s
    | some t =>
      dsimp only
      set poolTaskIds := taskIds.toList.foldl (fun ids id => ids.erase id) t.poolTaskIds
      set t1 : FullThreadState := { t.checkpointed with poolTaskIds := poolTaskIds } with ht1
      set s1 := (s.checkpointMetrics T t).setThread T t1 with hs1
      have hshare : ∀ f x, t1.share f x = 0 := fun f x =>
        share_of_metrics (AdditiveMetric.get_clear f)
      have hthreads : ∀ U, s1.threads[U]? = if T = U then some t1 else s.threads[U]? := by
        intro U
        rw [hs1, threads_setThread, threads_checkpointMetrics]
        split_ifs <;> rfl
      -- the checkpoint moves the thread's share to the tasks
      have hfirst : Accounted s s1 := by
        refine ⟨fun f x => ?_, fun f x U => ?_⟩
        · have hother : ∀ U, T ≠ U → s1.threads[U]? = s.threads[U]? := fun U hU => by
            rw [hthreads, if_neg hU]
          have hpending := pending_update f x hother
          rw [hthreads, if_pos rfl, hT, Option.elim_some, Option.elim_some, hshare] at hpending
          have hkept : s1.kept f x = s.kept f x + t.share f x := kept_checkpointMetrics f x s T t
          unfold total
          omega
        · rw [hthreads]
          by_cases hU : T = U
          · rw [if_pos hU]
            exact settled_of_share (hshare f x)
          · rw [if_neg hU]
            exact settled_refl _
      by_cases hempty : poolTaskIds.isEmpty = true
      · rw [if_pos hempty]
        refine Accounted.runChecks ⟨fun f x => total_removeThreadAssociation.trans (hfirst.total f x),
          fun f x U => ?_⟩
        rw [threads_removeThreadAssociation]
        by_cases hU : T = U
        · rw [if_pos hU, hthreads, if_pos hU, Option.bind_some]
          refine settled_of_share ?_
          cases hr : t1.removed (-1) with
          | none => rfl
          | some t' => exact share_removed hr
        · rw [if_neg hU]
          exact hfirst.settled f x U
      · rw [if_neg hempty]
        exact hfirst

theorem accounted_allDone : Accounted s s.allDone where
  total f x := total_removeThreads s s.threads.keys
  settled f x U := by
    have hgone : ∀ t : FullThreadState, (t.removed (-1)).elim 0 (share f x) = 0 := by
      intro t
      cases hr : t.removed (-1) with
      | none => rfl
      | some t' => exact share_removed hr
    refine settled_of_share ?_
    have hkeys : s.threads.keys.Nodup := ExtTreeMap.nodup_keys
    have hthreads := threads_forThreads
      (fun s T V => threads_removeThreadAssociation s T (-1) V) s hkeys U
    change ((forThreads (fun s T => s.removeThreadAssociation T (-1))
      s.threads.keys s).2.threads[U]?).elim 0 _ = 0
    rw [hthreads]
    cases hU : s.threads[U]? with
    | none => split_ifs <;> rfl
    | some t =>
      have hmem : U ∈ s.threads.keys := by
        rw [ExtTreeMap.mem_keys]
        exact ExtTreeMap.mem_iff_isSome_getElem?.2 (by rw [hU]; rfl)
      rw [if_pos hmem, Option.bind_some]
      exact hgone t

/-! ### `task_done` -/

/-- What `task_done` loses: the shares the second loop comes to, after the first. -/
def poolShares (s : Adaptor) (f : AdditiveMetric) (id : Int) : Nat :=
  let s1 := (forThreads (fun s T => s.removeThreadAssociation T id) (s.listed id).toList s).2
  (s1.threads.keys.map (s1.poolShare f id)).sum

theorem threads_listed (s : Adaptor) (id U : Int) :
    (forThreads (fun s T => s.removeThreadAssociation T id) (s.listed id).toList s).2.threads[U]? =
      if U ∈ s.listed id then s.threads[U]?.bind fun t => t.removed id else s.threads[U]? := by
  have hloop := threads_forThreads (fun s T V => threads_removeThreadAssociation s T id V) s
    (ExtTreeSet.nodup_toList (s.listed id)) U
  rw [hloop]
  simp only [ExtTreeSet.mem_toList]

/-- Nothing is lost exactly when no pool thread holds anything. -/
theorem poolShares_eq_zero_iff :
    s.poolShares f id = 0 ↔
      ∀ (T : Int) (t : FullThreadState), s.threads[T]? = some t → T ∉ s.listed id →
        t.taskId < 0 → id ∈ t.poolTaskIds → f.get t.metrics = 0 := by
  unfold poolShares
  dsimp only
  set s1 := (forThreads (fun s T => s.removeThreadAssociation T id) (s.listed id).toList s).2
  rw [List.sum_eq_zero_iff_forall_eq_nat]
  constructor
  · intro h T t hT hlisted hneg hid
    have hT1 : s1.threads[T]? = some t := by rw [threads_listed, if_neg hlisted, hT]
    have hmem : T ∈ s1.threads.keys := by
      rw [ExtTreeMap.mem_keys]
      exact ExtTreeMap.mem_iff_isSome_getElem?.2 (by rw [hT1]; rfl)
    have hzero := h _ (List.mem_map_of_mem hmem)
    rw [poolShare, hT1, Option.elim_some, if_pos ⟨hneg, hid⟩] at hzero
    exact hzero
  · intro h n hn
    obtain ⟨T, -, rfl⟩ := List.mem_map.1 hn
    unfold poolShare
    cases hT1 : s1.threads[T]? with
    | none => rfl
    | some t =>
      rw [Option.elim_some]
      rw [threads_listed] at hT1
      by_cases hlisted : T ∈ s.listed id
      · rw [if_pos hlisted] at hT1
        obtain ⟨t0, -, hr⟩ := Option.bind_eq_some_iff.1 hT1
        -- the first loop has made a checkpoint of this thread
        have hclear : f.get t.metrics = 0 := by
          have hdrop : (t0.checkpointed.dropTask id).2.metrics = TaskMetrics.clear :=
            dropTask_metrics ..
          unfold removed at hr
          dsimp only at hr
          split_ifs at hr
          · cases hr
            exact (congrArg f.get hdrop).trans (AdditiveMetric.get_clear f)
          · cases hr
            rw [hdrop, AdditiveMetric.get_clear]
        rw [hclear, ite_self]
      · rw [if_neg hlisted] at hT1
        by_cases hpool : t.taskId < 0 ∧ id ∈ t.poolTaskIds
        · rw [if_pos hpool]
          exact h T t hT1 hlisted hpool.1 hpool.2
        · rw [if_neg hpool]

/-- `task_done`, up to the wake-up. -/
theorem total_taskDone (s : Adaptor) (id : Int) (f : AdditiveMetric) (taskId : Int) :
    (s.taskDone id).total f taskId + (if taskId = id then s.poolShares f id else 0) =
      s.total f taskId := by
  rw [taskDone_eq]
  dsimp only
  set s1 := (forThreads (fun s T => s.removeThreadAssociation T id) (s.listed id).toList s).2
    with hs1
  set r2 := forThreads (removeTaskFromPool id) s1.threads.keys s1
  have hfirst : s1.total f taskId = s.total f taskId := total_removeThreads s _
  have hkeys : s1.threads.keys.Nodup := ExtTreeMap.nodup_keys
  have hsecond := total_removeTasksFromPool id f taskId s1 hkeys
  have hlost : s.poolShares f id = (s1.threads.keys.map (s1.poolShare f id)).sum := rfl
  have hwake : ∀ b : Bool, (if b then r2.2.wakeUpThreadsAfterTaskFinishes else r2.2).total f taskId =
      r2.2.total f taskId := by
    intro b
    split_ifs
    · exact total_wakeUp
    · rfl
  have herase : ∀ s : Adaptor, ({ s with taskToThreads := s.taskToThreads.erase id } :
      Adaptor).total f taskId = s.total f taskId := fun _ => rfl
  rw [herase, hwake, hlost, ← hfirst]
  exact hsecond

/-- The entry `task_done` leaves, up to the wake-up. -/
theorem threads_taskDone (s : Adaptor) (id U : Int) :
    ∃ s2 : Adaptor,
      s2.threads[U]? = (if U ∈ s.listed id then s.threads[U]?.bind fun t => t.removed id
        else s.threads[U]?).bind (fun t => t.droppedFromPool id) ∧
      ((s.taskDone id).threads[U]? = s2.threads[U]? ∨
        (s.taskDone id).threads[U]? = s2.wakeUpThreadsAfterTaskFinishes.threads[U]?) := by
  rw [taskDone_eq]
  dsimp only
  set s1 := (forThreads (fun s T => s.removeThreadAssociation T id) (s.listed id).toList s).2
  refine ⟨(forThreads (removeTaskFromPool id) s1.threads.keys s1).2, ?_, ?_⟩
  · have hkeys : s1.threads.keys.Nodup := ExtTreeMap.nodup_keys
    rw [threads_forThreads (fun s T V => threads_removeTaskFromPool s T id V) s1 hkeys]
    rw [← threads_listed]
    by_cases hU : U ∈ s1.threads.keys
    · rw [if_pos hU]
    · rw [if_neg hU]
      rw [ExtTreeMap.mem_keys] at hU
      rw [ExtTreeMap.getElem?_eq_none hU]
      rfl
  · split_ifs
    · exact .inr rfl
    · exact .inl rfl

theorem settled_taskDone (s : Adaptor) (id : Int) (f : AdditiveMetric) (taskId U : Int) :
    Settled f taskId s.threads[U]? (s.taskDone id).threads[U]? ∧
      SettledExactly f id s.threads[U]? (s.taskDone id).threads[U]? := by
  obtain ⟨s2, hs2, hafter⟩ := threads_taskDone s id U
  have hsettled : Settled f taskId s.threads[U]? s2.threads[U]? ∧
      SettledExactly f id s.threads[U]? s2.threads[U]? := by
    rw [hs2]
    cases hU : s.threads[U]? with
    | none =>
      simp only [Option.bind_none, ite_self]
      exact ⟨settled_of_share rfl, settledExactly_of_not_worksFor rfl⟩
    | some t =>
      by_cases hlisted : U ∈ s.listed id
      · rw [if_pos hlisted, Option.bind_some]
        refine ⟨settled_of_share ?_, settledExactly_removed_droppedFromPool rfl⟩
        cases hr : t.removed id with
        | none => rfl
        | some t1 =>
          have hzero : t1.share f taskId = 0 := share_removed hr
          have hsettled : Settled f taskId (some t1) (t1.droppedFromPool id) :=
            settled_droppedFromPool rfl
          unfold Settled at hsettled
          rw [Option.elim_some, hzero, ite_self] at hsettled
          exact Nat.le_zero.1 hsettled
      · rw [if_neg hlisted, Option.bind_some]
        exact ⟨settled_droppedFromPool rfl, settledExactly_droppedFromPool rfl⟩
  rcases hafter with h | h
  · rw [h]
    exact hsettled
  · rw [h]
    exact ⟨settled_wakeUp.1.2 hsettled.1, settled_wakeUp.2.2 hsettled.2⟩

/-- **No metric is lost on detachment**, by any operation that takes threads from tasks, exactly
unless it is `task_done` and a pool thread of the task, one not listed for it, holds some. -/
theorem metrics_saved_iff {op : Op} (hop : op.Removes) :
    s.MetricsSaved op ↔
      ∀ id, op = .taskDone id → ∀ (T : Int) (t : FullThreadState), ¬s.HoldsAsPool id T t := by
  constructor
  · rintro hsaved id rfl T t ⟨hT, hlisted, hneg, hid, f, hf⟩
    have htotal := total_taskDone s id f id
    rw [if_pos rfl] at htotal
    have hexact := saved_of_total_exactly htotal fun U => (settled_taskDone s id f id U).2
    have hle := hsaved id f
    change _ ≤ (s.taskDone id).kept f id at hle
    have hzero : s.poolShares f id = 0 := by
      change _ + ∑ T ∈ s.detached (s.taskDone id) id, _ ≤ _ at hle
      omega
    exact hf (poolShares_eq_zero_iff.1 hzero T t hT hlisted hneg hid)
  · intro hpool
    cases op with
    | startDedicatedTaskThread T taskId => exact fun x f => accounted_startDedicatedTaskThread.saved f x
    | poolThreadFinishedForTasks T taskIds =>
      exact fun x f => accounted_poolThreadFinishedForTasks.saved f x
    | removeThreadAssociation T taskId =>
      exact fun x f => (Accounted.runChecks accounted_removeThreadAssociation).saved f x
    | taskDone id =>
      intro x f
      have hzero : s.poolShares f id = 0 := poolShares_eq_zero_iff.2 fun T t hT hlisted hneg hid => by
        by_contra hf
        exact hpool id rfl T t ⟨hT, hlisted, hneg, hid, f, hf⟩
      have htotal := total_taskDone s id f x
      rw [hzero, ite_self] at htotal
      exact saved_of_total htotal fun U => (settled_taskDone s id f x U).1
    | allDone => exact fun x f => accounted_allDone.saved f x
    | _ => exact hop.elim

/-- A dedicated thread throws a `RetryOOM`. -/
def retryOnce : List Op := [
  .startDedicatedTaskThread 1 1, .forceRetryOom 1 1 0 0, .preAlloc 1 false true]

/-- The `RetryOOM` of `retryOnce` is saved when the thread moves to another task. -/
theorem metrics_saved_iff_retryOnce :
    (run {} retryOnce).MetricsSaved (.startDedicatedTaskThread 1 2) :=
  (metrics_saved_iff (show (Op.startDedicatedTaskThread 1 2).Removes from trivial)).2
    (by rintro id ⟨⟩)

/-- A pool thread works on two tasks and throws a `RetryOOM`. -/
def retryInPool : List Op := [
  .poolThreadWorkingOnTasks false 1 {1, 2}, .forceRetryOom 1 1 0 0, .preAlloc 1 false true]

/-- When one of the two tasks is done the `RetryOOM` of `retryInPool` is saved for it nowhere. -/
theorem metrics_lost_by_task_done :
    ∃ s, system.Reachable s ∧ ¬s.MetricsSaved (.taskDone 1) := by
  refine ⟨run {} retryInPool, reachable_run reachable_new (by decide), fun hsaved => ?_⟩
  have hlost := hsaved 1 .numTimesRetryThrow
  revert hlost
  decide

end Adaptor

end SparkRapids.ResourceAdaptor
