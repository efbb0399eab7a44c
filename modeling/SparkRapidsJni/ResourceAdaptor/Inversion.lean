import SparkRapidsJni.ResourceAdaptor.Splitting

/-!
# Priority inversion

A pool thread should rank no lower than the dedicated threads of the tasks it works for, since these
wait for it. It ranks by the task with the lowest id, but priorities are given out in the order in
which tasks first ask for one, which need not be the order of their ids.

`no_priority_inversion_iff` says when the two orders agree as far as it matters: for every pool
thread, the task with the lowest id has its priority by the time another of its tasks has one
(`LowestTaskFirst`). The other parts of `NoInversion` hold in any case: `operator<` is a strict total
order on the registered threads, and shuffle threads rank above every thread with a task.

The table of priorities belongs to the process and not to the adaptor, so it is a second parameter
here, and `Reached` are the tables that some sequence of calls leads to.
-/

namespace SparkRapids.ResourceAdaptor

open Std (ExtTreeMap ExtTreeSet)

namespace TaskPriority

variable {p p' : TaskPriority} {id v w : Int}

/-- The tables of priorities that `get_task_priority` and `task_done` lead to. -/
inductive Reached : TaskPriority → Prop
  | new : Reached {}
  | getTaskPriority {p : TaskPriority} (id : Int) : Reached p → Reached (p.getTaskPriority id).2
  | taskDone {p : TaskPriority} (id : Int) : Reached p → Reached (p.taskDone id)

/-- The next priority is lower than all that are given out, and these are lower than that of a
thread without a task. -/
structure Descending (p : TaskPriority) : Prop where
  next_le : p.nextTaskPriority ≤ 2 ^ 63 - 2
  next_lt : ∀ id v : Int, p.attemptPriorities[id]? = some v → p.nextTaskPriority < v
  le_top : ∀ id v : Int, p.attemptPriorities[id]? = some v → v ≤ 2 ^ 63 - 2

theorem Descending.ask (h : p.Descending) (id : Int) : (p.getTaskPriority id).2.Descending := by
  by_cases hid : id = -1
  · unfold getTaskPriority
    rw [if_pos hid]
    exact h
  · cases hp : p.attemptPriorities[id]? with
    | some v =>
      unfold getTaskPriority
      rw [if_neg hid, hp]
      exact h
    | none =>
      rw [getTaskPriority_of_none hid hp]
      have hget : ∀ id' : Int, (p.attemptPriorities.insert id p.nextTaskPriority)[id']? =
          if id = id' then some p.nextTaskPriority else p.attemptPriorities[id']? :=
        fun id' => ExtTreeMap.getElem?_insert_eq ..
      have hnext := h.next_le
      refine ⟨?_, fun id' v hv => ?_, fun id' v hv => ?_⟩
      · dsimp only
        omega
      · dsimp only at hv ⊢
        rw [hget] at hv
        split_ifs at hv
        · cases hv
          omega
        · have := h.next_lt id' v hv
          omega
      · dsimp only at hv
        rw [hget] at hv
        split_ifs at hv
        · cases hv
          exact hnext
        · exact h.le_top id' v hv

theorem Descending.done (h : p.Descending) (id : Int) : (p.taskDone id).Descending := by
  unfold taskDone
  split_ifs
  · exact h
  · have hget : ∀ {id' v : Int}, (p.attemptPriorities.erase id)[id']? = some v →
        p.attemptPriorities[id']? = some v := by
      intro id' v hv
      rw [ExtTreeMap.getElem?_erase_eq] at hv
      split_ifs at hv
      exact hv
    exact ⟨h.next_le, fun id' v hv => h.next_lt id' v (hget hv),
      fun id' v hv => h.le_top id' v (hget hv)⟩

theorem Reached.descending (h : p.Reached) : p.Descending := by
  induction h with
  | new =>
    have hnone : ∀ id : Int, ({} : TaskPriority).attemptPriorities[id]? = none :=
      fun _ => ExtTreeMap.getElem?_empty
    refine ⟨le_rfl, fun id v hv => ?_, fun id v hv => ?_⟩
    · rw [hnone] at hv
      cases hv
    · rw [hnone] at hv
      cases hv
  | getTaskPriority id _ ih => exact ih.ask id
  | taskDone id _ ih => exact ih.done id

theorem Descending.asked (h : p.Descending) (hp : p.Asked p') : p'.Descending := by
  induction hp with
  | refl => exact h
  | tail _ hask ih =>
    obtain ⟨id, rfl⟩ := hask
    exact ih.ask id

/-- A task that has a priority, or stands for none, is known. -/
theorem Knows.value (h : p.Knows id v) (hp : p.Asked p') : (p'.getTaskPriority id).1 = v := by
  rw [(h.asked hp).getTaskPriority]

theorem not_knows_iff : (¬∃ v, p.Knows id v) ↔ id ≠ -1 ∧ p.attemptPriorities[id]? = none := by
  unfold Knows
  by_cases hid : id = -1
  · simp [hid]
  · rw [and_iff_right hid, Option.eq_none_iff_forall_ne_some, not_exists]
    exact forall_congr' fun v => by rw [if_neg hid]

theorem Descending.next_lt_known (h : p.Descending) (hk : p.Knows id v) :
    p.nextTaskPriority < v := by
  unfold Knows at hk
  have hnext := h.next_le
  split_ifs at hk
  · omega
  · exact h.next_lt id v hk

/-- The next priority only goes down, and so does what a task without a priority can get. -/
theorem next_le_of_asked (hp : p.Asked p') : p'.nextTaskPriority ≤ p.nextTaskPriority := by
  induction hp with
  | refl => exact le_rfl
  | tail _ hask ih =>
    obtain ⟨id, rfl⟩ := hask
    refine le_trans ?_ ih
    unfold getTaskPriority
    split_ifs
    · exact le_rfl
    · split
      · exact le_rfl
      · dsimp only
        omega

theorem value_le_next (hunknown : ¬∃ v, p.Knows id v) (hp : p.Asked p') :
    (p'.getTaskPriority id).1 ≤ p.nextTaskPriority := by
  obtain ⟨hid, hnone⟩ := not_knows_iff.1 hunknown
  have hprior : ∀ v : Int, p'.attemptPriorities[id]? = some v → v ≤ p.nextTaskPriority := by
    induction hp with
    | refl =>
      intro v hv
      rw [hnone] at hv
      cases hv
    | @tail p1 p2 hp hask ih =>
      obtain ⟨id', rfl⟩ := hask
      intro v hv
      by_cases hknown : ∃ v, p1.Knows id v
      · obtain ⟨v1, hv1⟩ := hknown
        have hv2 := hv1.ask id'
        unfold Knows at hv1 hv2
        rw [if_neg hid] at hv1 hv2
        rw [hv] at hv2
        cases hv2
        exact ih v hv1
      · -- the task gets a priority in this step, if at all
        obtain ⟨-, hnone1⟩ := not_knows_iff.1 hknown
        unfold getTaskPriority at hv
        split_ifs at hv with hid'
        · rw [hnone1] at hv
          cases hv
        · split at hv
          · rw [hnone1] at hv
            cases hv
          · dsimp only at hv
            rw [ExtTreeMap.getElem?_insert_eq] at hv
            split_ifs at hv
            · cases hv
              exact next_le_of_asked hp
            · rw [hnone1] at hv
              cases hv
  cases hp' : p'.attemptPriorities[id]? with
  | none =>
    rw [getTaskPriority_of_none hid hp']
    exact next_le_of_asked hp
  | some v =>
    have hk : p'.Knows id v := by
      unfold Knows
      rw [if_neg hid]
      exact hp'
    rw [hk.getTaskPriority]
    exact hprior v hp'

/-- Whatever is asked for, the first task is given no lower a priority than the second exactly when
it is the same task, or already has a priority and the second one no higher one. -/
theorem Descending.value_le_iff (h : p.Descending) {a m : Int} :
    (∀ p', p.Asked p' → (p'.getTaskPriority a).1 ≤ (p'.getTaskPriority m).1) ↔
      a = m ∨ ∃ v, p.Knows m v ∧ ∀ w, p.Knows a w → w ≤ v := by
  constructor
  · intro hle
    by_cases ham : a = m
    · exact .inl ham
    · refine .inr ?_
      by_cases hm : ∃ v, p.Knows m v
      · obtain ⟨v, hv⟩ := hm
        refine ⟨v, hv, fun w hw => ?_⟩
        have := hle p (.refl p)
        rwa [hv.value (.refl p), hw.value (.refl p)] at this
      · -- asking for the second task first gives it the higher priority
        exfalso
        have hask := Asked.ask p a
        have hlow := hle _ hask
        have hknows := p.knows_getTaskPriority a
        rw [hknows.value (.refl _)] at hlow
        have hm' : ¬∃ v, (p.getTaskPriority a).2.Knows m v := by
          rw [not_knows_iff] at hm ⊢
          refine ⟨hm.1, ?_⟩
          unfold getTaskPriority
          split_ifs
          · exact hm.2
          · split
            · exact hm.2
            · exact (ExtTreeMap.getElem?_insert_eq ..).trans (by rw [if_neg ham, hm.2])
        have hnext := (h.ask a).next_lt_known hknows
        have hvalue := value_le_next hm' (.refl _)
        omega
  · rintro (rfl | ⟨v, hv, hle⟩) p' hp
    · exact le_rfl
    · rw [hv.value hp]
      by_cases ha : ∃ w, p.Knows a w
      · obtain ⟨w, hw⟩ := ha
        rw [hw.value hp]
        exact hle w hw
      · exact (value_le_next ha hp).trans (h.next_lt_known hv).le

end TaskPriority

namespace Adaptor

variable {s : Adaptor} {p : TaskPriority}

/-- A pool thread, as `pool_thread_working_on_tasks` registers it. -/
def IsPool (t : FullThreadState) : Prop := t.taskId = -1

instance (t : FullThreadState) : Decidable (IsPool t) := inferInstanceAs (Decidable (_ = _))

/-- A thread with a task: a dedicated one, or a pool thread that works for tasks and not for the
shuffle. The ids of tasks are not negative. -/
def HasTask (t : FullThreadState) : Prop :=
  0 ≤ t.taskId ∨
    IsPool t ∧ t.isForShuffle = false ∧ (∃ id, id ∈ t.poolTaskIds) ∧ ∀ id ∈ t.poolTaskIds, 0 ≤ id

/-- Priorities on the registered threads, in every table that asking leads to from `p`. -/
structure NoInversion (s : Adaptor) (p : TaskPriority) : Prop where
  irrefl : ∀ (T : Int) (t : FullThreadState), s.threads[T]? = some t → ∀ p', p.Asked p' →
    (t.priority p').1.lt (t.priority p').1 = false
  trans : ∀ (T U V : Int) (t u v : FullThreadState), s.threads[T]? = some t →
    s.threads[U]? = some u → s.threads[V]? = some v → ∀ p', p.Asked p' →
    (t.priority p').1.lt (u.priority p').1 = true →
    (u.priority p').1.lt (v.priority p').1 = true → (t.priority p').1.lt (v.priority p').1 = true
  total : ∀ (T U : Int) (t u : FullThreadState), s.threads[T]? = some t → s.threads[U]? = some u →
    T ≠ U → ∀ p', p.Asked p' →
    (t.priority p').1.lt (u.priority p').1 = true ∨ (u.priority p').1.lt (t.priority p').1 = true
  /-- Shuffle threads rank above every thread with a task. -/
  shuffle_above : ∀ (T U : Int) (t u : FullThreadState), s.threads[T]? = some t →
    s.threads[U]? = some u → IsPool t → t.isForShuffle = true → HasTask u → ∀ p', p.Asked p' →
    (u.priority p').1.lt (t.priority p').1 = true
  /-- A pool thread ranks no lower than the dedicated threads of its tasks, by the task priority. -/
  pool_not_below : ∀ (T U : Int) (t u : FullThreadState), s.threads[T]? = some t →
    s.threads[U]? = some u → IsPool t → t.isForShuffle = false → 0 ≤ u.taskId →
    u.taskId ∈ t.poolTaskIds → ∀ p', p.Asked p' →
    (u.priority p').1.taskPriority ≤ (t.priority p').1.taskPriority
  /-- No dedicated thread of another task is woken while a pool thread is blocked that a task with
  a higher priority waits for. -/
  wakes_pool_first : ∀ isForCpu,
    let s' := wakeNextHighestPriorityBlocked { s with taskPriority := p } isForCpu
    ∀ (T U V : Int) (t u v : FullThreadState), s.threads[T]? = some t → s.threads[U]? = some u →
    s.threads[V]? = some v → IsPool t → t.isForShuffle = false → t.state = .blocked →
    t.isCpuAlloc = isForCpu → v.taskId ∈ t.poolTaskIds → 0 ≤ v.taskId →
    0 ≤ u.taskId → u.taskId ∉ t.poolTaskIds → u.state = .blocked →
    (∃ u', s'.threads[U]? = some u' ∧ u'.state = .running) →
    ¬(u.priority s'.taskPriority).1.taskPriority < (v.priority s'.taskPriority).1.taskPriority

/-- For every pool thread, the task with the lowest id has its priority, and no other of its tasks
with a dedicated thread has a higher one. -/
def LowestTaskFirst (s : Adaptor) (p : TaskPriority) : Prop :=
  ∀ (T U : Int) (t u : FullThreadState), s.threads[T]? = some t → s.threads[U]? = some u →
    IsPool t → t.isForShuffle = false → 0 ≤ u.taskId → u.taskId ∈ t.poolTaskIds →
    u.taskId = t.priorityTaskId ∨
      ∃ m, p.Knows t.priorityTaskId m ∧ ∀ w, p.Knows u.taskId w → w ≤ m

theorem priorityTaskId_dedicated {t : FullThreadState} (h : 0 ≤ t.taskId) :
    t.priorityTaskId = t.taskId := by
  unfold FullThreadState.priorityTaskId
  rw [if_neg fun hneg => absurd h (not_le.2 hneg.1)]

theorem priority_taskPriority (t : FullThreadState) (p : TaskPriority) :
    (t.priority p).1.taskPriority = (p.getTaskPriority t.priorityTaskId).1 := rfl

/-- The task a pool thread ranks by is one of those it works for. -/
theorem priorityTaskId_mem {t : FullThreadState} (hpool : IsPool t) (hsh : t.isForShuffle = false)
    {id : Int} (hid : id ∈ t.poolTaskIds) : t.priorityTaskId ∈ t.poolTaskIds := by
  unfold FullThreadState.priorityTaskId
  rw [if_pos ⟨by rw [hpool]; decide, hsh⟩]
  cases hmin : t.poolTaskIds.toList.min? with
  | none =>
    rw [List.min?_eq_none_iff] at hmin
    have hmem := ExtTreeSet.mem_toList.2 hid
    rw [hmin] at hmem
    cases hmem
  | some m => exact ExtTreeSet.mem_toList.1 (List.min?_mem hmin)

/-- The priority of a task is below the one a thread without a task has. -/
theorem taskPriority_le_of_hasTask {t : FullThreadState} (h : HasTask t) (hp : p.Descending) :
    (t.priority p).1.taskPriority ≤ 2 ^ 63 - 2 := by
  have hid : t.priorityTaskId ≠ -1 := by
    rcases h with h | ⟨hpool, hsh, ⟨id, hid⟩, hpos⟩
    · rw [priorityTaskId_dedicated h]
      omega
    · have := hpos _ (priorityTaskId_mem hpool hsh hid)
      omega
  rw [priority_taskPriority]
  have hknows := p.knows_getTaskPriority t.priorityTaskId
  have hdesc := hp.ask t.priorityTaskId
  unfold TaskPriority.Knows at hknows
  rw [if_neg hid] at hknows
  exact hdesc.le_top _ _ hknows

/-- The thread that is woken ranks no lower than any other that waited for the same memory. -/
theorem wakeNext_picks {isForCpu : Bool} {U : Int} {u u' : FullThreadState}
    (hU : s.threads[U]? = some u) (hblocked : u.state = .blocked)
    (hU' : (s.wakeNextHighestPriorityBlocked isForCpu).threads[U]? = some u')
    (hrunning : u'.state = .running) {T : Int} {t : FullThreadState} (hT : s.threads[T]? = some t)
    (ht : t.state = .blocked) (hcpu : t.isCpuAlloc = isForCpu) :
    let p' := (s.wakeNextHighestPriorityBlocked isForCpu).taskPriority
    s.taskPriority.Asked p' ∧ (t.priority p').1.rank ≤ (u.priority p').1.rank := by
  dsimp only
  unfold wakeNextHighestPriorityBlocked at hU' ⊢
  cases hpick : pickThread (fun toWake current => toWake.lt current)
      (fun t => decide (t.state = .blocked ∧ isForCpu = t.isCpuAlloc))
      s.threads.toList none s.taskPriority with
  | mk best p' =>
    rw [hpick] at hU'
    cases best with
    | none =>
      -- nothing was picked, so nothing runs
      dsimp only at hU'
      rw [hU] at hU'
      cases hU'
      rw [hblocked] at hrunning
      cases hrunning
    | some best =>
      obtain ⟨key, prio⟩ := best
      obtain ⟨w, hmem, -, rfl⟩ := pickThread_candidate hpick
      have hkey : s.threads[key]? = some w := ExtTreeMap.mem_toList_iff.1 hmem
      simp only [hkey] at hU' ⊢
      refine ⟨asked_of_pickThread hpick, ?_⟩
      rw [threads_notifyAll, threads_transition] at hU'
      by_cases hne : key = U
      · subst hne
        rw [hU] at hkey
        cases hkey
        exact (pickThread_best ThreadPriority.rank
          (fun b c => ThreadPriority.lt_iff_rank) hpick).1 (T, t)
          (ExtTreeMap.mem_toList_iff.2 hT) (decide_eq_true ⟨ht, hcpu.symm⟩)
      · rw [if_neg hne] at hU'
        change s.threads[U]? = some u' at hU'
        rw [hU] at hU'
        cases hU'
        rw [hblocked] at hrunning
        cases hrunning

/-- **No priority inversion**, in every reachable state and for every history of priorities, exactly
when the lowest task of every pool thread comes first. -/
theorem no_priority_inversion_iff (hs : system.Reachable s) (hp : p.Reached) :
    s.NoInversion p ↔ s.LowestTaskFirst p := by
  have hkeyed := keyed_invariant.reachable hs
  have hdesc := hp.descending
  have hne : ∀ {T U : Int} {t u : FullThreadState}, s.threads[T]? = some t →
      s.threads[U]? = some u → T ≠ U → ∀ p', (t.priority p').1.rank ≠ (u.priority p').1.rank := by
    intro T U t u hT hU hTU p' heq
    have hid := congrArg ThreadPriority.threadId (ThreadPriority.rank_injective heq)
    rw [FullThreadState.priority_threadId, FullThreadState.priority_threadId, hkeyed T t hT,
      hkeyed U u hU] at hid
    exact hTU hid
  constructor
  · intro h T U t u hT hU hpool hsh hu hmem
    refine hdesc.value_le_iff.1 fun p' hp' => ?_
    have hle := h.pool_not_below T U t u hT hU hpool hsh hu hmem p' hp'
    rwa [priority_taskPriority, priority_taskPriority, priorityTaskId_dedicated hu] at hle
  · intro h
    have hpoolNotBelow : ∀ (T U : Int) (t u : FullThreadState), s.threads[T]? = some t →
        s.threads[U]? = some u → IsPool t → t.isForShuffle = false → 0 ≤ u.taskId →
        u.taskId ∈ t.poolTaskIds → ∀ p', p.Asked p' →
        (u.priority p').1.taskPriority ≤ (t.priority p').1.taskPriority := by
      intro T U t u hT hU hpool hsh hu hmem p' hp'
      rw [priority_taskPriority, priority_taskPriority, priorityTaskId_dedicated hu]
      exact hdesc.value_le_iff.2 (h T U t u hT hU hpool hsh hu hmem) p' hp'
    refine ⟨fun T t _ p' _ => ?_, fun T U V t u v _ _ _ p' _ htu huv => ?_,
      fun T U t u hT hU hTU p' _ => ?_, fun T U t u _ _ hpool hsh hu p' hp' => ?_,
      hpoolNotBelow, ?_⟩
    · exact Bool.eq_false_iff.2 fun hlt => lt_irrefl _ (ThreadPriority.lt_iff_rank.1 hlt)
    · rw [ThreadPriority.lt_iff_rank] at htu huv ⊢
      exact htu.trans huv
    · rw [ThreadPriority.lt_iff_rank, ThreadPriority.lt_iff_rank]
      exact lt_or_gt_of_ne (hne hT hU hTU p')
    · -- a shuffle thread has no task, and its priority is above all that are given out
      have htop : (t.priority p').1.taskPriority = 2 ^ 63 - 1 := by
        rw [priority_taskPriority]
        unfold FullThreadState.priorityTaskId
        rw [if_neg (by simp [hsh]), hpool]
        rfl
      have hlow := taskPriority_le_of_hasTask hu (hdesc.asked hp')
      unfold ThreadPriority.lt
      rw [if_pos (by omega)]
    · intro isForCpu
      dsimp only
      rintro T U V t u v hT hU hV hpool hsh ht hcpu hmem hv hu - hblocked ⟨u', hU', hrunning⟩ hlt
      obtain ⟨hasked, hrank⟩ := wakeNext_picks (s := { s with taskPriority := p }) hU hblocked hU'
        hrunning hT ht hcpu
      have hle := hpoolNotBelow T V t v hT hV hpool hsh hv hmem _ hasked
      have htu : (t.priority (wakeNextHighestPriorityBlocked { s with taskPriority := p }
          isForCpu).taskPriority).1.taskPriority ≤
          (u.priority (wakeNextHighestPriorityBlocked { s with taskPriority := p }
            isForCpu).taskPriority).1.taskPriority := by
        rcases Prod.Lex.toLex_le_toLex.1 hrank with h1 | h1
        · exact h1.le
        · exact h1.1.le
      omega

/-- The pool thread `3` works for the tasks `1` and `2`, which have a dedicated thread each. -/
def poolThreadOfTwoTasks : List Op := [
  .startDedicatedTaskThread 1 1, .startDedicatedTaskThread 2 2,
  .poolThreadWorkingOnTasks false 3 {1, 2}]

/-- The table after the two tasks have asked for their priorities, one after the other. -/
def askedInOrder (first second : Int) : TaskPriority :=
  (({} : TaskPriority).getTaskPriority first).2.getTaskPriority second |>.2

theorem reached_askedInOrder (first second : Int) : (askedInOrder first second).Reached :=
  .getTaskPriority second (.getTaskPriority first .new)

/-- The tasks ask in the order of their ids. -/
theorem no_priority_inversion_askedInOrder :
    (run {} poolThreadOfTwoTasks).NoInversion (askedInOrder 1 2) := by
  refine (no_priority_inversion_iff (reachable_run reachable_new (by decide))
    (reached_askedInOrder 1 2)).2 ?_
  have hlowest := forall_threads_of_toList (s := run {} poolThreadOfTwoTasks)
    (P := fun t => decide (t.taskId ≠ -1) || decide (t.priorityTaskId = 1)) (by decide)
  have htasks := forall_threads_of_toList (s := run {} poolThreadOfTwoTasks)
    (P := fun t => decide (t.taskId < 0 ∨ t.taskId = 1 ∨ t.taskId = 2)) (by decide)
  intro T U t u hT hU hpool _ hu _
  have hlow : t.priorityTaskId = 1 := by
    have h := hlowest T t hT
    rw [show t.taskId = -1 from hpool] at h
    simpa using h
  rcases of_decide_eq_true (htasks U u hU) with h | h | h
  · omega
  · exact .inl (by rw [h, hlow])
  · have h1 : (askedInOrder 1 2).attemptPriorities[(1 : Int)]? = some (2 ^ 63 - 2) := by decide
    have h2 : (askedInOrder 1 2).attemptPriorities[(2 : Int)]? = some (2 ^ 63 - 3) := by decide
    refine .inr ⟨2 ^ 63 - 2, ?_, fun w hw => ?_⟩
    · rw [hlow]
      exact h1
    · rw [h] at hw
      change (askedInOrder 1 2).attemptPriorities[(2 : Int)]? = some w at hw
      rw [h2] at hw
      cases hw
      decide

/-- The task `2` asks first, so the pool thread that works for it ranks below its dedicated
thread. -/
theorem priority_inversion :
    ∃ s, system.Reachable s ∧ ∃ p : TaskPriority, p.Reached ∧ ¬s.NoInversion p := by
  refine ⟨run {} poolThreadOfTwoTasks, reachable_run reachable_new (by decide),
    askedInOrder 2 1, reached_askedInOrder 2 1, fun h => ?_⟩
  have hpool : (run {} poolThreadOfTwoTasks).threads[(3 : Int)]?.any (fun t =>
      decide (IsPool t ∧ t.isForShuffle = false ∧ 2 ∈ t.poolTaskIds ∧ t.priorityTaskId = 1)) =
      true := by decide
  have hdedicated : (run {} poolThreadOfTwoTasks).threads[(2 : Int)]?.any (fun u =>
      decide (u.taskId = 2)) = true := by decide
  obtain ⟨t, hT, ht⟩ := (Option.any_eq_true _ _).1 hpool
  obtain ⟨u, hU, hu⟩ := (Option.any_eq_true _ _).1 hdedicated
  obtain ⟨hispool, hsh, hmem, hlow⟩ := of_decide_eq_true ht
  have hu : u.taskId = 2 := of_decide_eq_true hu
  have hle := h.pool_not_below 3 2 t u hT hU hispool hsh (by rw [hu]; decide) (hu ▸ hmem)
    (askedInOrder 2 1) (.refl _)
  rw [priority_taskPriority, priority_taskPriority, hlow,
    priorityTaskId_dedicated (by rw [hu]; decide), hu] at hle
  revert hle
  decide

end Adaptor

end SparkRapids.ResourceAdaptor
