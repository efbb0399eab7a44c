import SparkRapidsJni.ResourceAdaptor.Refinement

/-!
# What the operations leave alone

The adaptor's `Books` are the fields only registering, removing, shutting down and the metrics
write. Every other operation, blocking and allocating among them, leaves them as they are
(`Adaptor.books_exec`). Registering and removing keep `shutting_down`, and use up the condition
variables in order, so a condition variable belongs to one registration of one thread
(`Adaptor.fresh_invariant`).
-/

namespace SparkRapids.ResourceAdaptor

open Std (ExtTreeMap ExtTreeSet)

/-- The fields of the adaptor that only registering, removing, shutting down and reading metrics
write. -/
structure Books where
  taskToThreads : ExtTreeMap Int (ExtTreeSet Int)
  taskToMetrics : ExtTreeMap Int TaskMetrics
  shuttingDown : Bool
  nextCondition : Nat

/-- The operation writes none of the `Books`. -/
def Op.KeepsBooks : Op → Prop
  | startDedicatedTaskThread _ _ | poolThreadWorkingOnTasks _ _ _ | poolThreadFinishedForTasks _ _
  | removeThreadAssociation _ _ | taskDone _ | allDone | getAndResetMetric _ _
  | removeTaskMetrics _ => False
  | _ => True

namespace Adaptor

/-- The books of the adaptor. -/
def books (s : Adaptor) : Books where
  taskToThreads := s.taskToThreads
  taskToMetrics := s.taskToMetrics
  shuttingDown := s.shuttingDown
  nextCondition := s.nextCondition

/-- The books, and the bytes allocated on the GPU. -/
structure Ledger extends Books where
  gpuMemoryAllocatedBytes : Int

def ledger (s : Adaptor) : Ledger where
  toBooks := s.books
  gpuMemoryAllocatedBytes := s.gpuMemoryAllocatedBytes

variable (s : Adaptor) (T : Int)

theorem ledger_foldl_notifyAll (cs : List Nat) : (cs.foldl notifyAll s).ledger = s.ledger := by
  induction cs generalizing s with
  | nil => rfl
  | cons c cs ih => exact ih (s.notifyAll c)

theorem ledger_wakeThreadsIn (wakes : ThreadState → Bool) : (s.wakeThreadsIn wakes).ledger = s.ledger :=
  ledger_foldl_notifyAll _ _

theorem ledger_wakeUpThreadsAfterTaskFinishes :
    s.wakeUpThreadsAfterTaskFinishes.ledger = s.ledger := by
  unfold wakeUpThreadsAfterTaskFinishes
  dsimp only
  split_ifs
  · exact ledger_wakeThreadsIn ..
  · rw [ledger_wakeThreadsIn, ledger_wakeThreadsIn]

theorem ledger_wakeNextHighestPriorityBlocked (cpu : Bool) :
    (s.wakeNextHighestPriorityBlocked cpu).ledger = s.ledger := by
  unfold wakeNextHighestPriorityBlocked
  split
  · rfl
  · dsimp only
    split
    all_goals rfl

theorem ledger_rollBackLowestPriorityBlocked : s.rollBackLowestPriorityBlocked.ledger = s.ledger := by
  unfold rollBackLowestPriorityBlocked
  dsimp only
  repeat' split
  all_goals rfl

theorem ledger_splitHighestPriorityBufn : s.splitHighestPriorityBufn.ledger = s.ledger := by
  unfold splitHighestPriorityBufn
  dsimp only
  repeat' split
  all_goals rfl

theorem ledger_checkAndUpdateForBufn (java : Option (ExtTreeSet Int)) :
    (s.checkAndUpdateForBufn java).ledger = s.ledger := by
  unfold checkAndUpdateForBufn
  dsimp only
  split_ifs
  · rw [ledger_splitHighestPriorityBufn, ledger_rollBackLowestPriorityBlocked]
  · exact ledger_rollBackLowestPriorityBlocked s
  · rfl

theorem ledger_blockIteration : (s.blockIteration T).2.ledger = s.ledger := by
  unfold blockIteration
  cases s.threads[T]? with
  | none => rfl
  | some t =>
    dsimp only
    cases t.state <;> dsimp only
    case bufnWait =>
      have hcheck := ledger_checkAndUpdateForBufn (s.transition T .bufn) none
      repeat' split
      all_goals exact hcheck
    all_goals rfl

theorem ledger_blockLoop (turns : Nat) : (s.blockLoop turns T).2.ledger = s.ledger := by
  induction turns generalizing s with
  | zero => rfl
  | succ n ih =>
    have hstep := s.ledger_blockIteration T
    unfold blockLoop
    cases hit : s.blockIteration T with
    | mk step s1 =>
      rw [hit] at hstep
      cases step with
      | again => exact (ih s1).trans hstep
      | _ => exact hstep

theorem ledger_finishPreAlloc (cpu : Bool) (entry : Nat) :
    (s.finishPreAlloc T cpu entry).2.ledger = s.ledger := by
  unfold finishPreAlloc
  repeat' split
  all_goals rfl

theorem ledger_waitOnEntry (k : Resume) : (s.waitOnEntry T k).2.ledger = s.ledger := by
  unfold waitOnEntry
  split
  all_goals rfl

theorem ledger_blockThreadUntilReady (k : Resume) :
    (s.blockThreadUntilReady T k).2.ledger = s.ledger := by
  have hloop := s.ledger_blockLoop T 2
  unfold blockThreadUntilReady
  cases hl : s.blockLoop 2 T with
  | mk step s1 =>
    rw [hl] at hloop
    cases step with
    | done =>
      cases k with
      | publicBlock => exact hloop
      | preAlloc cpu entry => exact (ledger_finishPreAlloc ..).trans hloop
    | wait => exact (ledger_waitOnEntry ..).trans hloop
    | threw e => exact hloop
    | again => exact hloop

theorem ledger_wake : (s.wake T).2.ledger = s.ledger := by
  unfold wake
  cases s.sleepers[T]? with
  | none => rfl
  | some z =>
    dsimp only
    split
    · rfl
    · split_ifs
      · rfl
      · exact ledger_blockThreadUntilReady ..

theorem ledger_preAllocCore (cpu blocking : Bool) :
    (s.preAllocCore T cpu blocking).2.ledger = s.ledger := by
  unfold preAllocCore
  cases s.threads[T]? with
  | none => rfl
  | some t =>
    dsimp only
    by_cases halloc : t.state = .alloc ∨ t.state = .allocFree
    · rw [if_pos halloc]
      split_ifs <;> rfl
    · rw [if_neg halloc]
      cases t.injectedException cpu s.now with
      | mk e t1 =>
        cases e with
        | some e => rfl
        | none =>
          dsimp only
          split_ifs
          · exact ledger_blockThreadUntilReady ..
          · exact ledger_finishPreAlloc ..

theorem books_postAllocSuccessCore (cpu recur : Bool) (numBytes : Nat) :
    (s.postAllocSuccessCore T cpu recur numBytes).2.books = s.books := by
  unfold postAllocSuccessCore
  by_cases hrec : recur = true
  · rw [if_pos hrec]
  · rw [if_neg hrec]
    cases s.threads[T]? with
    | none => rfl
    | some t =>
      dsimp only
      split_ifs
      · rfl
      all_goals exact congrArg Ledger.toBooks (ledger_wakeNextHighestPriorityBlocked ..)

theorem ledger_postAllocFailedSwitch (cpu isOom blocking recur : Bool) :
    (s.postAllocFailedSwitch T cpu isOom blocking recur).2.ledger = s.ledger := by
  unfold postAllocFailedSwitch
  repeat' split
  all_goals rfl

theorem ledger_postAllocFailedCore (cpu isOom blocking recur : Bool) :
    (s.postAllocFailedCore T cpu isOom blocking recur).2.ledger = s.ledger := by
  have hswitch := s.ledger_postAllocFailedSwitch T cpu isOom blocking recur
  unfold postAllocFailedCore
  cases hsw : s.postAllocFailedSwitch T cpu isOom blocking recur with
  | mk res s1 =>
    rw [hsw] at hswitch
    cases res with
    | error e => exact hswitch
    | ok retry => exact (ledger_checkAndUpdateForBufn ..).trans hswitch

theorem books_deallocCore (cpu : Bool) (numBytes : Nat) :
    (s.deallocCore T cpu numBytes).books = s.books := by
  unfold deallocCore
  dsimp only
  refine (congrArg Ledger.toBooks (ledger_wakeNextHighestPriorityBlocked ..)).trans ?_
  cases s.threads[T]? with
  | none => rfl
  | some t =>
    dsimp only
    split_ifs <;> rfl

theorem ledger_updateThread (f : FullThreadState → FullThreadState) :
    (s.updateThread T f).ledger = s.ledger := by
  unfold updateThread
  split
  all_goals rfl

theorem ledger_forceException (f : FullThreadState → Except Exn FullThreadState) :
    (s.forceException T f).2.ledger = s.ledger := by
  unfold forceException
  repeat' split
  all_goals rfl

/-- The operation writes none of the books and does not end with a change of the allocated bytes. -/
theorem ledger_exec {op : Op} (h : op.KeepsBooks)
    (hsuccess : ∀ T cpu recur numBytes,
      op ≠ .postAllocSuccess T cpu recur numBytes)
    (hfree : ∀ T cpu numBytes, op ≠ .dealloc T cpu numBytes) :
    (s.exec op).2.ledger = s.ledger := by
  cases op with
  | startRetryBlock T => exact ledger_updateThread ..
  | endRetryBlock T => exact ledger_updateThread ..
  | isWorkingOnTaskAsPoolThread T => rfl
  | waitingOnPoolStatusChanged T poolBlocked =>
    dsimp only [exec, waitingOnPoolStatusChanged]
    repeat' split
    all_goals rfl
  | forceRetryOom => exact ledger_forceException ..
  | forceSplitAndRetryOom => exact ledger_forceException ..
  | forceCudfException => exact ledger_forceException ..
  | getMetric => rfl
  | getTotalBlockedOrLost => rfl
  | checkAndBreakDeadlocks ids => exact ledger_checkAndUpdateForBufn ..
  | getThreadStateAsInt => rfl
  | preAlloc T cpu blocking => exact ledger_preAllocCore ..
  | postAllocSuccess => exact absurd rfl (hsuccess _ _ _ _)
  | postAllocFailed => exact ledger_postAllocFailedCore ..
  | dealloc => exact absurd rfl (hfree _ _ _)
  | spillRangeStart => exact ledger_updateThread ..
  | spillRangeDone => exact ledger_updateThread ..
  | blockThreadUntilReady T => exact ledger_blockThreadUntilReady ..
  | wake T => exact ledger_wake ..
  | getTaskPriority => rfl
  | priorityTaskDone => rfl
  | tick => rfl
  | startDedicatedTaskThread => exact h.elim
  | poolThreadWorkingOnTasks => exact h.elim
  | poolThreadFinishedForTasks => exact h.elim
  | removeThreadAssociation => exact h.elim
  | taskDone => exact h.elim
  | allDone => exact h.elim
  | getAndResetMetric => exact h.elim
  | removeTaskMetrics => exact h.elim

/-- The operations that write none of the books. -/
theorem books_exec {op : Op} (h : op.KeepsBooks) : (s.exec op).2.books = s.books := by
  by_cases hsuccess : ∃ T cpu recur numBytes,
      op = .postAllocSuccess T cpu recur numBytes
  · obtain ⟨T, cpu, recur, numBytes, rfl⟩ := hsuccess
    exact books_postAllocSuccessCore ..
  · by_cases hfree : ∃ T cpu numBytes, op = .dealloc T cpu numBytes
    · obtain ⟨T, cpu, numBytes, rfl⟩ := hfree
      exact books_deallocCore ..
    · refine congrArg Ledger.toBooks (ledger_exec s h ?_ ?_)
      · exact fun T cpu recur numBytes h => hsuccess ⟨_, _, _, _, h⟩
      · exact fun T cpu numBytes h => hfree ⟨_, _, _, h⟩

/-! ### Registering and removing -/

theorem counters_forThreads {f : Adaptor → Int → Bool × Adaptor}
    (hf : ∀ s T, (f s T).2.counters = s.counters) (s : Adaptor) (ids : List Int) :
    (forThreads f ids s).2.counters = s.counters := by
  unfold forThreads
  generalize false = b
  induction ids generalizing b s with
  | nil => rfl
  | cons T rest ih =>
    rw [List.foldl_cons]
    exact (ih (f s T).2 ((f s T).1 || b)).trans (hf s T)

theorem counters_removeTaskFromPool (s : Adaptor) (T id : Int) :
    (removeTaskFromPool id s T).2.counters = s.counters := by
  unfold removeTaskFromPool
  cases s.threads[T]? with
  | none => rfl
  | some t =>
    dsimp only
    split_ifs
    · exact counters_removeThreadAssociation _ T id
    · rfl
    · rfl

theorem counters_of_ledger {s s' : Adaptor} (h : s'.ledger = s.ledger) :
    s'.counters = s.counters := by
  have hcondition : s'.nextCondition = s.nextCondition :=
    congrArg (fun l : Ledger => l.nextCondition) h
  have hdown : s'.shuttingDown = s.shuttingDown := congrArg (fun l : Ledger => l.shuttingDown) h
  have hbytes : s'.gpuMemoryAllocatedBytes = s.gpuMemoryAllocatedBytes :=
    congrArg Ledger.gpuMemoryAllocatedBytes h
  unfold counters
  rw [hcondition, hdown, hbytes]

theorem counters_wakeUp : s.wakeUpThreadsAfterTaskFinishes.counters = s.counters :=
  counters_of_ledger (ledger_wakeUpThreadsAfterTaskFinishes s)

/-- Registering a thread uses up a condition variable. -/
theorem counters_startDedicatedTaskThread (taskId : Int) :
    s.nextCondition ≤ (s.startDedicatedTaskThread T taskId).2.nextCondition ∧
      (s.startDedicatedTaskThread T taskId).2.shuttingDown = s.shuttingDown ∧
      (s.startDedicatedTaskThread T taskId).2.gpuMemoryAllocatedBytes =
        s.gpuMemoryAllocatedBytes := by
  have hfixup := counters_fixup s T taskId
  have hcondition : (s.fixup T taskId).nextCondition = s.nextCondition :=
    congrArg Counters.nextCondition hfixup
  have hrest := And.intro (congrArg Counters.shuttingDown hfixup)
    (congrArg Counters.gpuMemoryAllocatedBytes hfixup)
  obtain ⟨-, e, heq⟩ | ⟨-, ⟨-, heq⟩ | ⟨t, -, -, -, heq⟩ | ⟨t, e, -, heq⟩⟩ :=
    startDedicatedTaskThread_cases s T taskId
  · rw [heq]
    exact ⟨le_rfl, rfl, rfl⟩
  · rw [heq]
    refine ⟨?_, hrest⟩
    change s.nextCondition ≤ (s.fixup T taskId).nextCondition + 1
    rw [hcondition]
    exact Nat.le_succ _
  · rw [heq]
    exact ⟨hcondition.ge, hrest⟩
  · rw [heq]
    exact ⟨hcondition.ge, hrest⟩

theorem counters_poolThreadWorkingOnTasks (shuffle : Bool) (taskIds : ExtTreeSet Int) :
    s.nextCondition ≤ (s.poolThreadWorkingOnTasks shuffle T taskIds).2.nextCondition ∧
      (s.poolThreadWorkingOnTasks shuffle T taskIds).2.shuttingDown = s.shuttingDown ∧
      (s.poolThreadWorkingOnTasks shuffle T taskIds).2.gpuMemoryAllocatedBytes =
        s.gpuMemoryAllocatedBytes := by
  obtain ⟨e, heq⟩ | ⟨-, ⟨-, heq⟩ | ⟨t, -, -, -, heq⟩⟩ :=
    poolThreadWorkingOnTasks_cases s shuffle T taskIds
  · rw [heq]
    exact ⟨le_rfl, rfl, rfl⟩
  · rw [heq]
    exact ⟨Nat.le_succ _, rfl, rfl⟩
  · rw [heq]
    exact ⟨le_rfl, rfl, rfl⟩

theorem counters_removeAndWake (taskId : Int) :
    (s.exec (.removeThreadAssociation T taskId)).2.counters = s.counters := by
  have hremove := s.counters_removeThreadAssociation T taskId
  dsimp only [exec]
  split_ifs
  · exact (counters_wakeUp (s.removeThreadAssociation T taskId).2).trans hremove
  · exact hremove

theorem counters_poolThreadFinishedForTasks (taskIds : ExtTreeSet Int) :
    (s.poolThreadFinishedForTasks T taskIds).2.counters = s.counters := by
  unfold poolThreadFinishedForTasks
  by_cases hdown : s.shuttingDown = true
  · rw [if_pos hdown]
  · rw [if_neg hdown]
    cases s.threads[T]? with
    | none => rfl
    | some t =>
      dsimp only
      set s1 := (s.checkpointMetrics T t).setThread T _
      have hremove := counters_removeThreadAssociation s1 T (-1)
      by_cases hempty : (taskIds.toList.foldl (fun ids id => ids.erase id) t.poolTaskIds).isEmpty
      · rw [if_pos hempty]
        dsimp only
        split_ifs
        · exact (counters_wakeUp (s1.removeThreadAssociation T (-1)).2).trans hremove
        · exact hremove
      · rw [if_neg hempty]
        rfl

theorem counters_taskDone (taskId : Int) : (s.taskDone taskId).counters = s.counters := by
  rw [taskDone_eq]
  dsimp only
  have h1 := counters_forThreads (f := fun s T => s.removeThreadAssociation T taskId)
    (fun s T => counters_removeThreadAssociation s T taskId) s (s.listed taskId).toList
  set s1 :=
    (forThreads (fun s T => s.removeThreadAssociation T taskId) (s.listed taskId).toList s).2
  have h2 := counters_forThreads (f := removeTaskFromPool taskId)
    (fun s T => counters_removeTaskFromPool s T taskId) s1 s1.threads.keys
  split_ifs
  · have h3 := counters_wakeUp (forThreads (removeTaskFromPool taskId) s1.threads.keys s1).2
    exact h3.trans (h2.trans h1)
  · exact h2.trans h1

theorem counters_allDone :
    s.allDone.nextCondition = s.nextCondition ∧
      s.allDone.gpuMemoryAllocatedBytes = s.gpuMemoryAllocatedBytes := by
  have h := counters_forThreads (f := fun s T => s.removeThreadAssociation T (-1))
    (fun s T => counters_removeThreadAssociation s T (-1)) s s.threads.keys
  exact ⟨congrArg Counters.nextCondition h, congrArg Counters.gpuMemoryAllocatedBytes h⟩

theorem ledger_getAndResetMetric (taskId : Int) (metric : Metric) :
    (s.getAndResetMetric taskId metric).2.counters = s.counters ∧
      (s.getAndResetMetric taskId metric).2.taskToThreads = s.taskToThreads := by
  have hfold : ∀ (kts : List (Int × FullThreadState)) (s : Adaptor),
      (kts.foldl (fun s kt => s.setThread kt.1
        { kt.2 with metrics := metric.reset kt.2.metrics }) s).ledger = s.ledger := by
    intro kts
    induction kts with
    | nil => exact fun s => rfl
    | cons kt rest ih => exact fun s => ih _
  have h := hfold (s.threadsOfTask taskId) s
  exact ⟨@counters_of_ledger s ((s.threadsOfTask taskId).foldl _ s) h,
    congrArg (fun l : Ledger => l.taskToThreads) h⟩

/-- Condition variables are used up in order, and only `all_done` shuts the adaptor down. -/
theorem counters_exec (op : Op) :
    s.nextCondition ≤ (s.exec op).2.nextCondition ∧
      (op ≠ .allDone → (s.exec op).2.shuttingDown = s.shuttingDown) := by
  have of_eq : ∀ {s' : Adaptor}, s'.counters = s.counters →
      s.nextCondition ≤ s'.nextCondition ∧ (op ≠ .allDone → s'.shuttingDown = s.shuttingDown) :=
    fun h => ⟨(congrArg Counters.nextCondition h).ge, fun _ => congrArg Counters.shuttingDown h⟩
  by_cases hop : op.KeepsBooks
  · have h := s.books_exec hop
    exact ⟨(congrArg Books.nextCondition h).ge, fun _ => congrArg Books.shuttingDown h⟩
  · cases op with
    | startDedicatedTaskThread T taskId =>
      have h := s.counters_startDedicatedTaskThread T taskId
      exact ⟨h.1, fun _ => h.2.1⟩
    | poolThreadWorkingOnTasks shuffle T taskIds =>
      have h := s.counters_poolThreadWorkingOnTasks T shuffle taskIds
      exact ⟨h.1, fun _ => h.2.1⟩
    | poolThreadFinishedForTasks T taskIds =>
      exact of_eq (s.counters_poolThreadFinishedForTasks T taskIds)
    | removeThreadAssociation T taskId => exact of_eq (s.counters_removeAndWake T taskId)
    | taskDone taskId => exact of_eq (s.counters_taskDone taskId)
    | allDone => exact ⟨s.counters_allDone.1.ge, fun hne => absurd rfl hne⟩
    | getAndResetMetric taskId metric => exact of_eq (s.ledger_getAndResetMetric taskId metric).1
    | removeTaskMetrics taskId => exact of_eq rfl
    | _ => exact absurd trivial hop

/-- Only a successful allocation and a free change the bytes allocated on the GPU. -/
theorem gpuMemoryAllocatedBytes_exec {op : Op}
    (hsuccess : ∀ T cpu recur numBytes,
      op ≠ .postAllocSuccess T cpu recur numBytes)
    (hfree : ∀ T cpu numBytes, op ≠ .dealloc T cpu numBytes) :
    (s.exec op).2.gpuMemoryAllocatedBytes = s.gpuMemoryAllocatedBytes := by
  by_cases hop : op.KeepsBooks
  · exact congrArg Ledger.gpuMemoryAllocatedBytes (s.ledger_exec hop hsuccess hfree)
  · cases op with
    | startDedicatedTaskThread T taskId => exact (s.counters_startDedicatedTaskThread T taskId).2.2
    | poolThreadWorkingOnTasks shuffle T taskIds =>
      exact (s.counters_poolThreadWorkingOnTasks T shuffle taskIds).2.2
    | poolThreadFinishedForTasks T taskIds =>
      exact congrArg Counters.gpuMemoryAllocatedBytes
        (s.counters_poolThreadFinishedForTasks T taskIds)
    | removeThreadAssociation T taskId =>
      exact congrArg Counters.gpuMemoryAllocatedBytes (s.counters_removeAndWake T taskId)
    | taskDone taskId => exact congrArg Counters.gpuMemoryAllocatedBytes (s.counters_taskDone taskId)
    | allDone => exact s.counters_allDone.2
    | getAndResetMetric taskId metric =>
      exact congrArg Counters.gpuMemoryAllocatedBytes (s.ledger_getAndResetMetric taskId metric).1
    | removeTaskMetrics taskId => rfl
    | _ => exact absurd trivial hop

/-! ### One condition variable for each registration -/

/-- The condition variables of the entries have been used up. -/
def Fresh (s : Adaptor) : Prop :=
  ∀ (T : Int) (t : FullThreadState), s.threads[T]? = some t → t.wakeCondition < s.nextCondition

variable {s}

/-- Moves without a registration bring no condition variable in. -/
theorem condition_of_moves {r : Rights} {U : Int} {x y : Snapshot} (hr : ¬r.register)
    (hmoves : Moves r U x y) {e' : Registration} (he' : y.entry = some e') :
    ∃ e, x.entry = some e ∧ e'.condition = e.condition := by
  refine Moves.preserves (P := fun y => ∀ e', y.entry = some e' →
    ∃ e, x.entry = some e ∧ e'.condition = e.condition) ?_ hmoves (fun e he => ⟨e, he, rfl⟩) e' he'
  intro y z hy hmove e' he'
  rcases hmove.identity he' with ⟨e, he, -, -, hc⟩ | ⟨hreg, -⟩
  · obtain ⟨e0, he0, hc0⟩ := hy e he
    exact ⟨e0, he0, hc.trans hc0⟩
  · exact absurd hreg hr

theorem fresh_of_moves {s' : Adaptor} (hs : s.Fresh)
    (h : ∀ U, ∃ r, ¬r.register ∧ Moves r U (s.snapshot U) (s'.snapshot U))
    (hn : s.nextCondition ≤ s'.nextCondition) : s'.Fresh := by
  intro U t' ht'
  obtain ⟨r, hr, hmoves⟩ := h U
  have he' : (s'.snapshot U).entry = some t'.registration := by rw [snapshot_of_some ht']
  obtain ⟨e, he, hc⟩ := condition_of_moves hr hmoves he'
  obtain ⟨t, ht, rfl⟩ := Option.map_eq_some_iff.1 he
  have hlt := hs U t ht
  change t'.wakeCondition = t.wakeCondition at hc
  omega

theorem fresh_setThread {t : FullThreadState} (hs : s.Fresh) (ht : t.wakeCondition < s.nextCondition) :
    (s.setThread T t).Fresh := by
  intro U t' hU
  rw [threads_setThread] at hU
  split_ifs at hU
  · cases hU
    exact ht
  · exact hs U t' hU

theorem fresh_emplaceThread (hs : s.Fresh) (taskId : Int) (shuffle : Bool) :
    (s.emplaceThread T taskId shuffle).Fresh := by
  unfold emplaceThread
  refine fresh_setThread T (fun U t hU => ?_) (Nat.lt_succ_self _)
  exact Nat.lt_succ_of_lt (hs U t hU)

/-- The entries of every reachable state own condition variables that have been used up. -/
theorem fresh_invariant : system.Invariant fun s => s.Keyed ∧ s.Fresh := by
  refine keyed_invariant.strengthen ?_ ?_
  · intro s hs T t hT
    have hnone : s.threads = ∅ := congrArg Adaptor.threads hs
    rw [hnone, ExtTreeMap.getElem?_empty] at hT
    cases hT
  · rintro s op s' hkeyed hs ⟨hen, -, rfl⟩
    have hn := (s.counters_exec op).1
    cases op with
    | startDedicatedTaskThread T taskId =>
      -- `FIXUP` only removes, so no condition variable is made
      have hfixup : (s.fixup T taskId).Fresh := by
        obtain ⟨heq, -⟩ | ⟨t, -, -, -, heq⟩ := fixup_cases s T taskId
        · rw [heq]
          exact hs
        · rw [heq]
          refine fresh_of_moves hs (fun U => ⟨{ erase := True, mark := True }, not_false,
            moves_removeThreadAssociation s (fun _ => trivial) fun _ _ _ _ => trivial⟩) ?_
          exact (congrArg Counters.nextCondition (counters_removeThreadAssociation s T t.taskId)).ge
      change (s.startDedicatedTaskThread T taskId).2.Fresh
      obtain ⟨-, e, heq⟩ | ⟨-, ⟨-, heq⟩ | ⟨t, -, -, -, heq⟩ | ⟨t, e, -, heq⟩⟩ :=
        startDedicatedTaskThread_cases s T taskId
      · rw [heq]
        exact hs
      · rw [heq]
        exact fresh_emplaceThread T hfixup taskId false
      · rw [heq]
        exact hfixup
      · rw [heq]
        exact hfixup
    | poolThreadWorkingOnTasks shuffle T taskIds =>
      change (s.poolThreadWorkingOnTasks shuffle T taskIds).2.Fresh
      obtain ⟨e, heq⟩ | ⟨-, ⟨-, heq⟩ | ⟨t, hT, -, -, heq⟩⟩ :=
        poolThreadWorkingOnTasks_cases s shuffle T taskIds
      · rw [heq]
        exact hs
      · rw [heq]
        -- the new entry takes the next number, and is then written twice
        have h := fresh_emplaceThread T hs (-1) shuffle
        exact fresh_setThread T (fresh_setThread T h (Nat.lt_succ_self _)) (Nat.lt_succ_self _)
      · rw [heq]
        exact fresh_setThread T (fresh_setThread T hs (hs T t hT)) (hs T t hT)
    | _ => exact fresh_of_moves hs (fun U => ⟨_, And.right, exec_moves hkeyed hen U⟩) hn

end Adaptor

end SparkRapids.ResourceAdaptor
