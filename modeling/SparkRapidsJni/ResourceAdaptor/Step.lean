import Mathlib
import SparkRapidsJni.Lib.Lts
import SparkRapidsJni.ResourceAdaptor.Adaptor

/-!
# The adaptor as a transition system

The public operations of `spark_resource_adaptor`, each from the moment it takes `state_mutex` to
the moment it returns, throws or begins to wait on a condition variable: `Adaptor.exec`. A wait
releases the mutex, so other operations run before the operation `Op.wake` continues the one that
waits; a wait may also end without a notification. `do_allocate` and `do_deallocate` take the mutex
once for each of their critical sections, which are operations of their own here: the child
resource, called in between, succeeds or fails as it likes.

* `Adaptor.Outcome` is how a critical section ends. Using a map entry that is not there any more
  has undefined behaviour in the source, and is the outcome `undefinedBehavior` here: there is no
  step after it.
* `Adaptor.system` is the transition system: a thread runs an operation only while it is not inside
  a wait.
-/

namespace SparkRapids.ResourceAdaptor

open Std (ExtTreeMap ExtTreeSet)

/-- A value an operation returns. -/
inductive Ret where
  | unit
  | bool (b : Bool)
  | int (n : Int)
  deriving DecidableEq, Repr

/-- How a critical section ends. -/
inductive Outcome where
  | returned (r : Ret)
  | threw (e : Exn)
  /-- The thread waits on a condition variable and has released the mutex. -/
  | waiting
  | undefinedBehavior
  deriving DecidableEq, Repr

/-- The critical sections of the public operations. `self` is the thread that runs the operation
where the operation asks for it (`pthread_self`). -/
inductive Op where
  | startDedicatedTaskThread (threadId taskId : Int)
  | startRetryBlock (threadId : Int)
  | endRetryBlock (threadId : Int)
  | isWorkingOnTaskAsPoolThread (threadId : Int)
  | poolThreadWorkingOnTasks (isForShuffle : Bool) (threadId : Int) (taskIds : ExtTreeSet Int)
  | poolThreadFinishedForTasks (threadId : Int) (taskIds : ExtTreeSet Int)
  | removeThreadAssociation (threadId taskId : Int)
  | taskDone (taskId : Int)
  | waitingOnPoolStatusChanged (threadId : Int) (poolBlocked : Bool)
  /-- The first critical section of `all_done`, which marks the threads. -/
  | allDone
  | forceRetryOom (threadId numOoms oomFilter skipCount : Int)
  | forceSplitAndRetryOom (threadId numOoms oomFilter skipCount : Int)
  | forceCudfException (threadId numTimes : Int)
  | getAndResetMetric (taskId : Int) (metric : Metric)
  | getMetric (taskId : Int) (metric : Metric)
  | getTotalBlockedOrLost (taskId : Int)
  | removeTaskMetrics (taskId : Int)
  | checkAndBreakDeadlocks (javaBlockedThreadIds : ExtTreeSet Int)
  | getThreadStateAsInt (threadId : Int)
  | preAlloc (self : Int) (isForCpu blocking : Bool)
  | postAllocSuccess (self : Int) (isForCpu wasRecursive : Bool) (numBytes : Nat)
  | postAllocFailed (self : Int) (isForCpu isOom blocking wasRecursive : Bool)
  | dealloc (self : Int) (isForCpu : Bool) (numBytes : Nat)
  | spillRangeStart (self : Int)
  | spillRangeDone (self : Int)
  | blockThreadUntilReady (self : Int)
  /-- The wait of `self` ends, notified or not. -/
  | wake (self : Int)
  /-- `TaskPriority.getTaskPriority`, called from Java. -/
  | getTaskPriority (attemptId : Int)
  /-- `TaskPriority.taskDone`, called from Java. -/
  | priorityTaskDone (attemptId : Int)
  /-- Time passes. -/
  | tick (nanos : Nat)

/-- The thread that runs the operation, for the operations that depend on it. -/
def Op.self? : Op → Option Int
  | .preAlloc self _ _ | .postAllocSuccess self _ _ _ | .postAllocFailed self _ _ _ _
  | .dealloc self _ _ | .spillRangeStart self | .spillRangeDone self
  | .blockThreadUntilReady self | .wake self => some self
  | _ => none

/-- The operation is the end of a wait. -/
def Op.isWake : Op → Bool
  | .wake _ => true
  | _ => false

namespace Adaptor

/-! ### Registration -/

/-- The FIXUP of `start_dedicated_task_thread`: a thread that is still dedicated to another task is
taken from it. -/
def fixup (s : Adaptor) (threadId taskId : Int) : Adaptor :=
  match s.threads[threadId]? with
  | some t =>
    if 0 ≤ t.taskId ∧ t.taskId ≠ taskId then (s.removeThreadAssociation threadId t.taskId).2 else s
  | none => s

/-- `task_to_threads[task_id].insert(thread_id)`, with the set made when it is missing. -/
def dedicate (s : Adaptor) (threadId taskId : Int) : Adaptor :=
  { s with
    taskToThreads :=
      s.taskToThreads.insert taskId ((s.taskToThreads[taskId]?.getD ∅).insert threadId) }

/-- `start_dedicated_task_thread`. -/
def startDedicatedTaskThread (s : Adaptor) (threadId taskId : Int) : Outcome × Adaptor :=
  if s.shuttingDown then (.threw (.runtimeError "spark_resource_adaptor is shutting down"), s)
  else
    let s := s.fixup threadId taskId
    match s.threads[threadId]? with
    | none =>
      (.returned .unit, (s.emplaceThread threadId taskId false).dedicate threadId taskId)
    | some t =>
      if t.state = .removeThrow then
        (.threw (.invalidArgument
          s!"A thread {threadId} is shutting down {t.taskId} vs {taskId}"), s)
      else if t.taskId ≠ taskId then
        (.threw (.invalidArgument
          (s!"A thread {threadId} can only be dedicated to a single task." ++
            s!"{t.taskId} != {taskId}")), s)
      else (.returned .unit, s.dedicate threadId taskId)

/-- The end of `pool_thread_working_on_tasks`, on the entry `t`: the metrics for all tasks are saved
before new ones are added. -/
def addPoolTasks (s : Adaptor) (threadId : Int) (t : FullThreadState) (taskIds : ExtTreeSet Int) :
    Adaptor :=
  (s.checkpointMetrics threadId t).setThread threadId
    { t.checkpointed with
      poolTaskIds := taskIds.toList.foldl (fun ids id => ids.insert id) t.poolTaskIds }

/-- `pool_thread_working_on_tasks`. -/
def poolThreadWorkingOnTasks (s : Adaptor) (isForShuffle : Bool) (threadId : Int)
    (taskIds : ExtTreeSet Int) : Outcome × Adaptor :=
  if s.shuttingDown then (.threw (.runtimeError "spark_resource_adaptor is shutting down"), s)
  else
    match s.threads[threadId]? with
    | none =>
      (.returned .unit, (s.emplaceThread threadId (-1) isForShuffle).addPoolTasks threadId
        (s.newThread threadId (-1) isForShuffle) taskIds)
    | some t =>
      if t.taskId ≠ -1 then
        (.threw (.invalidArgument "the thread is associated with a non-pool task already"), s)
      else if t.state = .removeThrow then
        (.threw (.invalidArgument "the thread is in the process of shutting down."), s)
      else if t.isForShuffle ≠ isForShuffle then
        (.threw (.invalidArgument
          (if isForShuffle then
            "the thread is marked as a non-shuffle thread, and we cannot change it while there " ++
              "are active tasks"
          else
            "the thread is marked as a shuffle thread, and we cannot change it while there are " ++
              "active tasks")), s)
      else (.returned .unit, s.addPoolTasks threadId t taskIds)

/-- `pool_thread_finished_for_tasks`. -/
def poolThreadFinishedForTasks (s : Adaptor) (threadId : Int) (taskIds : ExtTreeSet Int) :
    Outcome × Adaptor :=
  if s.shuttingDown then (.threw (.runtimeError "spark_resource_adaptor is shutting down"), s)
  else
    match s.threads[threadId]? with
    | none => (.returned .unit, s)
    | some t =>
      -- save the metrics for all tasks before any of them is removed
      let poolTaskIds := taskIds.toList.foldl (fun ids id => ids.erase id) t.poolTaskIds
      let s := (s.checkpointMetrics threadId t).setThread threadId
        { t.checkpointed with poolTaskIds }
      if poolTaskIds.isEmpty then
        let (runChecks, s) := s.removeThreadAssociation threadId (-1)
        (.returned .unit, if runChecks then s.wakeUpThreadsAfterTaskFinishes else s)
      else (.returned .unit, s)

/-- A loop over thread ids that collects whether any turn asks for the wake-up (`run_checks`). -/
def forThreads (f : Adaptor → Int → Bool × Adaptor) (threadIds : List Int) (s : Adaptor) :
    Bool × Adaptor :=
  threadIds.foldl
    (fun r threadId => ((f r.2 threadId).1 || r.1, (f r.2 threadId).2))
    (false, s)

/-- The body of the second loop of `task_done`: drop the task from the pool tasks of a thread. -/
def removeTaskFromPool (taskId : Int) (s : Adaptor) (threadId : Int) : Bool × Adaptor :=
  match s.threads[threadId]? with
  | none => (false, s)
  | some t =>
    if taskId ∈ t.poolTaskIds then
      let t := { t with poolTaskIds := t.poolTaskIds.erase taskId }
      let s := s.setThread threadId t
      if t.poolTaskIds.isEmpty then s.removeThreadAssociation threadId taskId else (false, s)
    else (false, s)

/-- `task_done`. -/
def taskDone (s : Adaptor) (taskId : Int) : Adaptor :=
  let threadsToRemove := match s.taskToThreads[taskId]? with
    | some threadIds => threadIds.toList
    | none => []
  let (runChecks, s) :=
    forThreads (fun s threadId => s.removeThreadAssociation threadId taskId) threadsToRemove s
  let (runChecks', s) := forThreads (removeTaskFromPool taskId) s.threads.keys s
  let s := if runChecks' || runChecks then s.wakeUpThreadsAfterTaskFinishes else s
  { s with taskToThreads := s.taskToThreads.erase taskId }

/-- The first critical section of `all_done`. -/
def allDone (s : Adaptor) : Adaptor :=
  let (_, s) :=
    forThreads (fun s threadId => s.removeThreadAssociation threadId (-1)) s.threads.keys s
  { s with shuttingDown := true }

/-- `waiting_on_pool_status_changed`. -/
def waitingOnPoolStatusChanged (s : Adaptor) (threadId : Int) (poolBlocked : Bool) :
    Outcome × Adaptor :=
  let notDedicated :=
    Exn.invalidArgument s!"thread {threadId} is not a dedicated task thread"
  match s.threads[threadId]? with
  | none => (.threw notDedicated, s)
  | some t =>
    if t.taskId < 0 then (.threw notDedicated, s)
    else (.returned .unit, s.setThread threadId { t with poolBlocked })

/-- The operations that write fields of one registered thread and do nothing for another. -/
def updateThread (s : Adaptor) (threadId : Int) (f : FullThreadState → FullThreadState) : Adaptor :=
  match s.threads[threadId]? with
  | none => s
  | some t => s.setThread threadId (f t)

/-! ### Injected exceptions -/

/-- The part `force_retry_oom`, `force_split_and_retry_oom` and `force_cudf_exception` share: the
thread has to be registered. -/
def forceException (s : Adaptor) (threadId : Int)
    (f : FullThreadState → Except Exn FullThreadState) : Outcome × Adaptor :=
  match s.threads[threadId]? with
  | none => (.threw (.invalidArgument "the thread is not associated with any task/shuffle"), s)
  | some t =>
    match f t with
    | .error e => (.threw e, s)
    | .ok t => (.returned .unit, s.setThread threadId t)

/-- `force_retry_oom`. -/
def forceRetryOom (s : Adaptor) (threadId numOoms oomFilter skipCount : Int) : Outcome × Adaptor :=
  s.forceException threadId fun t =>
    (OomStateType.init numOoms skipCount oomFilter).map fun o => { t with retryOom := o }

/-- `force_split_and_retry_oom`. -/
def forceSplitAndRetryOom (s : Adaptor) (threadId numOoms oomFilter skipCount : Int) :
    Outcome × Adaptor :=
  s.forceException threadId fun t =>
    (OomStateType.init numOoms skipCount oomFilter).map fun o => { t with splitAndRetryOom := o }

/-- `force_cudf_exception`. -/
def forceCudfException (s : Adaptor) (threadId numTimes : Int) : Outcome × Adaptor :=
  s.forceException threadId fun t => .ok { t with cudfExceptionInjected := numTimes }

/-! ### Reading metrics -/

/-- The registered threads `task_to_threads` lists for a task. -/
def threadsOfTask (s : Adaptor) (taskId : Int) : List (Int × FullThreadState) :=
  match s.taskToThreads[taskId]? with
  | none => []
  | some threadIds =>
    threadIds.toList.filterMap fun threadId => s.threads[threadId]?.map fun t => (threadId, t)

/-- `get_metric`. -/
def getMetric (s : Adaptor) (taskId : Int) (metric : Metric) : Int :=
  ((s.threadsOfTask taskId).map fun kt => metric.get kt.2.metrics).sum +
    match s.taskToMetrics[taskId]? with
    | some m => metric.get m
    | none => 0

/-- `get_and_reset_metric`. -/
def getAndResetMetric (s : Adaptor) (taskId : Int) (metric : Metric) : Int × Adaptor :=
  let reset := (s.threadsOfTask taskId).foldl
    (fun s kt => s.setThread kt.1 { kt.2 with metrics := metric.reset kt.2.metrics }) s
  (s.getMetric taskId metric,
    { reset with taskToMetrics := reset.taskToMetrics.modify taskId metric.reset })

/-- `get_total_blocked_or_lost`. -/
def getTotalBlockedOrLost (s : Adaptor) (taskId : Int) : Int :=
  ((s.threadsOfTask taskId).map fun kt =>
      (kt.2.currentlyBlockedFor s.now : Int) + kt.2.metrics.timeLostOrBlocked).sum +
    match s.taskToMetrics[taskId]? with
    | some m => m.timeLostOrBlocked
    | none => 0

/-- `get_thread_state_as_int`. -/
def getThreadStateAsInt (s : Adaptor) (threadId : Int) : Int :=
  match s.threads[threadId]? with
  | some t => t.state.toInt
  | none => -1

/-- `is_working_on_task_as_pool_thread`. -/
def isWorkingOnTaskAsPoolThread (s : Adaptor) (threadId : Int) : Bool :=
  match s.threads[threadId]? with
  | some t => !t.poolTaskIds.isEmpty
  | none => false

/-! ### Blocking -/

/-- The end of `pre_alloc_core`, after any blocking. It uses the entry it found when it started, the
one that owns the condition variable `entry`. -/
def finishPreAlloc (s : Adaptor) (threadId : Int) (isForCpu : Bool) (entry : Nat) :
    Outcome × Adaptor :=
  match s.threads[threadId]? with
  | none => (.undefinedBehavior, s)
  | some t =>
    if t.wakeCondition ≠ entry then (.undefinedBehavior, s)
    else if t.state = .running then
      (.returned (.bool false),
        s.setThread threadId { t with state := .alloc, isCpuAlloc := isForCpu })
    else
      (.threw (.invalidArgument
        s!"thread {threadId} in unexpected state pre alloc {t.state.asStr}"), s)

/-- What the thread does when `block_thread_until_ready` returns. -/
def proceed (s : Adaptor) (threadId : Int) : Resume → Outcome × Adaptor
  | .publicBlock => (.returned .unit, s)
  | .preAlloc isForCpu entry => s.finishPreAlloc threadId isForCpu entry

/-- The thread waits on the condition variable of its entry. -/
def waitOnEntry (s : Adaptor) (threadId : Int) (resume : Resume) : Outcome × Adaptor :=
  match s.threads[threadId]? with
  | none => (.undefinedBehavior, s)
  | some t => (.waiting, s.sleep threadId t.wakeCondition resume)

/-- `block_thread_until_ready` from the head of its loop. Two turns of the loop always end it or
reach a wait (`blockLoop_two_ne_again`). -/
def blockThreadUntilReady (s : Adaptor) (threadId : Int) (resume : Resume) : Outcome × Adaptor :=
  match s.blockLoop 2 threadId with
  | (.done, s) => s.proceed threadId resume
  | (.wait, s) => s.waitOnEntry threadId resume
  | (.threw e, s) => (.threw e, s)
  | (.again, s) => (.undefinedBehavior, s)

/-- A thread returns from its wait: it waits again while its entry says it is blocked, and goes on
with the loop of `block_thread_until_ready` otherwise. -/
def wake (s : Adaptor) (threadId : Int) : Outcome × Adaptor :=
  match s.sleepers[threadId]? with
  | none => (.returned .unit, s)
  | some z =>
    let s := { s with sleepers := s.sleepers.erase threadId }
    match s.threads[threadId]? with
    | none =>
      -- `after_block` on `threads.end()`
      (.undefinedBehavior, s)
    | some t =>
      if isBlocked t.state then (.waiting, s.sleep threadId t.wakeCondition z.resume)
      else (s.setThread threadId (t.afterBlock s.now)).blockThreadUntilReady threadId z.resume

/-! ### Allocating and freeing -/

/-- `pre_alloc_core`. -/
def preAllocCore (s : Adaptor) (threadId : Int) (isForCpu blocking : Bool) : Outcome × Adaptor :=
  match s.threads[threadId]? with
  | none => (.returned (.bool false), s)
  | some t =>
    if t.state = .alloc ∨ t.state = .allocFree then
      if isForCpu && blocking then
        (.threw (.invalidArgument
          (s!"thread {threadId} is trying to do a blocking allocate while already in the state " ++
            t.state.asStr)), s)
      else (.returned (.bool true), s)
    else
      match t.injectedException isForCpu s.now with
      | (some e, t) => (.threw e, s.setThread threadId t)
      | (none, t) =>
        let s := s.setThread threadId t
        if blocking then
          s.blockThreadUntilReady threadId (.preAlloc isForCpu t.wakeCondition)
        else s.finishPreAlloc threadId isForCpu t.wakeCondition

/-- What a successful allocation of `numBytes` adds to the thread's GPU memory metrics, given the
bytes that are now allocated in all. -/
def allocatedMetrics (t : FullThreadState) (numBytes : Nat) (allocatedBytes : Int) : TaskMetrics :=
  let m := t.metrics
  let m :=
    if t.isInSpilling then m
    else
      let active := m.gpuMemoryActiveFootprint + numBytes
      { m with
        gpuMemoryActiveFootprint := active
        gpuMemoryMaxFootprint := max active m.gpuMemoryMaxFootprint }
  { m with gpuMaxMemoryAllocated := max m.gpuMaxMemoryAllocated allocatedBytes }

/-- `post_alloc_success_core`. -/
def postAllocSuccessCore (s : Adaptor) (threadId : Int) (isForCpu wasRecursive : Bool)
    (numBytes : Nat) : Outcome × Adaptor :=
  if wasRecursive then (.returned .unit, s)
  else
    match s.threads[threadId]? with
    | none => (.returned .unit, s)
    | some t =>
      let t := { t with isRetryAllocBeforeBufn := false }
      if t.state = .alloc ∨ t.state = .allocFree then
        if t.isCpuAlloc ≠ isForCpu then
          (.threw (.invalidArgument
            s!"thread {threadId} has a mismatch on CPU vs GPU post alloc {t.state.asStr}"),
            s.setThread threadId t)
        else
          let t := { t with state := .running, isCpuAlloc := false }
          let s :=
            if isForCpu then s.setThread threadId t
            else
              let allocatedBytes := s.gpuMemoryAllocatedBytes + numBytes
              { s with gpuMemoryAllocatedBytes := allocatedBytes }.setThread threadId
                { t with metrics := allocatedMetrics t numBytes allocatedBytes }
          (.returned .unit, s.wakeNextHighestPriorityBlocked isForCpu)
      else
        (.returned .unit, (s.setThread threadId t).wakeNextHighestPriorityBlocked isForCpu)

/-- The state switch of `post_alloc_failed_core`: the thread's own next state, before the check for
deadlocks. The result says whether the allocation is retried. -/
def postAllocFailedSwitch (s : Adaptor) (threadId : Int)
    (isForCpu isOom blocking wasRecursive : Bool) : Except Exn Bool × Adaptor :=
  match s.threads[threadId]? with
  | none => (.ok false, s)
  | some t =>
    if wasRecursive then (.ok false, s)
    else if t.isCpuAlloc ≠ isForCpu then
      (.error (.invalidArgument
        s!"thread {threadId} has a mismatch on CPU vs GPU post alloc {t.state.asStr}"), s)
    else
      match t.state with
      | .allocFree => (.ok true, s.setThread threadId { t with state := .running })
      | .alloc =>
        if isOom && t.isRetryAllocBeforeBufn then
          (.ok true, (s.setThread threadId
            { t with isRetryAllocBeforeBufn := false, state := .bufnThrow }).notifyAll
              t.wakeCondition)
        else if isOom && blocking then
          (.ok true, s.setThread threadId
            { t with isRetryAllocBeforeBufn := false, state := .blocked })
        else (.ok true, s.setThread threadId { t with state := .running })
      | _ =>
        (.error (.runtimeError
          s!"Internal error: unexpected state after alloc failed {threadId} {t.state.asStr}"), s)

/-- `post_alloc_failed_core`. -/
def postAllocFailedCore (s : Adaptor) (threadId : Int)
    (isForCpu isOom blocking wasRecursive : Bool) : Outcome × Adaptor :=
  match s.postAllocFailedSwitch threadId isForCpu isOom blocking wasRecursive with
  | (.error e, s) => (.threw e, s)
  | (.ok retry, s) => (.returned (.bool retry), s.checkAndUpdateForBufn none)

/-- `dealloc_core`, by the thread `tid`. -/
def deallocCore (s : Adaptor) (tid : Int) (isForCpu : Bool) (numBytes : Nat) : Adaptor :=
  let s :=
    match s.threads[tid]? with
    | none => s
    | some t =>
      if isForCpu then s
      else
        let metrics :=
          if t.isInSpilling then t.metrics
          else { t.metrics with
            gpuMemoryActiveFootprint := t.metrics.gpuMemoryActiveFootprint - numBytes }
        { s with gpuMemoryAllocatedBytes := s.gpuMemoryAllocatedBytes - numBytes }.setThread tid
          { t with metrics }
  -- only the other threads: the free may be part of handling this thread's own failed allocation
  let threads := s.threads.map fun _ t =>
    if t.threadId ≠ tid ∧ t.state = .alloc ∧ isForCpu = t.isCpuAlloc then
      { t with state := .allocFree }
    else t
  { s with threads }.wakeNextHighestPriorityBlocked isForCpu

/-! ### The transition system -/

/-- A critical section: how it ends, and the state it leaves. -/
def exec (s : Adaptor) : Op → Outcome × Adaptor
  | .startDedicatedTaskThread threadId taskId => s.startDedicatedTaskThread threadId taskId
  | .startRetryBlock threadId =>
    (.returned .unit, s.updateThread threadId fun t => t.resetRetryState true s.now)
  | .endRetryBlock threadId =>
    (.returned .unit, s.updateThread threadId fun t => t.resetRetryState false s.now)
  | .isWorkingOnTaskAsPoolThread threadId =>
    (.returned (.bool (s.isWorkingOnTaskAsPoolThread threadId)), s)
  | .poolThreadWorkingOnTasks isForShuffle threadId taskIds =>
    s.poolThreadWorkingOnTasks isForShuffle threadId taskIds
  | .poolThreadFinishedForTasks threadId taskIds => s.poolThreadFinishedForTasks threadId taskIds
  | .removeThreadAssociation threadId taskId =>
    let (runChecks, s) := s.removeThreadAssociation threadId taskId
    (.returned .unit, if runChecks then s.wakeUpThreadsAfterTaskFinishes else s)
  | .taskDone taskId => (.returned .unit, s.taskDone taskId)
  | .waitingOnPoolStatusChanged threadId poolBlocked =>
    s.waitingOnPoolStatusChanged threadId poolBlocked
  | .allDone => (.returned .unit, s.allDone)
  | .forceRetryOom threadId numOoms oomFilter skipCount =>
    s.forceRetryOom threadId numOoms oomFilter skipCount
  | .forceSplitAndRetryOom threadId numOoms oomFilter skipCount =>
    s.forceSplitAndRetryOom threadId numOoms oomFilter skipCount
  | .forceCudfException threadId numTimes => s.forceCudfException threadId numTimes
  | .getAndResetMetric taskId metric =>
    let (n, s) := s.getAndResetMetric taskId metric
    (.returned (.int n), s)
  | .getMetric taskId metric => (.returned (.int (s.getMetric taskId metric)), s)
  | .getTotalBlockedOrLost taskId => (.returned (.int (s.getTotalBlockedOrLost taskId)), s)
  | .removeTaskMetrics taskId =>
    (.returned .unit, { s with taskToMetrics := s.taskToMetrics.erase taskId })
  | .checkAndBreakDeadlocks ids => (.returned .unit, s.checkAndUpdateForBufn (some ids))
  | .getThreadStateAsInt threadId => (.returned (.int (s.getThreadStateAsInt threadId)), s)
  | .preAlloc self isForCpu blocking => s.preAllocCore self isForCpu blocking
  | .postAllocSuccess self isForCpu wasRecursive numBytes =>
    s.postAllocSuccessCore self isForCpu wasRecursive numBytes
  | .postAllocFailed self isForCpu isOom blocking wasRecursive =>
    s.postAllocFailedCore self isForCpu isOom blocking wasRecursive
  | .dealloc self isForCpu numBytes => (.returned .unit, s.deallocCore self isForCpu numBytes)
  | .spillRangeStart self =>
    (.returned .unit, s.updateThread self fun t => { t with isInSpilling := true })
  | .spillRangeDone self =>
    (.returned .unit, s.updateThread self fun t => { t with isInSpilling := false })
  | .blockThreadUntilReady self => s.blockThreadUntilReady self .publicBlock
  | .wake self => s.wake self
  | .getTaskPriority attemptId =>
    let (n, taskPriority) := s.taskPriority.getTaskPriority attemptId
    (.returned (.int n), { s with taskPriority })
  | .priorityTaskDone attemptId =>
    (.returned .unit, { s with taskPriority := s.taskPriority.taskDone attemptId })
  | .tick nanos => (.returned .unit, { s with now := s.now + nanos })

/-- A thread that is inside a wait runs nothing but the end of that wait. The id of a thread is the
address `pthread_self` returns, never `-1`. -/
def enabled (s : Adaptor) (op : Op) : Prop :=
  ∀ self ∈ op.self?, self ≠ -1 ∧ (s.sleepers[self]?).isSome = op.isWake

instance (s : Adaptor) (op : Op) : Decidable (s.enabled op) :=
  inferInstanceAs (Decidable (∀ self ∈ op.self?, _))

/-- A new adaptor. The clock and the process-wide table of priorities may already be in use. -/
def isNew (s : Adaptor) : Prop :=
  s = { taskPriority := s.taskPriority, now := s.now }

/-- The adaptor with its callers: one step is one critical section that does not end in undefined
behaviour. -/
def system : Lts Adaptor Op where
  init := isNew
  step s op s' :=
    s.enabled op ∧ (s.exec op).1 ≠ .undefinedBehavior ∧ (s.exec op).2 = s'

/-- The state after critical sections that run one after another. -/
def run (s : Adaptor) : List Op → Adaptor
  | [] => s
  | op :: ops => run (s.exec op).2 ops

/-- Each of the critical sections meets `ok` and may run when its turn comes, and none ends in
undefined behaviour. -/
def runsMeeting (ok : Adaptor → Op → Bool) (s : Adaptor) : List Op → Bool
  | [] => true
  | op :: ops =>
    decide (ok s op = true ∧ s.enabled op ∧ (s.exec op).1 ≠ .undefinedBehavior) &&
      runsMeeting ok (s.exec op).2 ops

/-- `runsMeeting`, of all steps. -/
def runs (s : Adaptor) (ops : List Op) : Bool :=
  s.runsMeeting (fun _ _ => true) ops

theorem enabled.awake {s : Adaptor} {op : Op} {T : Int} (h : s.enabled op)
    (hT : op.self? = some T) (hw : op.isWake = false) : s.sleepers[T]? = none := by
  have hsome := (h T hT).2
  rw [hw] at hsome
  exact Option.isNone_iff_eq_none.1 (Option.isSome_eq_false_iff.1 hsome)

theorem reachable_run_restrict {ok : Adaptor → Op → Prop} [∀ s op, Decidable (ok s op)]
    {s : Adaptor} (hs : (system.restrict ok).Reachable s) {ops : List Op}
    (h : s.runsMeeting (fun s op => ok s op) ops = true) :
    (system.restrict ok).Reachable (s.run ops) := by
  induction ops generalizing s with
  | nil => exact hs
  | cons op ops ih =>
    obtain ⟨hop, hops⟩ := Bool.and_eq_true_iff.1 h
    obtain ⟨hok, hen, hub⟩ := of_decide_eq_true hop
    exact ih (.step hs ⟨of_decide_eq_true hok, hen, hub, rfl⟩) hops

/-- Critical sections that may run one after another are a run of the system. -/
theorem run_of_runs {s : Adaptor} {ops : List Op} (h : s.runs ops = true) :
    system.Run s ops (s.run ops) := by
  induction ops generalizing s with
  | nil => exact .nil s
  | cons op ops ih =>
    obtain ⟨hop, hops⟩ := Bool.and_eq_true_iff.1 h
    obtain ⟨-, hen, hub⟩ := of_decide_eq_true hop
    exact .cons ⟨hen, hub, rfl⟩ (ih hops)

theorem reachable_run {s : Adaptor} (hs : system.Reachable s) {ops : List Op}
    (h : s.runs ops = true) : system.Reachable (s.run ops) :=
  hs.run (run_of_runs h)

/-- A new adaptor with an unused table of priorities, at time `0`. -/
theorem reachable_new : system.Reachable {} := .init rfl

end Adaptor

end SparkRapids.ResourceAdaptor
