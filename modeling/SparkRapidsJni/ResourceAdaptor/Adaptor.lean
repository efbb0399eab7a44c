import SparkRapidsJni.ResourceAdaptor.Priority

/-!
# The adaptor's private operations

The state of `spark_resource_adaptor` and its private operations, which all run with `state_mutex`
held, under the source's names and in the source's order.

* `Adaptor.threads`, `Adaptor.taskToThreads` and `Adaptor.taskToMetrics` are the three maps.
* `Adaptor.sleepers` holds, for each thread that is inside a wait on a `wake_condition`, which
  condition variable that is, whether it has been notified, and what the thread does once
  `block_thread_until_ready` returns. A condition variable is named by a number that is never used
  again, so that the entries of two registrations of one thread are told apart.
* The process-wide `TaskPriority` table and the clock are part of the state.

What is left out has no effect on this state: the log, the text a state is logged with, and the
callback `ThreadStateRegistry.removeThread` into Java. An allocation failure of the maps themselves
is not modelled. The order in which an unordered set is walked does not matter to the result where
the source walks one; the model walks it in increasing order.
-/

namespace SparkRapids.ResourceAdaptor

open Std (ExtTreeMap ExtTreeSet)

/-- What a thread goes on with after `block_thread_until_ready`: return from the public function of
that name, or finish `pre_alloc_core`. The latter holds an iterator to the entry it found at its
start, the one that owns the condition variable `entry`. -/
inductive Resume where
  | publicBlock
  | preAlloc (isForCpu : Bool) (entry : Nat)
  deriving DecidableEq, Repr

/-- A thread inside `wake_condition->wait(lock)`. -/
structure Sleeper where
  /-- The condition variable it waits on. -/
  condition : Nat
  /-- A notification has been sent since it began to wait. -/
  notified : Bool
  resume : Resume
  deriving DecidableEq, Repr

/-- `notify_all` on `condition`, as seen by one sleeping thread. -/
def Sleeper.notify (condition : Nat) (z : Sleeper) : Sleeper :=
  if z.condition = condition then { z with notified := true } else z

/-- `spark_resource_adaptor`. -/
structure Adaptor where
  threads : ExtTreeMap Int FullThreadState := ∅
  taskToThreads : ExtTreeMap Int (ExtTreeSet Int) := ∅
  gpuMemoryAllocatedBytes : Int := 0
  taskToMetrics : ExtTreeMap Int TaskMetrics := ∅
  shuttingDown : Bool := false
  taskPriority : TaskPriority := {}
  sleepers : ExtTreeMap Int Sleeper := ∅
  nextCondition : Nat := 0
  now : Nat := 0

namespace Adaptor

/-! ### Updating one entry -/

/-- Write the entry of a thread. -/
def setThread (s : Adaptor) (threadId : Int) (t : FullThreadState) : Adaptor :=
  { s with threads := s.threads.insert threadId t }

/-- `threads.erase`. -/
def eraseThread (s : Adaptor) (threadId : Int) : Adaptor :=
  { s with threads := s.threads.erase threadId }

/-- `transition`. -/
def transition (s : Adaptor) (threadId : Int) (newState : ThreadState) : Adaptor :=
  { s with threads := s.threads.modify threadId fun t => { t with state := newState } }

/-- `wake_condition->notify_all()`. -/
def notifyAll (s : Adaptor) (condition : Nat) : Adaptor :=
  { s with sleepers := s.sleepers.map fun _ z => z.notify condition }

/-- The thread begins to wait on `condition`. -/
def sleep (s : Adaptor) (threadId : Int) (condition : Nat) (resume : Resume) : Adaptor :=
  { s with sleepers := s.sleepers.insert threadId { condition, notified := false, resume } }

/-- A new `full_thread_state` in `THREAD_RUNNING`, with its own condition variable. -/
def newThread (s : Adaptor) (threadId taskId : Int) (isForShuffle : Bool) : FullThreadState where
  state := .running
  threadId := threadId
  taskId := taskId
  isForShuffle := isForShuffle
  wakeCondition := s.nextCondition

/-- `threads.emplace` of a thread that has no entry. -/
def emplaceThread (s : Adaptor) (threadId taskId : Int) (isForShuffle : Bool) : Adaptor :=
  { s with nextCondition := s.nextCondition + 1 }.setThread threadId
    (s.newThread threadId taskId isForShuffle)

/-! ### Metrics -/

/-- `task_to_metrics[task_id].add(metrics)`, with the entry made when it is missing. -/
def addTaskMetrics (metrics : ExtTreeMap Int TaskMetrics) (taskId : Int) (m : TaskMetrics) :
    ExtTreeMap Int TaskMetrics :=
  metrics.insert taskId ((metrics[taskId]?.getD TaskMetrics.clear).add m)

/-- `checkpoint_metrics` of the entry `t` of `threadId`. -/
def checkpointMetrics (s : Adaptor) (threadId : Int) (t : FullThreadState) : Adaptor :=
  let taskToMetrics :=
    if t.taskId < 0 then
      t.poolTaskIds.toList.foldl (fun metrics id => addTaskMetrics metrics id t.metrics)
        s.taskToMetrics
    else addTaskMetrics s.taskToMetrics t.taskId t.metrics
  { s with taskToMetrics }.setThread threadId t.checkpointed

/-! ### Waking threads -/

/-- One loop of `wake_up_threads_after_task_finishes`: every thread in one of the states `wakes`
runs again, and is notified. -/
def wakeThreadsIn (s : Adaptor) (wakes : ThreadState → Bool) : Adaptor :=
  let woken := s.threads.toList.filter fun kt => wakes kt.2.state
  let threads := s.threads.map fun _ t => if wakes t.state then { t with state := .running } else t
  (woken.map fun kt => kt.2.wakeCondition).foldl notifyAll { s with threads }

/-- `wake_up_threads_after_task_finishes`: the blocked threads, or if there is none the threads
that are to roll back or have done so. -/
def wakeUpThreadsAfterTaskFinishes (s : Adaptor) : Adaptor :=
  let areAnyTasksJustBlocked := s.threads.toList.any fun kt => kt.2.state = .blocked
  let s := s.wakeThreadsIn fun state => state = .blocked
  if areAnyTasksJustBlocked then s
  else s.wakeThreadsIn fun state => state = .bufn ∨ state = .bufnThrow ∨ state = .bufnWait

/-- `wake_next_highest_priority_blocked`. -/
def wakeNextHighestPriorityBlocked (s : Adaptor) (isForCpu : Bool) : Adaptor :=
  match pickThread (fun toWake current => toWake.lt current)
      (fun t => t.state = .blocked ∧ isForCpu = t.isCpuAlloc)
      s.threads.toList none s.taskPriority with
  | (none, taskPriority) => { s with taskPriority }
  | (some (key, _), taskPriority) =>
    let s := { s with taskPriority }
    match s.threads[key]? with
    | none => s
    | some t => (s.transition key .running).notifyAll t.wakeCondition

/-! ### Removing a thread -/

/-- `task_to_threads[task_id].erase(thread_id)` for a task id that is not negative. -/
def unlinkThread (s : Adaptor) (taskId threadId : Int) : Adaptor :=
  if 0 ≤ taskId then
    { s with taskToThreads := s.taskToThreads.modify taskId (·.erase threadId) }
  else s

/-- The switch of `remove_thread_association`, on the thread that is to be removed: a blocked thread
is marked and woken, any other loses its entry. -/
def removeEntry (s : Adaptor) (threadId : Int) (t : FullThreadState) : Bool × Adaptor :=
  match t.state with
  | .blocked | .bufn => (false, (s.transition threadId .removeThrow).notifyAll t.wakeCondition)
  | .running => (true, s.eraseThread threadId)
  | _ => (false, s.eraseThread threadId)

/-- `remove_thread_association`: the result says whether a normally running thread ended. -/
def removeThreadAssociation (s : Adaptor) (threadId removeTaskId : Int) : Bool × Adaptor :=
  match s.threads[threadId]? with
  | none => (false, s)
  | some t =>
    let s := s.checkpointMetrics threadId t
    let (threadShouldBeRemoved, t) := t.checkpointed.dropTask removeTaskId
    let s := s.setThread threadId t
    if threadShouldBeRemoved then (s.unlinkThread removeTaskId threadId).removeEntry threadId t
    else (false, s)

/-! ### Deadlock detection -/

/-- `is_thread_bufn_or_above`. `javaBlockedThreadIds` is the optional set the deadlock watchdog
passes in. -/
def isThreadBufnOrAbove (t : FullThreadState) (javaBlockedThreadIds : Option (ExtTreeSet Int)) :
    Bool :=
  if t.poolBlocked then true
  else
    match t.state with
    | .blocked => false
    | .bufn => true
    | _ =>
      match javaBlockedThreadIds with
      | some ids => ids.contains t.threadId
      | none => false

/-- The sets and counters `is_in_deadlock` fills. -/
structure DeadlockScan where
  allTaskIds : Finset Int := ∅
  bufnTaskIds : Finset Int := ∅
  blockedTaskIds : Finset Int := ∅
  poolTaskThreadCount : ExtTreeMap Int Nat := ∅
  poolBufnTaskThreadCount : ExtTreeMap Int Nat := ∅

namespace DeadlockScan

/-- `count[task_id] += 1` for every id. -/
def countTasks (count : ExtTreeMap Int Nat) (ids : List Int) : ExtTreeMap Int Nat :=
  ids.foldl (fun count id => count.insert id ((count[id]?.getD 0) + 1)) count

/-- The first pass of `is_in_deadlock`, over one thread: the dedicated task threads. -/
def dedicatedThread (java : Option (ExtTreeSet Int)) (d : DeadlockScan) (t : FullThreadState) :
    DeadlockScan :=
  if 0 ≤ t.taskId then
    let isBufnPlus := isThreadBufnOrAbove t java
    { d with
      allTaskIds := insert t.taskId d.allTaskIds
      bufnTaskIds := if isBufnPlus then insert t.taskId d.bufnTaskIds else d.bufnTaskIds
      blockedTaskIds :=
        if isBufnPlus || t.state = .blocked then insert t.taskId d.blockedTaskIds
        else d.blockedTaskIds }
  else d

/-- The second pass of `is_in_deadlock`, over one thread: the pool threads. -/
def poolThread (java : Option (ExtTreeSet Int)) (d : DeadlockScan) (t : FullThreadState) :
    DeadlockScan :=
  if t.taskId < 0 then
    let isBufnPlus := isThreadBufnOrAbove t java
    let ids := t.poolTaskIds.toList
    { d with
      poolTaskThreadCount := countTasks d.poolTaskThreadCount ids
      poolBufnTaskThreadCount :=
        if isBufnPlus then countTasks d.poolBufnTaskThreadCount ids
        else d.poolBufnTaskThreadCount
      blockedTaskIds :=
        if !isBufnPlus && t.state ≠ .blocked then ids.foldl (fun b id => b.erase id) d.blockedTaskIds
        else d.blockedTaskIds }
  else d

/-- A task is added to `bufn_task_ids` when all of its pool threads are BUFN. -/
def addBufnTask (d : DeadlockScan) (bufn : Finset Int) (idCount : Int × Nat) : Finset Int :=
  match d.poolTaskThreadCount[idCount.1]? with
  | some count => if count ≤ idCount.2 then insert idCount.1 bufn else bufn
  | none => bufn

/-- The tasks all of whose pool threads are BUFN: `check_and_update_for_bufn` adds them to
`bufn_task_ids`. -/
def bufnWithPools (d : DeadlockScan) : Finset Int :=
  d.poolBufnTaskThreadCount.toList.foldl d.addBufnTask d.bufnTaskIds

end DeadlockScan

/-- The two passes of `is_in_deadlock`. -/
def deadlockScan (s : Adaptor) (java : Option (ExtTreeSet Int)) : DeadlockScan :=
  let ts := s.threads.toList.map Prod.snd
  ts.foldl (DeadlockScan.poolThread java) (ts.foldl (DeadlockScan.dedicatedThread java) {})

/-- `is_in_deadlock`, given its scan: every task is blocked. -/
def isInDeadlock (d : DeadlockScan) : Bool :=
  decide (d.allTaskIds.card = d.blockedTaskIds.card ∧ d.allTaskIds ≠ ∅)

/-- The first half of what `check_and_update_for_bufn` does in a deadlock: the blocked thread with
the lowest priority rolls back, or retries its allocation once if it is the last one blocked. -/
def rollBackLowestPriorityBlocked (s : Adaptor) : Adaptor :=
  let blocked := fun t : FullThreadState => decide (t.state = .blocked)
  match pickThread (fun toBufn current => current.lt toBufn) blocked
      s.threads.toList none s.taskPriority with
  | (none, taskPriority) => { s with taskPriority }
  | (some (_, toBufn), taskPriority) =>
    let s := { s with taskPriority }
    match s.threads[toBufn.threadId]? with
    | none => s
    | some t =>
      let blockedThreadCount := s.threads.toList.countP fun kt => blocked kt.2
      let t' :=
        if blockedThreadCount = 1 then
          { t with isRetryAllocBeforeBufn := true, state := .running }
        else { t with state := .bufnThrow }
      (s.setThread toBufn.threadId t').notifyAll t.wakeCondition

/-- The second half: when every task is BUFN, the BUFN thread with the highest priority splits its
input. The thread id looked for is `-1` when there is no BUFN thread. -/
def splitHighestPriorityBufn (s : Adaptor) : Adaptor :=
  let (toWake, taskPriority) :=
    pickThread (fun toWake current => toWake.lt current) (fun t => t.state = .bufn)
      s.threads.toList none s.taskPriority
  let s := { s with taskPriority }
  let threadId := match toWake with
    | some (_, p) => p.threadId
    | none => -1
  match s.threads[threadId]? with
  | none => s
  | some t => (s.transition threadId .splitThrow).notifyAll t.wakeCondition

/-- `check_and_update_for_bufn`. -/
def checkAndUpdateForBufn (s : Adaptor) (java : Option (ExtTreeSet Int)) : Adaptor :=
  let scan := s.deadlockScan java
  if isInDeadlock scan then
    let s := s.rollBackLowestPriorityBlocked
    if scan.allTaskIds.card = scan.bufnWithPools.card then s.splitHighestPriorityBufn else s
  else s

/-! ### Blocking -/

/-- How one turn of the loop of `block_thread_until_ready` ends. -/
inductive BlockStep where
  | done
  | wait
  | threw (e : Exn)
  | again

/-- One turn of the loop of `block_thread_until_ready`. -/
def blockIteration (s : Adaptor) (threadId : Int) : BlockStep × Adaptor :=
  match s.threads[threadId]? with
  | none => (.done, s)
  | some t =>
    match t.state with
    | .blocked | .bufn => (.wait, s.setThread threadId (t.beforeBlock s.now))
    | .bufnThrow =>
      let (e, t) :=
        ({ t with state := .bufnWait }.recordFailedRetryTime s.now).throwRetryOom s.now
      (.threw e, s.setThread threadId t)
    | .bufnWait =>
      let s := (s.transition threadId .bufn).checkAndUpdateForBufn none
      match s.threads[threadId]? with
      | none => (.again, s)
      | some t =>
        if isBlocked t.state then (.wait, s.setThread threadId (t.beforeBlock s.now))
        else (.again, s)
    | .splitThrow =>
      let (e, t) :=
        ({ t with state := .running }.recordFailedRetryTime s.now).throwSplitAndRetryOom s.now
      (.threw e, s.setThread threadId t)
    | .removeThrow =>
      (.threw (.runtimeError "thread removed while blocked"), s.eraseThread threadId)
    | .running | .alloc | .allocFree => (.done, s)

/-- The loop of `block_thread_until_ready` up to the next wait, with a bound on its turns. -/
def blockLoop : Nat → Adaptor → Int → BlockStep × Adaptor
  | 0, s, _ => (.again, s)
  | turns + 1, s, threadId =>
    match s.blockIteration threadId with
    | (.again, s) => blockLoop turns s threadId
    | r => r

end Adaptor

end SparkRapids.ResourceAdaptor
