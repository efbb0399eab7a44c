import SparkRapidsJni.Lib.TreeMap

/-!
# The registered state of one thread

The data of `SparkResourceAdaptorJni.cpp` below the adaptor itself: the thread states, the metrics
a thread accumulates, the injected exceptions of the tests, and `full_thread_state` with the
operations on it that need no other state. Times are nanoseconds of the steady clock, which never
goes back, so a difference of two readings is the subtraction on `ℕ`. Logging has no effect on the
state and is left out.
-/

namespace SparkRapids.ResourceAdaptor

open Std (ExtTreeMap ExtTreeSet)

/-- `thread_state`. A thread that is not registered (`UNKNOWN`) has no entry at all. -/
inductive ThreadState where
  /-- The thread runs normally. -/
  | running
  /-- In the middle of an allocation. -/
  | alloc
  /-- In the middle of an allocation, and another thread freed memory meanwhile. -/
  | allocFree
  /-- Temporarily blocked. -/
  | blocked
  /-- Should throw, to roll back before it blocks. -/
  | bufnThrow
  /-- Threw to roll back, and blocks at the next allocation. -/
  | bufnWait
  /-- Blocked until further notice. -/
  | bufn
  /-- Should throw, to split its input and retry. -/
  | splitThrow
  /-- Is being removed and needs to throw. -/
  | removeThrow
  deriving DecidableEq, Repr

/-- `as_str`. -/
def ThreadState.asStr : ThreadState → String
  | .running => "THREAD_RUNNING"
  | .alloc => "THREAD_ALLOC"
  | .allocFree => "THREAD_ALLOC_FREE"
  | .blocked => "THREAD_BLOCKED"
  | .bufnThrow => "THREAD_BUFN_THROW"
  | .bufnWait => "THREAD_BUFN_WAIT"
  | .bufn => "THREAD_BUFN"
  | .splitThrow => "THREAD_SPLIT_THROW"
  | .removeThrow => "THREAD_REMOVE_THROW"

/-- The value `getStateOf` reports; an unregistered thread is `-1`. -/
def ThreadState.toInt : ThreadState → Int
  | .running => 0
  | .alloc => 1
  | .allocFree => 2
  | .blocked => 3
  | .bufnThrow => 4
  | .bufnWait => 5
  | .bufn => 6
  | .splitThrow => 7
  | .removeThrow => 8

/-- `is_blocked`. -/
def isBlocked : ThreadState → Bool
  | .blocked | .bufn => true
  | _ => false

@[simp] theorem isBlocked_iff {s : ThreadState} :
    isBlocked s = true ↔ s = .blocked ∨ s = .bufn := by
  cases s <;> simp [isBlocked]

/-! ### Metrics -/

/-- `task_metrics`: what is reported for a task, collected for each thread. -/
structure TaskMetrics where
  numTimesRetryThrow : Nat := 0
  numTimesSplitRetryThrow : Nat := 0
  timeBlockedNanos : Nat := 0
  timeLostNanos : Nat := 0
  timeLostOrBlocked : Nat := 0
  gpuMaxMemoryAllocated : Int := 0
  gpuMemoryActiveFootprint : Int := 0
  gpuMemoryMaxFootprint : Int := 0
  deriving DecidableEq, Repr

namespace TaskMetrics

/-- `add`: counts, times and footprints add up, the allocation watermark is the larger one. -/
def add (m other : TaskMetrics) : TaskMetrics where
  numTimesRetryThrow := m.numTimesRetryThrow + other.numTimesRetryThrow
  numTimesSplitRetryThrow := m.numTimesSplitRetryThrow + other.numTimesSplitRetryThrow
  timeBlockedNanos := m.timeBlockedNanos + other.timeBlockedNanos
  timeLostNanos := m.timeLostNanos + other.timeLostNanos
  timeLostOrBlocked := m.timeLostOrBlocked + other.timeLostOrBlocked
  gpuMaxMemoryAllocated := max m.gpuMaxMemoryAllocated other.gpuMaxMemoryAllocated
  gpuMemoryMaxFootprint := m.gpuMemoryMaxFootprint + other.gpuMemoryMaxFootprint
  gpuMemoryActiveFootprint := m.gpuMemoryActiveFootprint + other.gpuMemoryActiveFootprint

/-- `clear`. -/
def clear : TaskMetrics := {}

end TaskMetrics

/-- The metrics that are read for a task: the pointers to members of `task_metrics` the public
getters pass to `get_and_reset_metric` and `get_metric`. -/
inductive Metric where
  | numTimesRetryThrow
  | numTimesSplitRetryThrow
  | timeBlockedNanos
  | timeLostNanos
  | gpuMaxMemoryAllocated
  | gpuMemoryMaxFootprint
  deriving DecidableEq, Repr

/-- Reading a metric through its pointer. -/
def Metric.get : Metric → TaskMetrics → Int
  | .numTimesRetryThrow, m => m.numTimesRetryThrow
  | .numTimesSplitRetryThrow, m => m.numTimesSplitRetryThrow
  | .timeBlockedNanos, m => m.timeBlockedNanos
  | .timeLostNanos, m => m.timeLostNanos
  | .gpuMaxMemoryAllocated, m => m.gpuMaxMemoryAllocated
  | .gpuMemoryMaxFootprint, m => m.gpuMemoryMaxFootprint

/-- Writing `0` to a metric through its pointer. -/
def Metric.reset : Metric → TaskMetrics → TaskMetrics
  | .numTimesRetryThrow, m => { m with numTimesRetryThrow := 0 }
  | .numTimesSplitRetryThrow, m => { m with numTimesSplitRetryThrow := 0 }
  | .timeBlockedNanos, m => { m with timeBlockedNanos := 0 }
  | .timeLostNanos, m => { m with timeLostNanos := 0 }
  | .gpuMaxMemoryAllocated, m => { m with gpuMaxMemoryAllocated := 0 }
  | .gpuMemoryMaxFootprint, m => { m with gpuMemoryMaxFootprint := 0 }

/-! ### Exceptions -/

/-- What an operation throws: an internal error of the C++ code with its text, or the Java
exception class of a retry, a split or an exhausted memory with its message. -/
inductive Exn where
  | runtimeError (msg : String)
  | invalidArgument (msg : String)
  | java (className msg : String)
  deriving DecidableEq, Repr

def gpuRetryOomClass : String := "com/nvidia/spark/rapids/jni/GpuRetryOOM"
def gpuSplitAndRetryOomClass : String := "com/nvidia/spark/rapids/jni/GpuSplitAndRetryOOM"
def cpuRetryOomClass : String := "com/nvidia/spark/rapids/jni/CpuRetryOOM"
def cpuSplitAndRetryOomClass : String := "com/nvidia/spark/rapids/jni/CpuSplitAndRetryOOM"
/-- `cudf::jni::OOM_ERROR_CLASS`, a constant of the cudf headers. -/
def oomErrorClass : String := "java/lang/OutOfMemoryError"
/-- `cudf::jni::CUDF_EXCEPTION_CLASS`, a constant of the cudf headers. -/
def cudfExceptionClass : String := "ai/rapids/cudf/CudfException"

/-- `oom_type`. -/
inductive OomType where
  | cpuOrGpu
  | cpu
  | gpu
  deriving DecidableEq, Repr

/-- `oom_state_type`: an injected out-of-memory exception and when it fires. -/
structure OomStateType where
  hitCount : Int := 0
  skipCount : Int := 0
  filter : OomType := .cpuOrGpu
  deriving DecidableEq, Repr

namespace OomStateType

/-- `init`: the arguments are checked in the source's order. -/
def init (numOoms skipCount oomTypeId : Int) : Except Exn OomStateType :=
  if numOoms < 0 then .error (.invalidArgument "num_ooms cannot be negative")
  else if skipCount < 0 then .error (.invalidArgument "skip_count cannot be negative")
  else if oomTypeId < 0 ∨ oomTypeId > 2 then
    .error (.invalidArgument "oom_filter must be between 0 and 2")
  else .ok {
    hitCount := numOoms
    skipCount := skipCount
    filter := if oomTypeId = 0 then .cpuOrGpu else if oomTypeId = 1 then .cpu else .gpu }

/-- `matches`. -/
def matchesAlloc (o : OomStateType) (isForCpu : Bool) : Bool :=
  o.filter == .cpuOrGpu || (isForCpu && o.filter == .cpu) || (!isForCpu && o.filter == .gpu)

end OomStateType

/-! ### `full_thread_state` -/

/-- `full_thread_state`. `wakeCondition` is the identity of the entry's own condition variable:
the source allocates one with each entry, so it also tells one registration of a thread from the
next one. -/
structure FullThreadState where
  state : ThreadState
  threadId : Int
  taskId : Int := -1
  isForShuffle : Bool := false
  poolTaskIds : ExtTreeSet Int := ∅
  isCpuAlloc : Bool := false
  poolBlocked : Bool := false
  isRetryAllocBeforeBufn : Bool := false
  retryOom : OomStateType := {}
  splitAndRetryOom : OomStateType := {}
  cudfExceptionInjected : Int := 0
  numTimesRetried : Nat := 0
  retryStartOrBlockEnd : Nat := 0
  isInRetry : Bool := false
  timeRetryRunningNanos : Nat := 0
  blockStart : Nat := 0
  isInSpilling : Bool := false
  metrics : TaskMetrics := {}
  wakeCondition : Nat

namespace FullThreadState

/-- `record_and_reset_pending_retry_time`, at the time `now`. -/
def recordAndResetPendingRetryTime (t : FullThreadState) (now : Nat) : FullThreadState :=
  if t.isInRetry then
    { t with
      timeRetryRunningNanos := t.timeRetryRunningNanos + (now - t.retryStartOrBlockEnd)
      retryStartOrBlockEnd := now }
  else t

/-- `before_block`. -/
def beforeBlock (t : FullThreadState) (now : Nat) : FullThreadState :=
  { t with blockStart := now }.recordAndResetPendingRetryTime now

/-- `currently_blocked_for`. -/
def currentlyBlockedFor (t : FullThreadState) (now : Nat) : Nat :=
  if t.state = .blocked ∨ t.state = .bufn then now - t.blockStart else 0

/-- `after_block`. -/
def afterBlock (t : FullThreadState) (now : Nat) : FullThreadState :=
  let amount := now - t.blockStart
  { t with
    metrics := { t.metrics with
      timeBlockedNanos := t.metrics.timeBlockedNanos + amount
      timeLostOrBlocked := t.metrics.timeLostOrBlocked + amount }
    retryStartOrBlockEnd := if t.isInRetry then now else t.retryStartOrBlockEnd }

/-- `record_failed_retry_time`. -/
def recordFailedRetryTime (t : FullThreadState) (now : Nat) : FullThreadState :=
  if t.isInRetry then
    let t := t.recordAndResetPendingRetryTime now
    { t with
      metrics := { t.metrics with
        timeLostNanos := t.metrics.timeLostNanos + t.timeRetryRunningNanos
        timeLostOrBlocked := t.metrics.timeLostOrBlocked + t.timeRetryRunningNanos }
      timeRetryRunningNanos := 0 }
  else t

/-- `reset_retry_state`. -/
def resetRetryState (t : FullThreadState) (isInRetry : Bool) (now : Nat) : FullThreadState :=
  { t with
    timeRetryRunningNanos := 0
    retryStartOrBlockEnd := if isInRetry then now else t.retryStartOrBlockEnd
    isInRetry := isInRetry }

/-- The task whose priority `priority` reads: a non-shuffle pool thread stands for the lowest of
the tasks it is working on, every other thread for its own task. -/
def priorityTaskId (t : FullThreadState) : Int :=
  if t.taskId < 0 ∧ t.isForShuffle = false then t.poolTaskIds.toList.min?.getD (-1) else t.taskId

/-- `check_before_oom`: the watchdog against a live lock. It throws instead of the caller once the
thread has retried 500 times, and counts the retry otherwise. -/
def checkBeforeOom (t : FullThreadState) (now : Nat) : Option Exn × FullThreadState :=
  if t.numTimesRetried + 1 > 500 then
    (some (.java oomErrorClass "GPU OutOfMemory: retry limit exceeded"),
      t.recordFailedRetryTime now)
  else (none, { t with numTimesRetried := t.numTimesRetried + 1 })

/-- The part `throw_retry_oom` and `throw_split_and_retry_oom` share: after the caller's own count,
check the watchdog, record the lost time and throw the class for a CPU or a GPU allocation. -/
def throwOom (t : FullThreadState) (now : Nat) (cpuClass gpuClass : String) :
    Exn × FullThreadState :=
  match t.checkBeforeOom now with
  | (some e, t) => (e, t)
  | (none, t) =>
    let t := t.recordFailedRetryTime now
    if t.isCpuAlloc then (.java cpuClass "CPU OutOfMemory", t)
    else (.java gpuClass "GPU OutOfMemory", t)

/-- `throw_retry_oom`. -/
def throwRetryOom (t : FullThreadState) (now : Nat) : Exn × FullThreadState :=
  { t with metrics := { t.metrics with
      numTimesRetryThrow := t.metrics.numTimesRetryThrow + 1 } }.throwOom now
    cpuRetryOomClass gpuRetryOomClass

/-- `throw_split_and_retry_oom`. -/
def throwSplitAndRetryOom (t : FullThreadState) (now : Nat) : Exn × FullThreadState :=
  { t with metrics := { t.metrics with
      numTimesSplitRetryThrow := t.metrics.numTimesSplitRetryThrow + 1 } }.throwOom now
    cpuSplitAndRetryOomClass gpuSplitAndRetryOomClass

/-- The entry after `checkpoint_metrics`. -/
def checkpointed (t : FullThreadState) : FullThreadState :=
  { t with metrics := TaskMetrics.clear }

/-- The task is taken from a thread, in `remove_thread_association`: the result says whether the
thread is to be removed (`thread_should_be_removed`). A negative id stands for all tasks. -/
def dropTask (t : FullThreadState)
    (removeTaskId : Int) : Bool × FullThreadState :=
  if removeTaskId < 0 then (true, t)
  else if 0 ≤ t.taskId then (decide (t.taskId = removeTaskId), t)
  else
    let poolTaskIds := t.poolTaskIds.erase removeTaskId
    (poolTaskIds.isEmpty, { t with poolTaskIds })

/-! ### Injected exceptions

The checks `pre_alloc_core` makes before it does anything else, in the source's order. -/

/-- The injected `RetryOOM`. -/
def injectedRetryOom (t : FullThreadState) (isForCpu : Bool) (now : Nat) :
    Option Exn × FullThreadState :=
  if t.retryOom.matchesAlloc isForCpu then
    if t.retryOom.skipCount > 0 then
      (none, { t with retryOom := { t.retryOom with skipCount := t.retryOom.skipCount - 1 } })
    else if t.retryOom.hitCount > 0 then
      (some (.java (if isForCpu then cpuRetryOomClass else gpuRetryOomClass) "injected RetryOOM"),
        { t with
          retryOom := { t.retryOom with hitCount := t.retryOom.hitCount - 1 }
          metrics := { t.metrics with
            numTimesRetryThrow := t.metrics.numTimesRetryThrow + 1 } }.recordFailedRetryTime now)
    else (none, t)
  else (none, t)

/-- The injected `CudfException`. -/
def injectedCudfException (t : FullThreadState) (now : Nat) : Option Exn × FullThreadState :=
  if t.cudfExceptionInjected > 0 then
    (some (.java cudfExceptionClass "injected CudfException"),
      { t with
        cudfExceptionInjected := t.cudfExceptionInjected - 1 }.recordFailedRetryTime now)
  else (none, t)

/-- The injected `SplitAndRetryOOM`. -/
def injectedSplitAndRetryOom (t : FullThreadState) (isForCpu : Bool) (now : Nat) :
    Option Exn × FullThreadState :=
  if t.splitAndRetryOom.matchesAlloc isForCpu then
    if t.splitAndRetryOom.skipCount > 0 then
      (none, { t with
        splitAndRetryOom :=
          { t.splitAndRetryOom with skipCount := t.splitAndRetryOom.skipCount - 1 } })
    else if t.splitAndRetryOom.hitCount > 0 then
      (some (.java (if isForCpu then cpuSplitAndRetryOomClass else gpuSplitAndRetryOomClass)
          "injected SplitAndRetryOOM"),
        { t with
          splitAndRetryOom := { t.splitAndRetryOom with hitCount := t.splitAndRetryOom.hitCount - 1 }
          metrics := { t.metrics with
            numTimesSplitRetryThrow :=
              t.metrics.numTimesSplitRetryThrow + 1 } }.recordFailedRetryTime now)
    else (none, t)
  else (none, t)

/-- All injected exceptions of an allocation attempt: the first that fires is thrown. -/
def injectedException (t : FullThreadState) (isForCpu : Bool) (now : Nat) :
    Option Exn × FullThreadState :=
  match t.injectedRetryOom isForCpu now with
  | (some e, t) => (some e, t)
  | (none, t) =>
    match t.injectedCudfException now with
    | (some e, t) => (some e, t)
    | (none, t) => t.injectedSplitAndRetryOom isForCpu now

end FullThreadState

end SparkRapids.ResourceAdaptor
