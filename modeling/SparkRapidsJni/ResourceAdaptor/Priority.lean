import SparkRapidsJni.ResourceAdaptor.ThreadState

/-!
# Task and thread priorities

`TaskPriorityJni.cpp`, whose table of priorities is shared by the whole process, and
`thread_priority` with `full_thread_state::priority`. Asking for the priority of a task that has
none yet gives it the next one, so `priority` is a function on the table too.
-/

namespace SparkRapids.ResourceAdaptor

open Std (ExtTreeMap ExtTreeSet)

/-- The process-wide table: `next_task_priority` and `attempt_priorities`. -/
structure TaskPriority where
  nextTaskPriority : Int := 2 ^ 63 - 2
  attemptPriorities : ExtTreeMap Int Int := ∅

namespace TaskPriority

/-- `get_task_priority`: `-1` has the highest priority, and every other attempt keeps the one it
got when it was first asked for. -/
def getTaskPriority (p : TaskPriority) (attemptId : Int) : Int × TaskPriority :=
  if attemptId = -1 then (2 ^ 63 - 1, p)
  else
    match p.attemptPriorities[attemptId]? with
    | some priority => (priority, p)
    | none =>
      (p.nextTaskPriority, {
        nextTaskPriority := p.nextTaskPriority - 1
        attemptPriorities := p.attemptPriorities.insert attemptId p.nextTaskPriority })

/-- `task_done`. -/
def taskDone (p : TaskPriority) (attemptId : Int) : TaskPriority :=
  if attemptId = -1 then p
  else { p with attemptPriorities := p.attemptPriorities.erase attemptId }

end TaskPriority

/-- `thread_priority`: the priority of the task, with the thread id as the tie breaker. -/
structure ThreadPriority where
  taskPriority : Int
  threadId : Int
  deriving DecidableEq, Repr

namespace ThreadPriority

/-- `operator<`. -/
def lt (a b : ThreadPriority) : Bool :=
  if a.taskPriority < b.taskPriority then true
  else if a.taskPriority = b.taskPriority then a.threadId < b.threadId
  else false

end ThreadPriority

/-- `full_thread_state::priority`. -/
def FullThreadState.priority (t : FullThreadState) (p : TaskPriority) :
    ThreadPriority × TaskPriority :=
  let (taskPriority, p) := p.getTaskPriority t.priorityTaskId
  ({ taskPriority, threadId := t.threadId }, p)

@[simp] theorem FullThreadState.priority_threadId (t : FullThreadState) (p : TaskPriority) :
    (t.priority p).1.threadId = t.threadId := rfl

/-! ### Picking a thread

The adaptor picks threads by priority in three places, with the same loop: walk the registered
threads, look at those in one state, and keep the best so far. -/

/-- The loop: `prefers best current` says that `current` replaces `best`. The result is the key of
the chosen thread with its priority. -/
def pickThread (prefers : ThreadPriority → ThreadPriority → Bool)
    (candidate : FullThreadState → Bool) :
    List (Int × FullThreadState) → Option (Int × ThreadPriority) → TaskPriority →
      Option (Int × ThreadPriority) × TaskPriority
  | [], best, p => (best, p)
  | (key, t) :: rest, best, p =>
    if candidate t then
      let (current, p) := t.priority p
      match best with
      | none => pickThread prefers candidate rest (some (key, current)) p
      | some (k, b) =>
        if prefers b current then pickThread prefers candidate rest (some (key, current)) p
        else pickThread prefers candidate rest (some (k, b)) p
    else pickThread prefers candidate rest best p

section PickThread

variable {prefers : ThreadPriority → ThreadPriority → Bool} {candidate : FullThreadState → Bool}

/-- A picked thread is the one the loop started with or a candidate of the list. -/
theorem pickThread_some {ts : List (Int × FullThreadState)} {best : Option (Int × ThreadPriority)}
    {p : TaskPriority} {key : Int} {prio : ThreadPriority}
    (h : (pickThread prefers candidate ts best p).1 = some (key, prio)) :
    best = some (key, prio) ∨
      ∃ t, (key, t) ∈ ts ∧ candidate t = true ∧ prio.threadId = t.threadId := by
  induction ts generalizing best p with
  | nil => exact .inl h
  | cons kt rest ih =>
    obtain ⟨k, t⟩ := kt
    have later : (∃ t', (key, t') ∈ rest ∧ candidate t' = true ∧ prio.threadId = t'.threadId) →
        ∃ t', (key, t') ∈ (k, t) :: rest ∧ candidate t' = true ∧ prio.threadId = t'.threadId := by
      rintro ⟨t', hmem, hc, hid⟩
      exact ⟨t', .tail _ hmem, hc, hid⟩
    have here : candidate t = true → some (k, (t.priority p).1) = some (key, prio) →
        ∃ t', (key, t') ∈ (k, t) :: rest ∧ candidate t' = true ∧ prio.threadId = t'.threadId := by
      intro hc heq
      obtain ⟨rfl, rfl⟩ : k = key ∧ (t.priority p).1 = prio := by simpa using heq
      exact ⟨t, .head _, hc, rfl⟩
    unfold pickThread at h
    by_cases hc : candidate t = true
    · rw [if_pos hc] at h
      match best with
      | none =>
        rcases ih h with heq | hex
        · exact .inr (here hc heq)
        · exact .inr (later hex)
      | some (k0, b) =>
        by_cases hp : prefers b (t.priority p).1 = true
        · simp only [hp, if_true] at h
          rcases ih h with heq | hex
          · exact .inr (here hc heq)
          · exact .inr (later hex)
        · simp only [hp] at h
          exact (ih h).imp_right later
    · rw [if_neg hc] at h
      exact (ih h).imp_right later

/-- A loop that has something to keep, or meets a candidate, picks a thread. -/
theorem pickThread_isSome {ts : List (Int × FullThreadState)}
    {best : Option (Int × ThreadPriority)} {p : TaskPriority}
    (h : best.isSome = true ∨ ∃ kt ∈ ts, candidate kt.2 = true) :
    ((pickThread prefers candidate ts best p).1).isSome = true := by
  induction ts generalizing best p with
  | nil => simpa [pickThread] using h
  | cons kt rest ih =>
    obtain ⟨k, t⟩ := kt
    unfold pickThread
    by_cases hc : candidate t = true
    · rw [if_pos hc]
      match best with
      | none => exact ih (.inl rfl)
      | some (k0, b) =>
        by_cases hp : prefers b (t.priority p).1 = true
        · simp only [hp, if_true]
          exact ih (.inl rfl)
        · simp only [hp]
          exact ih (.inl rfl)
    · rw [if_neg hc]
      refine ih (h.imp_right ?_)
      rintro ⟨kt, hmem, hkt⟩
      rcases List.mem_cons.1 hmem with rfl | hrest
      · exact absurd hkt hc
      · exact ⟨kt, hrest, hkt⟩

/-- A loop that has picked no thread has met no candidate. -/
theorem candidate_eq_false_of_pickThread {ts : List (Int × FullThreadState)} {p p' : TaskPriority}
    (hpick : pickThread prefers candidate ts none p = (none, p')) {kt : Int × FullThreadState}
    (hmem : kt ∈ ts) : candidate kt.2 = false := by
  by_contra hcand
  rw [Bool.not_eq_false] at hcand
  have hsome : ((pickThread prefers candidate ts none p).1).isSome = true :=
    pickThread_isSome (.inr ⟨kt, hmem, hcand⟩)
  rw [hpick] at hsome
  cases hsome

end PickThread

end SparkRapids.ResourceAdaptor
