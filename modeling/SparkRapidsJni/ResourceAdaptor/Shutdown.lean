import SparkRapidsJni.ResourceAdaptor.WakeUp
import SparkRapidsJni.ResourceAdaptor.Frame

/-!
# Shutting down

`all_done` is two critical sections. The first one removes every thread, which only marks the
threads that are blocked, and stops registrations (`Adaptor.allDone`). The second one is to wait on
`task_has_woken_condition` until the marked threads have woken up, thrown and erased themselves, for
a second at most.

The predicate it gives to `wait_for` is `!threads.empty()`, the opposite of what it waits for. With
no thread blocked at the time of the call `threads` is empty from the marking on, the predicate is
false for good and the wait runs into its timeout; with a blocked thread it is true at once.
`orderly_shutdown_iff` says so: an early return finds `threads` empty, over every interleaving,
exactly when no thread was blocked.
-/

namespace SparkRapids.ResourceAdaptor

open Std (ExtTreeMap ExtTreeSet)

/-- How far the caller of `all_done` is. -/
inductive AllDoneCaller where
  /-- Between the two critical sections. -/
  | marked
  /-- Inside `wait_for`, whose time is up at `deadline`. -/
  | waiting (deadline : Nat)
  /-- `all_done` has returned, before or after the time was up. -/
  | returned (inTime : Bool)
deriving DecidableEq, Repr

/-- `all_done` has not returned yet. -/
def AllDoneCaller.isInside : AllDoneCaller → Bool
  | .returned _ => false
  | _ => true

/-- The adaptor together with the one caller of `all_done` that is followed. -/
structure Shutdown where
  adaptor : Adaptor
  caller : AllDoneCaller

/-- A critical section of some thread, or the caller of `all_done` gets hold of the mutex. -/
inductive ShutdownStep where
  | thread (op : Op)
  | caller

namespace Adaptor

/-- The timeout of `all_done`, 1000 milliseconds. -/
def allDoneTimeout : Nat := 1000 * 1000000

/-- `wait_for(lock, timeout, [this] { return !threads.empty(); })`, from the point where the caller
has the mutex to the point where it gives it up. -/
def waitForThreads (s : Adaptor) : AllDoneCaller → AllDoneCaller
  | .marked =>
    if !s.threads.isEmpty then .returned true else .waiting (s.now + allDoneTimeout)
  | .waiting deadline =>
    if deadline ≤ s.now then .returned false
    else if !s.threads.isEmpty then .returned true
    else .waiting deadline
  | .returned inTime => .returned inTime

/-- All that can happen after `all_done` has marked the threads of `s`. Wake-ups may be spurious, so
the caller may look at the predicate at any time. -/
def shutdown (s : Adaptor) : Lts Shutdown ShutdownStep where
  init x := x = { adaptor := s.allDone, caller := .marked }
  step x l x' :=
    match l with
    | .thread op => system.step x.adaptor op x'.adaptor ∧ x'.caller = x.caller
    | .caller => x.caller.isInside ∧
        x' = { adaptor := x.adaptor, caller := x.adaptor.waitForThreads x.caller }

/-- Whenever `all_done`, called in `s`, returns before its time is up, `threads` is empty. -/
def OrderlyShutdown (s : Adaptor) : Prop :=
  ∀ x x', s.shutdown.Reachable x → s.shutdown.step x .caller x' →
    x'.caller = .returned true → x'.adaptor.threads = ∅

variable {s : Adaptor}

/-! ### The marking -/

/-- With a negative id `remove_thread_association` marks a blocked thread and erases any other. -/
theorem removed_all (t : FullThreadState) :
    t.removed (-1) = if isBlocked t.state then
      some { (t.checkpointed.dropTask (-1)).2 with state := .removeThrow } else none := by
  have hremove : (t.checkpointed.dropTask (-1)).1 = true := by
    unfold FullThreadState.dropTask
    rw [if_pos (by decide)]
  have hstate : (t.checkpointed.dropTask (-1)).2.state = t.state :=
    FullThreadState.dropTask_state ..
  unfold FullThreadState.removed
  simp only [hremove, if_true, hstate]

/-- `all_done` leaves an entry for exactly the threads that are blocked. -/
theorem threads_allDone (s : Adaptor) (T : Int) :
    s.allDone.threads[T]? = s.threads[T]?.bind fun t => t.removed (-1) := by
  have hkeys : s.threads.keys.Nodup := ExtTreeMap.nodup_keys
  have hloop := threads_forThreads (fun s T V => threads_removeThreadAssociation s T (-1) V) s
    hkeys T
  refine hloop.trans ?_
  by_cases hT : T ∈ s.threads.keys
  · rw [if_pos hT]
  · rw [if_neg hT]
    have hnone : s.threads[T]? = none := by
      rw [ExtTreeMap.mem_keys] at hT
      exact ExtTreeMap.getElem?_eq_none hT
    rw [hnone]
    rfl

/-- The marking leaves no thread exactly when none is blocked. -/
theorem threads_allDone_eq_empty_iff :
    s.allDone.threads = ∅ ↔
      ∀ (T : Int) (t : FullThreadState), s.threads[T]? = some t → isBlocked t.state = false := by
  rw [ExtTreeMap.eq_empty_iff_getElem?]
  constructor
  · intro h T t hT
    have hgone := h T
    rw [threads_allDone, hT, Option.bind_some, removed_all] at hgone
    by_contra hb
    rw [if_pos (by simpa using hb)] at hgone
    cases hgone
  · intro h T
    rw [threads_allDone]
    cases hT : s.threads[T]? with
    | none => rfl
    | some t =>
      rw [Option.bind_some, removed_all, if_neg (by simp [h T t hT])]

/-! ### After the marking -/

/-- Once shut down, an adaptor without threads stays without threads. -/
theorem threads_empty_step {op : Op} (hs : s.Keyed) (hen : s.enabled op)
    (hdown : s.shuttingDown = true) (hempty : s.threads = ∅) : (s.exec op).2.threads = ∅ := by
  rw [ExtTreeMap.eq_empty_iff_getElem?]
  intro T
  have hmoves := exec_moves hs hen T
  have hclosed : ¬(op.rights s T).register := by
    rintro ⟨hopen, -⟩
    rw [hdown] at hopen
    cases hopen
  cases hT : (s.exec op).2.threads[T]? with
  | none => rfl
  | some t =>
    obtain ⟨e, he, -⟩ := condition_of_moves hclosed hmoves (by rw [snapshot_of_some hT])
    rw [snapshot_of_none (by rw [hempty, ExtTreeMap.getElem?_empty])] at he
    cases he

/-- The adaptor is closed for good, and empty if the marking has left it empty. -/
def Closed (s : Adaptor) (a : Adaptor) : Prop :=
  a.shuttingDown = true ∧ (s.allDone.threads = ∅ → a.Keyed ∧ a.threads = ∅)

theorem keyed_of_empty (h : s.threads = ∅) : s.Keyed := by
  intro T t hT
  rw [h, ExtTreeMap.getElem?_empty] at hT
  cases hT

/-- What one critical section of a thread keeps after the marking. -/
theorem closed_step {a : Adaptor} {op : Op} (ha : s.Closed a) (hen : a.enabled op) :
    s.Closed (a.exec op).2 := by
  have hdown : (a.exec op).2.shuttingDown = true := by
    by_cases hop : op = .allDone
    · rw [hop]
      rfl
    · rw [(counters_exec a op).2 hop]
      exact ha.1
  refine ⟨hdown, fun hempty => ?_⟩
  obtain ⟨hkeyed, hthreads⟩ := ha.2 hempty
  have hafter := threads_empty_step hkeyed hen ha.1 hthreads
  exact ⟨keyed_of_empty hafter, hafter⟩

theorem closed_invariant : s.shutdown.Invariant fun x => s.Closed x.adaptor where
  init := by
    rintro x rfl
    exact ⟨rfl, fun hempty => ⟨keyed_of_empty hempty, hempty⟩⟩
  step := by
    rintro x (op | -) x' hx hstep
    · obtain ⟨⟨hen, -, hexec⟩, -⟩ := hstep
      rw [← hexec]
      exact closed_step hx hen
    · obtain ⟨-, rfl⟩ := hstep
      exact hx

/-- The predicate sends the caller away at once if a thread is marked. -/
theorem not_orderlyShutdown (h : s.allDone.threads ≠ ∅) : ¬s.OrderlyShutdown := by
  intro horderly
  have hreturn : s.allDone.waitForThreads .marked = .returned true := by
    have hsome : s.allDone.threads.isEmpty = false := by
      rw [Bool.eq_false_iff, ne_eq, ExtTreeMap.isEmpty_iff]
      exact h
    unfold waitForThreads
    rw [hsome]
    rfl
  exact h (horderly { adaptor := s.allDone, caller := .marked }
    { adaptor := s.allDone, caller := s.allDone.waitForThreads .marked } (.init rfl)
    ⟨rfl, rfl⟩ hreturn)

/-- **Shutting down is orderly** over every interleaving that follows the marking exactly when no
registered thread is blocked when `all_done` is called. -/
theorem orderly_shutdown_iff :
    s.OrderlyShutdown ↔
      ∀ (T : Int) (t : FullThreadState), s.threads[T]? = some t → isBlocked t.state = false := by
  rw [← threads_allDone_eq_empty_iff]
  constructor
  · intro horderly
    by_contra hmarked
    exact not_orderlyShutdown hmarked horderly
  · intro hempty x x' hx hstep _
    obtain ⟨-, rfl⟩ := hstep
    exact ((closed_invariant.reachable hx).2 hempty).2

/-- With a thread waiting for memory, `all_done` returns while that thread is still inside. -/
theorem all_done_returns_before_threads_left :
    ∃ s, system.Reachable s ∧ ¬s.OrderlyShutdown := by
  refine ⟨run {} waitForMemory, reachable_run reachable_new (by decide), not_orderlyShutdown ?_⟩
  have hmarked : (run {} waitForMemory).allDone.threads.isEmpty = false := by decide
  intro hempty
  rw [hempty] at hmarked
  cases hmarked

end Adaptor

end SparkRapids.ResourceAdaptor
