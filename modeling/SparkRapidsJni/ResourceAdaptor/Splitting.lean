import SparkRapidsJni.ResourceAdaptor.Detection
import SparkRapidsJni.ResourceAdaptor.Ranking

/-!
# Forcing a thread to split

`check_and_update_for_bufn` has a thread split its input when every task is blocked until further
notice (`AllBufn`): one of its dedicated threads is, or there are pool threads that work on it and
all of them are. The source decides this by the sizes of two sets, the tasks with dedicated threads
and the tasks that are BUFN; the second one also holds tasks that only pool threads work on.

`splitsWhenAllBufn_iff` says when the sizes give the right answer. The tasks on which the two sets
differ are `notBufn` and `poolOnlyBufn`, and the sizes are equal exactly when there are as many of
the ones as of the others. So a thread splits while a task is still running
(`splits_while_task_blocked`), or none does although all are BUFN.
-/

namespace SparkRapids.ResourceAdaptor.Adaptor

open Std (ExtTreeMap ExtTreeSet)
open DeadlockScan (WorksOn DedicatedTo)

variable {s : Adaptor} {java : Option (ExtTreeSet Int)} {id T U : Int} {t u : FullThreadState}

/-- Every task with a dedicated thread is BUFN. -/
def AllBufn (s : Adaptor) (java : Option (ExtTreeSet Int)) : Prop :=
  ∀ id, s.HasDedicated id → s.TaskBufn java id

/-- The thread gets to `THREAD_SPLIT_THROW` between the two states. -/
def MovedToSplit (s s' : Adaptor) (T : Int) : Prop :=
  (∃ t', s'.threads[T]? = some t' ∧ t'.state = .splitThrow) ∧
    ∀ t, s.threads[T]? = some t → t.state ≠ .splitThrow

/-- Some registered thread is in `THREAD_BUFN`. -/
def SomeBufn (s : Adaptor) : Prop :=
  ∃ (T : Int) (t : FullThreadState), s.threads[T]? = some t ∧ t.state = .bufn

/-- The call makes a thread split only when every task is BUFN, and then it does so to one thread,
which no thread in `THREAD_BUFN` ranks above. -/
def SplitsWhenAllBufn (s : Adaptor) (java : Option (ExtTreeSet Int)) : Prop :=
  let s' := s.checkAndUpdateForBufn java
  ((∃ T, MovedToSplit s s' T) → s.AllBufn java) ∧
  (isInDeadlock (s.deadlockScan java) = true → s.AllBufn java → s.SomeBufn →
    ∃ (T : Int) (t : FullThreadState), s.threads[T]? = some t ∧ t.state = .bufn ∧
      (∀ U, MovedToSplit s s' U ↔ U = T) ∧
      ∀ (U : Int) (u : FullThreadState), s.threads[U]? = some u → u.state = .bufn →
        (t.priority s'.taskPriority).1.lt (u.priority s'.taskPriority).1 = false)

/-! ### The two halves of the check -/

/-- The first half of the check neither puts a thread into `BUFN` or `SPLIT_THROW` nor takes one
out of it. -/
theorem threads_rollBack_iff (hs : s.Keyed) {st : ThreadState}
    (hst : st = .bufn ∨ st = .splitThrow) :
    s.rollBackLowestPriorityBlocked.threads[U]? = some u ∧ u.state = st ↔
      s.threads[U]? = some u ∧ u.state = st := by
  obtain ⟨p, heq, -⟩ | ⟨p, T, t, t', hT, hblocked, ht', heq⟩ := rollBack_cases hs
  · rw [heq]
  · rw [heq, threads_notifyAll, threads_setThread]
    by_cases hU : T = U
    · rw [if_pos hU, ← hU, hT]
      -- the entry that is written leaves `BLOCKED` for a state that is not `st` either
      have hbefore : t.state ≠ st := by
        rw [hblocked]
        rcases hst with rfl | rfl
        · decide
        · decide
      have hafter : t'.state ≠ st := by
        rcases ht' with rfl | rfl
        · rcases hst with rfl | rfl
          · exact ThreadState.noConfusion
          · exact ThreadState.noConfusion
        · rcases hst with rfl | rfl
          · exact ThreadState.noConfusion
          · exact ThreadState.noConfusion
      constructor
      · rintro ⟨h, hu⟩
        cases h
        exact absurd hu hafter
      · rintro ⟨h, hu⟩
        cases h
        exact absurd hu hbefore
    · rw [if_neg hU]

theorem threads_rollBack_none_iff (hs : s.Keyed) :
    s.rollBackLowestPriorityBlocked.threads[U]? = none ↔ s.threads[U]? = none := by
  obtain ⟨p, heq, -⟩ | ⟨p, T, t, t', hT, -, -, heq⟩ := rollBack_cases hs
  · rw [heq]
  · rw [heq, threads_notifyAll, threads_setThread]
    by_cases hU : T = U
    · rw [if_pos hU, ← hU, hT]
      simp
    · rw [if_neg hU]

/-- With a thread in `BUFN`, the second half moves the one that ranks highest. -/
theorem split_of_someBufn (hs : s.Keyed) (h : s.SomeBufn) :
    ∃ (T : Int) (t : FullThreadState), s.threads[T]? = some t ∧ t.state = .bufn ∧
      (∀ U, s.splitHighestPriorityBufn.threads[U]? =
        if T = U then some { t with state := .splitThrow } else s.threads[U]?) ∧
      ∀ (U : Int) (u : FullThreadState), s.threads[U]? = some u → u.state = .bufn →
        (t.priority s.splitHighestPriorityBufn.taskPriority).1.lt
          (u.priority s.splitHighestPriorityBufn.taskPriority).1 = false := by
  unfold splitHighestPriorityBufn
  dsimp only
  cases hpick : pickThread (fun toWake current => toWake.lt current)
      (fun t => decide (t.state = .bufn)) s.threads.toList none s.taskPriority with
  | mk best p =>
    cases best with
    | none =>
      -- a candidate was there, so the loop has picked one
      obtain ⟨T, t, hT, hst⟩ := h
      exact absurd hst (of_decide_eq_false (candidate_eq_false_of_pickThread hpick (ExtTreeMap.mem_toList_iff.2 hT)))
    | some best =>
      obtain ⟨key, prio⟩ := best
      obtain ⟨t, hmem, ht, rfl⟩ := pickThread_candidate hpick
      have hT : s.threads[key]? = some t := ExtTreeMap.mem_toList_iff.1 hmem
      have hid : t.threadId = key := hs key t hT
      dsimp only
      rw [FullThreadState.priority_threadId, hid]
      simp only [hT]
      refine ⟨key, t, hT, of_decide_eq_true ht, fun U => ?_, fun U u hU hu => ?_⟩
      · rw [threads_notifyAll, threads_transition]
        by_cases hkey : key = U
        · rw [if_pos hkey, if_pos hkey, ← hkey]
          exact congrArg (Option.map _) hT
        · rw [if_neg hkey, if_neg hkey]
      · have hbest := (pickThread_best ThreadPriority.rank
          (fun b c => ThreadPriority.lt_iff_rank) hpick).1 (U, u)
          (ExtTreeMap.mem_toList_iff.2 hU) (decide_eq_true hu)
        exact Bool.eq_false_iff.2 fun hlt => (ThreadPriority.lt_iff_rank.1 hlt).not_ge hbest

/-- Without one, only the thread with the id `-1` can move. -/
theorem split_of_not_someBufn (h : ¬s.SomeBufn) :
    s.splitHighestPriorityBufn.threads[U]? =
      if U = -1 then s.threads[U]?.map fun t => { t with state := .splitThrow }
      else s.threads[U]? := by
  unfold splitHighestPriorityBufn
  dsimp only
  cases hpick : pickThread (fun toWake current => toWake.lt current)
      (fun t => decide (t.state = .bufn)) s.threads.toList none s.taskPriority with
  | mk best p =>
    cases best with
    | none =>
      dsimp only
      cases hT : s.threads[(-1 : Int)]? with
      | none =>
        dsimp only
        by_cases hU : U = -1
        · rw [if_pos hU, hU, hT, Option.map_none]
        · rw [if_neg hU]
      | some t =>
        dsimp only
        rw [threads_notifyAll, threads_transition]
        by_cases hU : U = -1
        · rw [if_pos hU, if_pos hU.symm]
        · rw [if_neg hU, if_neg (Ne.symm hU)]
    | some best =>
      obtain ⟨key, prio⟩ := best
      obtain ⟨t, hmem, ht, -⟩ := pickThread_candidate hpick
      exact absurd ⟨key, t, ExtTreeMap.mem_toList_iff.1 hmem, of_decide_eq_true ht⟩ h

/-! ### Sizes of sets -/

/-- The tasks with a dedicated thread that are not BUFN. -/
def notBufn (s : Adaptor) (java : Option (ExtTreeSet Int)) : Set Int :=
  {id | s.HasDedicated id ∧ ¬s.TaskBufn java id}

/-- The BUFN tasks without a dedicated thread: only pool threads work on them. -/
def poolOnlyBufn (s : Adaptor) (java : Option (ExtTreeSet Int)) : Set Int :=
  {id | s.TaskBufn java id ∧ ¬s.HasDedicated id}

theorem notBufn_eq_empty_iff : s.notBufn java = ∅ ↔ s.AllBufn java := by
  rw [Set.eq_empty_iff_forall_notMem]
  exact forall_congr' fun id => by simp [notBufn]

theorem notBufn_eq : s.notBufn java =
    ↑((s.deadlockScan java).allTaskIds \ (s.deadlockScan java).bufnWithPools) := by
  ext id
  rw [Finset.coe_sdiff, Set.mem_sdiff, Finset.mem_coe, Finset.mem_coe, mem_allTaskIds,
    mem_bufnWithPools]
  rfl

theorem poolOnlyBufn_eq : s.poolOnlyBufn java =
    ↑((s.deadlockScan java).bufnWithPools \ (s.deadlockScan java).allTaskIds) := by
  ext id
  rw [Finset.coe_sdiff, Set.mem_sdiff, Finset.mem_coe, Finset.mem_coe, mem_allTaskIds,
    mem_bufnWithPools]
  rfl

/-- The comparison the source makes. -/
theorem card_allTaskIds_eq_iff :
    (s.deadlockScan java).allTaskIds.card = (s.deadlockScan java).bufnWithPools.card ↔
      (s.notBufn java).ncard = (s.poolOnlyBufn java).ncard := by
  rw [← Finset.card_sdiff_eq_card_sdiff_iff, notBufn_eq, poolOnlyBufn_eq, Set.ncard_coe_finset,
    Set.ncard_coe_finset]

/-! ### When the sizes are right -/

/-- A thread that the second half may move: one in `BUFN` or, if there is none, the thread with the
id `-1`, which the search starts from. -/
def CanSplit (s : Adaptor) : Prop :=
  s.SomeBufn ∨ ∃ t, s.threads[(-1 : Int)]? = some t ∧ t.state ≠ .splitThrow

theorem someBufn_rollBack_iff (hs : s.Keyed) :
    s.rollBackLowestPriorityBlocked.SomeBufn ↔ s.SomeBufn :=
  exists_congr fun _ => exists_congr fun _ => threads_rollBack_iff hs (.inl rfl)

theorem movedToSplit_rollBack_iff (hs : s.Keyed) {s' : Adaptor} :
    MovedToSplit s.rollBackLowestPriorityBlocked s' U ↔ MovedToSplit s s' U := by
  have hnot : ∀ s : Adaptor, (∀ t, s.threads[U]? = some t → t.state ≠ .splitThrow) ↔
      ¬∃ t, s.threads[U]? = some t ∧ t.state = .splitThrow := fun s => by
    rw [not_exists]
    exact forall_congr' fun t => by rw [not_and]
  unfold MovedToSplit
  rw [hnot, hnot]
  exact and_congr_right' (not_congr (exists_congr fun t => threads_rollBack_iff hs (.inr rfl)))

/-- Nothing moves without the second half. -/
theorem not_movedToSplit_rollBack (hs : s.Keyed) :
    ¬MovedToSplit s s.rollBackLowestPriorityBlocked U := by
  rintro ⟨⟨t, ht, hst⟩, hnot⟩
  obtain ⟨hT, hst⟩ := (threads_rollBack_iff hs (.inr rfl)).1 ⟨ht, hst⟩
  exact hnot t hT hst

/-- With a thread in `BUFN`, the second half moves the one that ranks highest and no other. -/
theorem movedToSplit_of_someBufn (hs : s.Keyed) (h : s.SomeBufn) :
    ∃ (T : Int) (t : FullThreadState), s.threads[T]? = some t ∧ t.state = .bufn ∧
      (∀ U, MovedToSplit s s.splitHighestPriorityBufn U ↔ U = T) ∧
      ∀ (U : Int) (u : FullThreadState), s.threads[U]? = some u → u.state = .bufn →
        (t.priority s.splitHighestPriorityBufn.taskPriority).1.lt
          (u.priority s.splitHighestPriorityBufn.taskPriority).1 = false := by
  obtain ⟨T, t, hT, hst, hthreads, hbest⟩ := split_of_someBufn hs h
  refine ⟨T, t, hT, hst, fun U => ⟨?_, ?_⟩, hbest⟩
  · rintro ⟨⟨t', ht', hst'⟩, hnot⟩
    by_contra hU
    rw [hthreads, if_neg (Ne.symm hU)] at ht'
    exact hnot t' ht' hst'
  · rintro rfl
    refine ⟨⟨_, by rw [hthreads, if_pos rfl], rfl⟩, fun t1 ht1 => ?_⟩
    rw [hT] at ht1
    cases ht1
    rw [hst]
    exact ThreadState.noConfusion

/-- The second half moves some thread when it can. -/
theorem exists_movedToSplit_iff (hs : s.Keyed) :
    (∃ T, MovedToSplit s s.splitHighestPriorityBufn T) ↔ s.CanSplit := by
  by_cases h : s.SomeBufn
  · obtain ⟨T, t, -, -, hmoved, -⟩ := movedToSplit_of_someBufn hs h
    exact iff_of_true ⟨T, (hmoved T).2 rfl⟩ (.inl h)
  · constructor
    · rintro ⟨T, ⟨t', ht', hst'⟩, hnot⟩
      rw [split_of_not_someBufn h] at ht'
      by_cases hT : T = -1
      · rw [if_pos hT] at ht'
        obtain ⟨t, ht, -⟩ := Option.map_eq_some_iff.1 ht'
        exact .inr ⟨t, hT ▸ ht, hnot t ht⟩
      · rw [if_neg hT] at ht'
        exact absurd hst' (hnot t' ht')
    · rintro (hsome | ⟨t, ht, hst⟩)
      · exact absurd hsome h
      · refine ⟨-1, ⟨{ t with state := .splitThrow }, ?_, rfl⟩, fun t1 ht1 => ?_⟩
        · rw [split_of_not_someBufn h, if_pos rfl, ht, Option.map_some]
        · rw [ht] at ht1
          cases ht1
          exact hst

theorem canSplit_rollBack_iff (hs : s.Keyed) :
    s.rollBackLowestPriorityBlocked.CanSplit ↔ s.CanSplit := by
  have hreg := threads_rollBack_none_iff (U := -1) hs
  have hsplit := fun u => threads_rollBack_iff (U := -1) (u := u) hs (.inr rfl)
  refine or_congr (someBufn_rollBack_iff hs) ⟨?_, ?_⟩
  · rintro ⟨t, ht, hst⟩
    cases hold : s.threads[(-1 : Int)]? with
    | none => rw [hreg.2 hold] at ht; cases ht
    | some t0 =>
      refine ⟨t0, rfl, fun hst0 => hst ?_⟩
      have hsame := ((hsplit t0).2 ⟨hold, hst0⟩).1
      rw [ht] at hsame
      cases hsame
      exact hst0
  · rintro ⟨t, ht, hst⟩
    cases hnew : s.rollBackLowestPriorityBlocked.threads[(-1 : Int)]? with
    | none => rw [hreg.1 hnew] at ht; cases ht
    | some t0 =>
      refine ⟨t0, rfl, fun hst0 => hst ?_⟩
      have hsame := ((hsplit t0).1 ⟨hnew, hst0⟩).1
      rw [ht] at hsame
      cases hsame
      exact hst0

/-- **Splitting when all is BUFN**: in every state the call gets it right exactly when, in a
deadlock in which a thread can be made to split, the tasks that are not BUFN are not as many as the
BUFN tasks of pool threads only, unless there are none of either. -/
theorem splitsWhenAllBufn_iff (hs : s.Keyed) (java : Option (ExtTreeSet Int)) :
    s.SplitsWhenAllBufn java ↔
      (s.Deadlocked java →
        (s.CanSplit → (s.notBufn java).ncard = (s.poolOnlyBufn java).ncard →
          s.notBufn java = ∅) ∧
        (s.SomeBufn → s.notBufn java = ∅ → s.poolOnlyBufn java = ∅)) := by
  have hfinite : (s.poolOnlyBufn java).Finite := by
    rw [poolOnlyBufn_eq]
    exact Finset.finite_toSet _
  have hsizes : s.notBufn java = ∅ → ((s.notBufn java).ncard = (s.poolOnlyBufn java).ncard ↔
      s.poolOnlyBufn java = ∅) := by
    intro h
    rw [h, Set.ncard_empty, eq_comm, Set.ncard_eq_zero hfinite]
  have hmoved : s.Deadlocked java →
      (s.notBufn java).ncard = (s.poolOnlyBufn java).ncard →
      s.checkAndUpdateForBufn java = s.rollBackLowestPriorityBlocked.splitHighestPriorityBufn := by
    intro hdead hcard
    unfold checkAndUpdateForBufn
    dsimp only
    rw [if_pos (isInDeadlock_iff.2 hdead), if_pos (card_allTaskIds_eq_iff.2 hcard)]
  have hunmoved : s.Deadlocked java →
      ¬(s.notBufn java).ncard = (s.poolOnlyBufn java).ncard →
      s.checkAndUpdateForBufn java = s.rollBackLowestPriorityBlocked := by
    intro hdead hcard
    unfold checkAndUpdateForBufn
    dsimp only
    rw [if_pos (isInDeadlock_iff.2 hdead), if_neg (mt card_allTaskIds_eq_iff.1 hcard)]
  have hkeyed := keyed_rollBack hs
  unfold SplitsWhenAllBufn
  dsimp only
  rw [isInDeadlock_iff, ← notBufn_eq_empty_iff]
  by_cases hdead : s.Deadlocked java
  · by_cases hcard : (s.notBufn java).ncard = (s.poolOnlyBufn java).ncard
    · -- the second half runs
      rw [hmoved hdead hcard]
      have hex : (∃ T, MovedToSplit s
          s.rollBackLowestPriorityBlocked.splitHighestPriorityBufn T) ↔ s.CanSplit := by
        rw [← canSplit_rollBack_iff hs, ← exists_movedToSplit_iff hkeyed]
        exact exists_congr fun T => (movedToSplit_rollBack_iff hs).symm
      rw [hex]
      constructor
      · rintro ⟨honly, -⟩ -
        exact ⟨fun hcan _ => honly hcan, fun hsome hnot => (hsizes hnot).1 hcard⟩
      · intro h
        obtain ⟨hsplit, -⟩ := h hdead
        refine ⟨fun hcan => hsplit hcan hcard, fun _ _ hsome => ?_⟩
        obtain ⟨T, t, hT, hst, hmovedT, hbest⟩ :=
          movedToSplit_of_someBufn hkeyed ((someBufn_rollBack_iff hs).2 hsome)
        obtain ⟨hT, hst⟩ := (threads_rollBack_iff hs (.inl rfl)).1 ⟨hT, hst⟩
        refine ⟨T, t, hT, hst, fun U => ?_, fun U u hU hu => ?_⟩
        · rw [← movedToSplit_rollBack_iff hs]
          exact hmovedT U
        · obtain ⟨hU, hu⟩ := (threads_rollBack_iff hs (.inl rfl)).2 ⟨hU, hu⟩
          exact hbest U u hU hu
    · -- it does not
      rw [hunmoved hdead hcard]
      constructor
      · rintro ⟨-, hall⟩ -
        refine ⟨fun _ h => absurd h hcard, fun hsome hnot => ?_⟩
        obtain ⟨T, t, -, -, hmovedT, -⟩ := hall hdead hnot hsome
        exact absurd ((hmovedT T).2 rfl) (not_movedToSplit_rollBack hs)
      · intro h
        refine ⟨?_, fun _ hnot hsome => ?_⟩
        · rintro ⟨T, hT⟩
          exact absurd hT (not_movedToSplit_rollBack hs)
        · exact absurd ((hsizes hnot).2 ((h hdead).2 hsome hnot)) hcard
  · -- no deadlock, and nothing changes
    have hsame : s.checkAndUpdateForBufn java = s := by
      unfold checkAndUpdateForBufn
      dsimp only
      rw [if_neg (mt isInDeadlock_iff.1 hdead)]
    rw [hsame]
    refine iff_of_true ⟨?_, fun h => absurd h hdead⟩ fun h => absurd h hdead
    rintro ⟨T, ⟨t, ht, hst⟩, hnot⟩
    exact absurd hst (hnot t ht)

theorem forall_threads_of_toList {P : FullThreadState → Bool}
    (h : (s.threads.toList.all fun kt => P kt.2) = true) (T : Int) (t : FullThreadState)
    (hT : s.threads[T]? = some t) : P t = true :=
  List.all_eq_true.1 h (T, t) (ExtTreeMap.mem_toList_iff.2 hT)

theorem poolOnlyBufn_eq_empty (h : ∀ (T : Int) (t : FullThreadState), s.threads[T]? = some t →
    0 ≤ t.taskId) : s.poolOnlyBufn java = ∅ := by
  refine Set.eq_empty_iff_forall_notMem.2 ?_
  rintro id ⟨⟨T, t, hT, ht, -⟩ | ⟨⟨T, t, hT, hneg, -⟩, -⟩, hnot⟩
  · exact hnot ⟨T, t, hT, ht⟩
  · exact absurd (h T t hT) (not_le.2 hneg)

/-- The thread `1` has rolled back and is in `THREAD_BUFN`, and the thread `2` waits for a pool. -/
def bufnAndPoolBlocked : List Op := [
  .startDedicatedTaskThread 1 1, .preAlloc 1 false true, .postAllocFailed 1 false true true false,
  .preAlloc 1 false true, .postAllocFailed 1 false true true false, .preAlloc 1 false true,
  .startDedicatedTaskThread 2 2, .blockThreadUntilReady 1, .waitingOnPoolStatusChanged 2 true]

theorem splitsWhenAllBufn_bufnAndPoolBlocked :
    (run {} bufnAndPoolBlocked).SplitsWhenAllBufn (some ∅) := by
  have hkeyed : (run {} bufnAndPoolBlocked).Keyed :=
    keyed_invariant.reachable (reachable_run reachable_new (by decide))
  have hbufn := forall_threads_of_toList (s := run {} bufnAndPoolBlocked)
    (P := fun t => 0 ≤ t.taskId && isThreadBufnOrAbove t (some ∅)) (by decide)
  have hded : ∀ (T : Int) (t : FullThreadState), (run {} bufnAndPoolBlocked).threads[T]? = some t →
      0 ≤ t.taskId :=
    fun T t hT => of_decide_eq_true (Bool.and_eq_true_iff.1 (hbufn T t hT)).1
  refine (splitsWhenAllBufn_iff hkeyed _).2 fun _ =>
    ⟨fun _ _ => notBufn_eq_empty_iff.2 ?_, fun _ _ => poolOnlyBufn_eq_empty hded⟩
  rintro id ⟨T, t, hT, ht⟩
  exact .inl ⟨T, t, hT, ht, (Bool.and_eq_true_iff.1 (hbufn T t hT)).2⟩

/-- The thread `1` is blocked for a moment, the pool thread `2` has rolled back for the task `2`,
which has no dedicated thread, and the thread `3` waits for a pool. -/
def blockedBesidePoolTask : List Op := [
  .startDedicatedTaskThread 1 1, .poolThreadWorkingOnTasks false 2 {2},
  .preAlloc 2 false true, .postAllocFailed 2 false true true false,
  .preAlloc 1 false true, .postAllocFailed 1 false true true false,
  .preAlloc 2 false true, .preAlloc 1 false true, .startDedicatedTaskThread 3 3,
  .blockThreadUntilReady 2, .waitingOnPoolStatusChanged 3 true]

/-- The thread `2` is made to split while the task `1` is not BUFN. -/
theorem splits_while_task_blocked :
    ∃ s, system.Reachable s ∧ ¬s.SplitsWhenAllBufn (some ∅) := by
  refine ⟨run {} blockedBesidePoolTask, reachable_run reachable_new (by decide), ?_⟩
  rintro ⟨honly, -⟩
  have hbefore : (run {} blockedBesidePoolTask).threads[(2 : Int)]?.map FullThreadState.state =
      some .bufn := by decide
  have hafter : ((run {} blockedBesidePoolTask).checkAndUpdateForBufn (some ∅)).threads[
      (2 : Int)]?.map FullThreadState.state = some .splitThrow := by decide
  have hdedicated : (run {} blockedBesidePoolTask).threads[(1 : Int)]?.map FullThreadState.taskId =
      some 1 := by decide
  have hnotBufn := forall_threads_of_toList (s := run {} blockedBesidePoolTask)
    (P := fun t => !(decide (t.taskId = 1) && isThreadBufnOrAbove t (some ∅)) &&
      !(decide (t.taskId < 0) && decide (1 ∈ t.poolTaskIds))) (by decide)
  obtain ⟨t, ht, hst⟩ := Option.map_eq_some_iff.1 hbefore
  obtain ⟨t', ht', hst'⟩ := Option.map_eq_some_iff.1 hafter
  obtain ⟨t1, ht1, htask⟩ := Option.map_eq_some_iff.1 hdedicated
  have hmoved : MovedToSplit (run {} blockedBesidePoolTask)
      ((run {} blockedBesidePoolTask).checkAndUpdateForBufn (some ∅)) 2 := by
    refine ⟨⟨t', ht', hst'⟩, fun u hu => ?_⟩
    rw [ht] at hu
    cases hu
    rw [hst]
    exact ThreadState.noConfusion
  rcases honly ⟨2, hmoved⟩ 1 ⟨1, t1, ht1, by rw [htask]; decide, htask⟩ with
    ⟨T, u, hT, hu, hb⟩ | ⟨⟨T, u, hT, hu⟩, -⟩
  · have h := hnotBufn T u hT
    simp [hu.2, hb] at h
  · have h := hnotBufn T u hT
    simp [hu.1, hu.2] at h

end SparkRapids.ResourceAdaptor.Adaptor
