import SparkRapidsJni.ResourceAdaptor.Metrics

/-!
# Finishing work wakes the waiters

Removing a thread that runs normally means that work was finished, so the threads that wait are to
be woken. `remove_thread_association` does not do this itself: it returns whether its caller has to.

`wakesWaiters_iff` goes through the callers. All but one pass the obligation on, through both loops
of `task_done` too (`fst_forThreads`). The FIXUP of `start_dedicated_task_thread` drops it, and the
waiters wait on (`fixup_wakes_nobody`); there the statement holds exactly when nobody waits.
-/

namespace SparkRapids.ResourceAdaptor

open Std (ExtTreeMap ExtTreeSet)

/-- The thread waits until further notice, or is on its way there. -/
def BelowBufn (st : ThreadState) : Prop :=
  st = .bufn ∨ st = .bufnThrow ∨ st = .bufnWait

instance (st : ThreadState) : Decidable (BelowBufn st) := inferInstanceAs (Decidable (_ ∨ _))

namespace Adaptor

variable {s : Adaptor} {T U id : Int} {t : FullThreadState} {op : Op}

/-- The operation takes the registration of a thread in `THREAD_RUNNING` away. -/
def RemovesRunning (s : Adaptor) (op : Op) : Prop :=
  ∃ (T : Int) (t : FullThreadState), s.threads[T]? = some t ∧ t.state = .running ∧
    op.removedEntry s T t = none

/-- A thread is in `THREAD_BLOCKED` once the operation has removed the threads it removes. No thread
gets there by a removal, so this is so only if one was when the first of them was removed. -/
def StillBlocked (s : Adaptor) (op : Op) : Prop :=
  ∃ (T : Int) (t t' : FullThreadState), s.threads[T]? = some t ∧ op.removedEntry s T t = some t' ∧
    t'.state = .blocked

/-- After the operation no thread is in `THREAD_BLOCKED`, and if none was to be woken from there,
none waits until further notice. -/
def WakesWaiters (s : Adaptor) (op : Op) : Prop :=
  (∀ (T : Int) (t : FullThreadState), (s.exec op).2.threads[T]? = some t → t.state ≠ .blocked) ∧
  (¬s.StillBlocked op →
    ∀ (T : Int) (t : FullThreadState), (s.exec op).2.threads[T]? = some t → ¬BelowBufn t.state)

/-! ### The wake-up -/

theorem not_blocked_wakeUp (h : s.wakeUpThreadsAfterTaskFinishes.threads[U]? = some t) :
    t.state ≠ .blocked := by
  have hfirst : ∀ {u}, (s.wakeThreadsIn fun st => st = .blocked).threads[U]? = some u →
      u.state ≠ .blocked := by
    intro u hu
    rw [threads_wakeThreadsIn] at hu
    obtain ⟨t0, -, rfl⟩ := Option.map_eq_some_iff.1 hu
    split_ifs with hb
    · exact ThreadState.noConfusion
    · exact of_decide_eq_false (by simpa using hb)
  unfold wakeUpThreadsAfterTaskFinishes at h
  dsimp only at h
  split_ifs at h
  · exact hfirst h
  · rw [threads_wakeThreadsIn] at h
    obtain ⟨u, hu, rfl⟩ := Option.map_eq_some_iff.1 h
    split_ifs
    · exact ThreadState.noConfusion
    · exact hfirst hu

/-- When no thread is in `THREAD_BLOCKED`, those below are woken too. -/
theorem not_belowBufn_wakeUp
    (hnone : ∀ (T : Int) (t : FullThreadState), s.threads[T]? = some t → t.state ≠ .blocked)
    (h : s.wakeUpThreadsAfterTaskFinishes.threads[U]? = some t) : ¬BelowBufn t.state := by
  have hany : (s.threads.toList.any fun kt => kt.2.state = .blocked) = false := by
    refine List.any_eq_false.2 fun kt hmem hb => ?_
    exact hnone kt.1 kt.2 (ExtTreeMap.mem_toList_iff.1 hmem) (of_decide_eq_true hb)
  unfold wakeUpThreadsAfterTaskFinishes at h
  dsimp only at h
  rw [hany, if_neg (by decide), threads_wakeThreadsIn] at h
  obtain ⟨u, -, rfl⟩ := Option.map_eq_some_iff.1 h
  split_ifs with hb
  · exact (by decide : ¬BelowBufn .running)
  · exact mt decide_eq_true hb

/-! ### Who is told to wake -/

/-- What `remove_thread_association` returns: whether a thread that ran normally has ended. -/
theorem fst_removeThreadAssociation (s : Adaptor) (T id : Int) :
    (s.removeThreadAssociation T id).1 =
      s.threads[T]?.any fun t => decide (t.state = .running) && (t.removed id).isNone := by
  unfold removeThreadAssociation
  cases hT : s.threads[T]? with
  | none => rfl
  | some t =>
    dsimp only
    rw [Option.any_some]
    have hstate : (t.checkpointed.dropTask id).2.state = t.state := FullThreadState.dropTask_state ..
    by_cases hr : (t.checkpointed.dropTask id).1 = true
    · have hremoved : t.removed id =
          if isBlocked t.state then
            some { (t.checkpointed.dropTask id).2 with state := .removeThrow }
          else none := by
        simp only [FullThreadState.removed, hr, hstate, if_true]
      rw [if_pos hr, hremoved]
      unfold removeEntry
      rw [hstate]
      cases t.state with
      | _ => rfl
    · have hremoved : t.removed id = some (t.checkpointed.dropTask id).2 := by
        simp only [FullThreadState.removed, hr, Bool.false_eq_true, if_false]
      rw [if_neg hr, hremoved, Option.isNone_some, Bool.and_false]

theorem fst_removeTaskFromPool (s : Adaptor) (T id : Int) :
    (removeTaskFromPool id s T).1 =
      s.threads[T]?.any fun t => decide (t.state = .running) && (t.droppedFromPool id).isNone := by
  unfold removeTaskFromPool
  cases hT : s.threads[T]? with
  | none => rfl
  | some t =>
    dsimp only
    rw [Option.any_some]
    unfold FullThreadState.droppedFromPool
    by_cases hid : id ∈ t.poolTaskIds
    · by_cases hempty : (t.poolTaskIds.erase id).isEmpty = true
      · rw [if_pos hid, if_pos hid]
        dsimp only
        rw [if_pos hempty, if_pos hempty, fst_removeThreadAssociation, threads_setThread, if_pos rfl,
          Option.any_some]
      · rw [if_pos hid, if_pos hid]
        dsimp only
        rw [if_neg hempty, if_neg hempty, Option.isNone_some, Bool.and_false]
    · rw [if_neg hid, if_neg hid, Option.isNone_some, Bool.and_false]

/-- A loop whose turns read and write the entry of their own thread returns whether any of the
threads, as it was before the loop, asks for the wake-up. -/
theorem fst_forThreads {f : Adaptor → Int → Bool × Adaptor}
    {g : FullThreadState → Option FullThreadState} (asks : Option FullThreadState → Bool)
    (hf : ∀ s T U, (f s T).2.threads[U]? = if T = U then s.threads[U]?.bind g else s.threads[U]?)
    (hasks : ∀ s T, (f s T).1 = asks s.threads[T]?) (s : Adaptor) {ids : List Int}
    (hids : ids.Nodup) :
    (forThreads f ids s).1 = ids.any fun T => asks s.threads[T]? := by
  unfold forThreads
  have main : ∀ (ids : List Int) (b : Bool) (s : Adaptor), ids.Nodup →
      (ids.foldl (fun r T => ((f r.2 T).1 || r.1, (f r.2 T).2)) (b, s)).1 =
        (b || ids.any fun T => asks s.threads[T]?) := by
    intro ids
    induction ids with
    | nil => intro b s _; simp
    | cons T rest ih =>
      intro b s hids
      obtain ⟨hT, hrest⟩ := List.nodup_cons.1 hids
      rw [List.foldl_cons, ih _ _ hrest, hasks, List.any_cons]
      -- the threads still to come are as they were
      have hsame : (rest.any fun U => asks (f s T).2.threads[U]?) =
          rest.any fun U => asks s.threads[U]? := by
        refine Bool.eq_iff_iff.2 ?_
        rw [List.any_eq_true, List.any_eq_true]
        refine exists_congr fun U => and_congr_right fun hU => ?_
        have hne : T ≠ U := fun h => hT (h ▸ hU)
        rw [hf, if_neg hne]
      rw [hsame, Bool.or_comm (asks _) b, Bool.or_assoc]
  rw [main ids false s hids, Bool.false_or]

/-! ### The callers -/

/-- With the removals done in `s2`, a wake-up does what is asked for. -/
theorem wakesWaiters_of_wakeUp (s2 : Adaptor)
    (hs2 : ∀ U, s2.threads[U]? = s.threads[U]?.bind fun t => op.removedEntry s U t)
    (hexec : (s.exec op).2.threads = s2.wakeUpThreadsAfterTaskFinishes.threads) :
    s.WakesWaiters op := by
  refine ⟨fun U t hU => ?_, fun hnone U t hU => ?_⟩
  · rw [hexec] at hU
    exact not_blocked_wakeUp hU
  · rw [hexec] at hU
    refine not_belowBufn_wakeUp (fun V v hV hv => hnone ?_) hU
    rw [hs2] at hV
    obtain ⟨v0, hV0, hrem⟩ := Option.bind_eq_some_iff.1 hV
    exact ⟨V, v0, v, hV0, hrem, hv⟩

/-- A thread that runs, and that one removal leaves, runs still. -/
theorem state_removed {t' : FullThreadState} (hst : t.state = .running)
    (h : t.removed id = some t') : t'.state = .running := by
  have hdrop : (t.checkpointed.dropTask id).2.state = t.state := FullThreadState.dropTask_state ..
  unfold FullThreadState.removed at h
  dsimp only at h
  rw [hdrop, hst] at h
  split_ifs at h
  · exact absurd ‹isBlocked .running = true› (by decide)
  · cases h
    rw [hdrop, hst]

theorem wakesWaiters_removeThreadAssociation
    (hrem : s.RemovesRunning (.removeThreadAssociation T id)) :
    s.WakesWaiters (.removeThreadAssociation T id) := by
  refine wakesWaiters_of_wakeUp (s.removeThreadAssociation T id).2 (fun U => ?_) ?_
  · rw [threads_removeThreadAssociation]
    dsimp only [Op.removedEntry]
    by_cases hU : T = U
    · rw [if_pos hU]
      simp only [if_pos hU]
    · rw [if_neg hU]
      simp only [if_neg hU, Option.bind_fun_some]
  · obtain ⟨U, t, hU, hst, hgone⟩ := hrem
    dsimp only [Op.removedEntry] at hgone
    split_ifs at hgone with hT
    have hruns : (s.removeThreadAssociation T id).1 = true := by
      rw [fst_removeThreadAssociation, hT, hU, Option.any_some, hst, hgone]
      rfl
    unfold exec
    dsimp only
    rw [if_pos hruns]

theorem wakesWaiters_poolThreadFinishedForTasks {taskIds : ExtTreeSet Int}
    (hrem : s.RemovesRunning (.poolThreadFinishedForTasks T taskIds)) :
    s.WakesWaiters (.poolThreadFinishedForTasks T taskIds) := by
  obtain ⟨U, t, hU, hst, hgone⟩ := hrem
  dsimp only [Op.removedEntry] at hgone
  split_ifs at hgone with hT
  obtain ⟨rfl, hopen⟩ := hT
  unfold FullThreadState.finishedForTasks at hgone
  dsimp only at hgone
  split_ifs at hgone with hempty
  set poolTaskIds := taskIds.toList.foldl (fun ids id => ids.erase id) t.poolTaskIds with hids
  set s1 := (s.checkpointMetrics T t).setThread T { t.checkpointed with poolTaskIds } with hs1
  have hthreads1 : ∀ V, s1.threads[V]? =
      if T = V then some { t.checkpointed with poolTaskIds } else s.threads[V]? := by
    intro V
    rw [hs1, threads_setThread, threads_checkpointMetrics]
    split_ifs <;> rfl
  have hruns : (s1.removeThreadAssociation T (-1)).1 = true := by
    rw [fst_removeThreadAssociation, hthreads1, if_pos rfl, Option.any_some, hgone]
    have hst1 : t.checkpointed.state = .running := hst
    simp [hst1]
  refine wakesWaiters_of_wakeUp (s1.removeThreadAssociation T (-1)).2 (fun V => ?_) ?_
  · rw [threads_removeThreadAssociation, hthreads1]
    dsimp only [Op.removedEntry]
    by_cases hV : T = V
    · subst hV
      rw [if_pos rfl, if_pos rfl, hU, Option.bind_some, Option.bind_some, if_pos ⟨rfl, hopen⟩]
      unfold FullThreadState.finishedForTasks
      dsimp only
      rw [← hids, if_pos hempty]
    · rw [if_neg hV, if_neg hV]
      simp only [hV, false_and, if_false, Option.bind_fun_some]
  · unfold exec poolThreadFinishedForTasks
    dsimp only
    rw [if_neg (by rw [hopen]; decide)]
    simp only [hU]
    rw [← hids, if_pos hempty, ← hs1, if_pos hruns]

theorem wakesWaiters_taskDone (hrem : s.RemovesRunning (.taskDone id)) :
    s.WakesWaiters (.taskDone id) := by
  set r1 := forThreads (fun s T => s.removeThreadAssociation T id) (s.listed id).toList s with hr1
  set r2 := forThreads (removeTaskFromPool id) r1.2.threads.keys r1.2 with hr2
  have hkeys : r1.2.threads.keys.Nodup := ExtTreeMap.nodup_keys
  have hfirst : ∀ V, r1.2.threads[V]? =
      if V ∈ s.listed id then s.threads[V]?.bind fun t => t.removed id else s.threads[V]? :=
    threads_listed s id
  have hsecond : ∀ V : Int, r2.2.threads[V]? =
      r1.2.threads[V]?.bind fun t => t.droppedFromPool id := by
    intro V
    rw [hr2, threads_forThreads (fun s T V => threads_removeTaskFromPool s T id V) _ hkeys]
    by_cases hV : V ∈ r1.2.threads.keys
    · rw [if_pos hV]
    · rw [if_neg hV, ExtTreeMap.getElem?_eq_none (mt ExtTreeMap.mem_keys.2 hV), Option.bind_none]
  have hruns : (r2.1 || r1.1) = true := by
    obtain ⟨U, t, hU, hst, hgone⟩ := hrem
    dsimp only [Op.removedEntry] at hgone
    rw [Bool.or_eq_true]
    by_cases hgone1 : U ∈ s.listed id ∧ t.removed id = none
    · -- the first loop removes the thread
      refine .inr ?_
      rw [hr1, fst_forThreads
        (fun o => o.any fun t => decide (t.state = .running) && (t.removed id).isNone)
        (fun s T V => threads_removeThreadAssociation s T id V)
        (fun s T => fst_removeThreadAssociation s T id) s (ExtTreeSet.nodup_toList _),
        List.any_eq_true]
      exact ⟨U, ExtTreeSet.mem_toList.2 hgone1.1, by simp [hU, hst, hgone1.2]⟩
    · -- it is still there, and runs, when the second loop comes to it
      refine .inl ?_
      obtain ⟨t1, hU1, hst1, hdropped⟩ : ∃ t1, r1.2.threads[U]? = some t1 ∧ t1.state = .running ∧
          t1.droppedFromPool id = none := by
        rw [hfirst]
        by_cases hlisted : U ∈ s.listed id
        · rw [if_pos hlisted] at hgone ⊢
          cases hrem1 : t.removed id with
          | none => exact absurd ⟨hlisted, hrem1⟩ hgone1
          | some t1 =>
            rw [hrem1, Option.bind_some] at hgone
            exact ⟨t1, by rw [hU, Option.bind_some, hrem1], state_removed hst hrem1, hgone⟩
        · rw [if_neg hlisted] at hgone ⊢
          exact ⟨t, hU, hst, by rwa [Option.bind_some] at hgone⟩
      rw [hr2, fst_forThreads
        (fun o => o.any fun t => decide (t.state = .running) && (t.droppedFromPool id).isNone)
        (fun s T V => threads_removeTaskFromPool s T id V)
        (fun s T => fst_removeTaskFromPool s T id) _ hkeys, List.any_eq_true]
      refine ⟨U, ?_, by simp [hU1, hst1, hdropped]⟩
      rw [ExtTreeMap.mem_keys]
      exact ExtTreeMap.mem_iff_isSome_getElem?.2 (by rw [hU1]; rfl)
  refine wakesWaiters_of_wakeUp r2.2 (fun V => ?_) ?_
  · rw [hsecond, hfirst]
    dsimp only [Op.removedEntry]
    cases hV : s.threads[V]? with
    | none => split_ifs <;> rfl
    | some t => rw [Option.bind_some, Option.bind_some]
  · unfold exec
    dsimp only
    rw [taskDone_eq]
    dsimp only
    rw [← hr1, ← hr2, if_pos hruns]

/-- The FIXUP wakes nobody, so whoever waits keeps waiting. -/
theorem wakesWaiters_startDedicatedTaskThread
    (hrem : s.RemovesRunning (.startDedicatedTaskThread T id)) :
    s.WakesWaiters (.startDedicatedTaskThread T id) ↔
      ∀ (U : Int) (u : FullThreadState), s.threads[U]? = some u →
        u.state ≠ .blocked ∧ ¬BelowBufn u.state := by
  obtain ⟨U, t, hU, hst, hgone⟩ := hrem
  dsimp only [Op.removedEntry] at hgone
  split_ifs at hgone with hT
  obtain ⟨rfl, hopen, hpos, hother⟩ := hT
  -- the FIXUP erases the entry, and the new one is put in its place
  have hfixup : ∀ V, (s.fixup T id).threads[V]? = if T = V then none else s.threads[V]? := by
    intro V
    obtain ⟨-, hsame⟩ | ⟨t', hT', -, -, heq⟩ := fixup_cases s T id
    · exact absurd (hsame t hU hpos) hother
    · rw [hU] at hT'
      cases hT'
      rw [heq, threads_removeThreadAssociation]
      by_cases hV : T = V
      · rw [if_pos hV, if_pos hV, ← hV, hU, Option.bind_some, hgone]
      · rw [if_neg hV, if_neg hV]
  have hexec : (s.exec (.startDedicatedTaskThread T id)).2 =
      ((s.fixup T id).emplaceThread T id false).dedicate T id := by
    unfold exec startDedicatedTaskThread
    dsimp only
    rw [if_neg (by rw [hopen]; decide)]
    simp only [hfixup, if_true]
  have hafter : ∀ V, (s.exec (.startDedicatedTaskThread T id)).2.threads[V]? =
      if T = V then some ((s.fixup T id).newThread T id false) else s.threads[V]? := by
    intro V
    rw [hexec]
    refine (threads_emplaceThread (s.fixup T id) T id false V).trans ?_
    rw [hfixup]
    by_cases hV : T = V
    · rw [if_pos hV, if_pos hV]
    · rw [if_neg hV, if_neg hV, if_neg hV]
  -- the thread itself runs, so whoever is blocked before is blocked while it is away
  have hstill : s.StillBlocked (.startDedicatedTaskThread T id) ↔
      ∃ (V : Int) (v : FullThreadState), s.threads[V]? = some v ∧ v.state = .blocked := by
    constructor
    · rintro ⟨V, v, v', hV, hv, hb⟩
      dsimp only [Op.removedEntry] at hv
      split_ifs at hv with hT
      · obtain ⟨rfl, -⟩ := hT
        rw [hU] at hV
        cases hV
        rw [hgone] at hv
        cases hv
      · cases hv
        exact ⟨V, v, hV, hb⟩
    · rintro ⟨V, v, hV, hb⟩
      refine ⟨V, v, v, hV, ?_, hb⟩
      dsimp only [Op.removedEntry]
      rw [if_neg]
      rintro ⟨rfl, -⟩
      rw [hU] at hV
      cases hV
      rw [hst] at hb
      cases hb
  constructor
  -- no entry but the thread's changes, so a thread that waits would wait afterwards
  · rintro ⟨hblocked, hbelow⟩ V v hV
    have hnew : T ≠ V → (s.exec (.startDedicatedTaskThread T id)).2.threads[V]? = some v :=
      fun hne => by rw [hafter, if_neg hne, hV]
    have hnone : ∀ (V : Int) (v : FullThreadState), s.threads[V]? = some v → v.state ≠ .blocked := by
      intro V v hV
      by_cases hne : T = V
      · subst hne
        rw [hU] at hV
        cases hV
        rw [hst]
        exact ThreadState.noConfusion
      · exact hblocked V v (by rw [hafter, if_neg hne, hV])
    refine ⟨hnone V v hV, ?_⟩
    by_cases hne : T = V
    · subst hne
      rw [hU] at hV
      cases hV
      rw [hst]
      decide
    · refine hbelow (fun h => ?_) V v (hnew hne)
      obtain ⟨W, w, hW, hw⟩ := hstill.1 h
      exact hnone W w hW hw
  · intro h
    have hrunning : ((s.fixup T id).newThread T id false).state = .running := rfl
    refine ⟨fun V v hV => ?_, fun _ V v hV => ?_⟩
    · rw [hafter] at hV
      split_ifs at hV
      · cases hV
        rw [hrunning]
        exact ThreadState.noConfusion
      · exact (h V v hV).1
    · rw [hafter] at hV
      split_ifs at hV
      · cases hV
        rw [hrunning]
        decide
      · exact (h V v hV).2

/-- **Finishing work wakes the waiters**, whatever takes the registration of a running thread away,
except where `start_dedicated_task_thread` moves the thread to another task while some thread
waits. -/
theorem wakesWaiters_iff (hop : op ≠ .allDone) (hrem : s.RemovesRunning op) :
    s.WakesWaiters op ↔
      ∀ T id, op = .startDedicatedTaskThread T id →
        ∀ (U : Int) (u : FullThreadState), s.threads[U]? = some u →
          u.state ≠ .blocked ∧ ¬BelowBufn u.state := by
  cases op with
  | startDedicatedTaskThread T id =>
    rw [wakesWaiters_startDedicatedTaskThread hrem]
    constructor
    · rintro h _ _ ⟨⟩
      exact h
    · exact fun h => h T id rfl
  | removeThreadAssociation T id =>
    exact iff_of_true (wakesWaiters_removeThreadAssociation hrem) fun _ _ h => by cases h
  | poolThreadFinishedForTasks T taskIds =>
    exact iff_of_true (wakesWaiters_poolThreadFinishedForTasks hrem) fun _ _ h => by cases h
  | taskDone id => exact iff_of_true (wakesWaiters_taskDone hrem) fun _ _ h => by cases h
  | allDone => exact absurd rfl hop
  | _ =>
    obtain ⟨U, t, -, -, hgone⟩ := hrem
    cases hgone

/-- The thread `2` is blocked, and the thread `1` runs. -/
def oneBlocked : List Op := [
  .startDedicatedTaskThread 1 1, .startDedicatedTaskThread 2 2,
  .preAlloc 2 false true, .postAllocFailed 2 false true true false]

theorem removesRunning_of_any {T : Int} (h : s.threads[T]?.any (fun t =>
    decide (t.state = .running) && (op.removedEntry s T t).isNone) = true) :
    s.RemovesRunning op := by
  obtain ⟨t, hT, ht⟩ := (Option.any_eq_true _ _).1 h
  obtain ⟨hrunning, hgone⟩ := Bool.and_eq_true_iff.1 ht
  exact ⟨T, t, hT, of_decide_eq_true hrunning, Option.isNone_iff_eq_none.1 hgone⟩

/-- When the task of the thread `1` is done, the thread `2` is woken. -/
theorem wakesWaiters_taskDone_oneBlocked : (run {} oneBlocked).WakesWaiters (.taskDone 1) :=
  (wakesWaiters_iff (fun h : Op.taskDone 1 = .allDone => by cases h)
    (removesRunning_of_any (T := 1) (by decide))).2 fun _ _ h => by cases h

/-- When the thread `1` starts on another task, the thread `2` is left in `THREAD_BLOCKED`. -/
theorem fixup_wakes_nobody :
    ∃ s op, system.Reachable s ∧ s.enabled op ∧ op ≠ .allDone ∧ s.RemovesRunning op ∧
      ¬s.WakesWaiters op := by
  refine ⟨run {} oneBlocked, .startDedicatedTaskThread 1 3, reachable_run reachable_new (by decide),
    by decide, Op.noConfusion, removesRunning_of_any (T := 1) (by decide), ?_⟩
  rintro ⟨hblocked, -⟩
  have hstill : ((run {} oneBlocked).exec (.startDedicatedTaskThread 1 3)).2.threads[
      (2 : Int)]?.map FullThreadState.state = some .blocked := by decide
  obtain ⟨t, hT, hst⟩ := Option.map_eq_some_iff.1 hstill
  exact hblocked 2 t hT hst

end Adaptor

end SparkRapids.ResourceAdaptor
