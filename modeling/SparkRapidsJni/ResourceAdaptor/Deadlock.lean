import SparkRapidsJni.ResourceAdaptor.Refinement

/-!
# Breaking deadlocks

`is_in_deadlock` decides by the sizes of sets it fills in two passes over the threads. The first
section says what these sets are (`mem_allTaskIds`, `mem_blockedTaskIds`, `mem_bufnWithPools`), for
any state; the second uses it for the states in which every thread is blocked.

In such a state, with a dedicated thread registered, `check_and_update_for_bufn` takes some thread
out of its blocked state exactly when a thread is in `BLOCKED`, or every task a pool thread works on
has a dedicated thread (`deadlock_broken_iff`). The sets are compared by size, and the tasks of pool
threads count on one side only: with one such task that has no dedicated thread, and all threads in
`BUFN`, the sizes differ and nothing is woken (`deadlock_not_broken`).
-/

namespace SparkRapids.ResourceAdaptor

open Std (ExtTreeMap ExtTreeSet)

namespace Adaptor.DeadlockScan

variable {java : Option (ExtTreeSet Int)} {d : DeadlockScan} {ts : List FullThreadState} {id : Int}

/-! ### The sets of the two passes -/

/-- A thread the deadlock detection takes to be blocked. -/
def CountsAsBlocked (java : Option (ExtTreeSet Int)) (t : FullThreadState) : Prop :=
  isThreadBufnOrAbove t java = true ∨ t.state = .blocked

instance (t : FullThreadState) : Decidable (CountsAsBlocked java t) :=
  inferInstanceAs (Decidable (_ ∨ _))

/-- A pool thread that works on the task. -/
def WorksOn (id : Int) (t : FullThreadState) : Prop :=
  t.taskId < 0 ∧ id ∈ t.poolTaskIds

instance (t : FullThreadState) : Decidable (WorksOn id t) :=
  inferInstanceAs (Decidable (_ ∧ _))

/-- A thread dedicated to the task. -/
def DedicatedTo (id : Int) (t : FullThreadState) : Prop :=
  0 ≤ t.taskId ∧ t.taskId = id

theorem mem_allTaskIds_dedicated :
    id ∈ (ts.foldl (dedicatedThread java) d).allTaskIds ↔
      id ∈ d.allTaskIds ∨ ∃ t ∈ ts, DedicatedTo id t := by
  induction ts generalizing d with
  | nil => simp
  | cons t rest ih =>
    rw [List.foldl_cons, ih]
    unfold dedicatedThread
    by_cases ht : 0 ≤ t.taskId
    · simp only [ht, if_true, Finset.mem_insert, List.exists_mem_cons_iff, DedicatedTo, true_and]
      tauto
    · simp only [ht, if_false, List.exists_mem_cons_iff, DedicatedTo, false_and, false_or]

theorem mem_bufnTaskIds_dedicated :
    id ∈ (ts.foldl (dedicatedThread java) d).bufnTaskIds ↔
      id ∈ d.bufnTaskIds ∨ ∃ t ∈ ts, DedicatedTo id t ∧ isThreadBufnOrAbove t java = true := by
  induction ts generalizing d with
  | nil => simp
  | cons t rest ih =>
    rw [List.foldl_cons, ih]
    unfold dedicatedThread
    by_cases ht : 0 ≤ t.taskId
    · by_cases hb : isThreadBufnOrAbove t java = true
      · simp only [ht, hb, if_true, Finset.mem_insert, List.exists_mem_cons_iff, DedicatedTo,
          true_and, and_true]
        tauto
      · simp only [ht, hb, if_true, if_false, Bool.false_eq_true, List.exists_mem_cons_iff,
          DedicatedTo, and_false, false_or]
    · simp only [ht, if_false, List.exists_mem_cons_iff, DedicatedTo, false_and, false_or]

theorem mem_blockedTaskIds_dedicated :
    id ∈ (ts.foldl (dedicatedThread java) d).blockedTaskIds ↔
      id ∈ d.blockedTaskIds ∨ ∃ t ∈ ts, DedicatedTo id t ∧ CountsAsBlocked java t := by
  induction ts generalizing d with
  | nil => simp
  | cons t rest ih =>
    rw [List.foldl_cons, ih]
    unfold dedicatedThread
    have hb : (isThreadBufnOrAbove t java || decide (t.state = .blocked)) = true ↔
        CountsAsBlocked java t := by
      simp [CountsAsBlocked]
    by_cases ht : 0 ≤ t.taskId
    · by_cases hc : CountsAsBlocked java t
      · simp only [ht, hb.2 hc, hc, if_true, Finset.mem_insert, List.exists_mem_cons_iff,
          DedicatedTo, true_and, and_true]
        tauto
      · simp only [ht, mt hb.1 hc, hc, if_true, if_false, Bool.false_eq_true,
          List.exists_mem_cons_iff, and_false, false_or]
    · simp only [ht, if_false, List.exists_mem_cons_iff, DedicatedTo, false_and, false_or]

/-- The first pass counts no pool threads. -/
theorem counts_dedicated :
    (ts.foldl (dedicatedThread java) d).poolTaskThreadCount = d.poolTaskThreadCount ∧
      (ts.foldl (dedicatedThread java) d).poolBufnTaskThreadCount = d.poolBufnTaskThreadCount := by
  induction ts generalizing d with
  | nil => exact ⟨rfl, rfl⟩
  | cons t rest ih =>
    rw [List.foldl_cons]
    obtain ⟨h1, h2⟩ := ih (d := dedicatedThread java d t)
    rw [h1, h2]
    unfold dedicatedThread
    split_ifs <;> exact ⟨rfl, rfl⟩

/-- The second pass leaves the sets of the dedicated threads alone. -/
theorem sets_pool :
    (ts.foldl (poolThread java) d).allTaskIds = d.allTaskIds ∧
      (ts.foldl (poolThread java) d).bufnTaskIds = d.bufnTaskIds := by
  induction ts generalizing d with
  | nil => exact ⟨rfl, rfl⟩
  | cons t rest ih =>
    rw [List.foldl_cons]
    obtain ⟨h1, h2⟩ := ih (d := poolThread java d t)
    rw [h1, h2]
    unfold poolThread
    split_ifs <;> exact ⟨rfl, rfl⟩

theorem mem_foldl_erase {ids : List Int} {b : Finset Int} :
    id ∈ ids.foldl (fun b id => b.erase id) b ↔ id ∈ b ∧ id ∉ ids := by
  induction ids generalizing b with
  | nil => simp
  | cons i rest ih =>
    rw [List.foldl_cons, ih, Finset.mem_erase, List.mem_cons, not_or]
    tauto

/-- A task stays blocked through the second pass when every pool thread that works on it is
blocked. -/
theorem mem_blockedTaskIds_pool :
    id ∈ (ts.foldl (poolThread java) d).blockedTaskIds ↔
      id ∈ d.blockedTaskIds ∧ ∀ t ∈ ts, WorksOn id t → CountsAsBlocked java t := by
  induction ts generalizing d with
  | nil => simp
  | cons t rest ih =>
    rw [List.foldl_cons, ih, List.forall_mem_cons]
    have hstep : id ∈ (poolThread java d t).blockedTaskIds ↔
        id ∈ d.blockedTaskIds ∧ (WorksOn id t → CountsAsBlocked java t) := by
      unfold poolThread
      have hb : (!isThreadBufnOrAbove t java && decide (t.state ≠ .blocked)) = true ↔
          ¬CountsAsBlocked java t := by
        simp [CountsAsBlocked]
      by_cases ht : t.taskId < 0
      · by_cases hc : CountsAsBlocked java t
        · have hnot : ¬(!isThreadBufnOrAbove t java && decide (t.state ≠ .blocked)) = true :=
            fun h => hb.1 h hc
          simp only [ht, if_true, if_neg hnot, hc, implies_true, and_true]
        · simp only [ht, if_true, if_pos (hb.2 hc), mem_foldl_erase, ExtTreeSet.mem_toList, hc,
            WorksOn, true_and, imp_false]
      · simp only [ht, if_false, WorksOn, false_and, false_implies, and_true]
    rw [hstep, and_assoc]

/-! ### The counters -/

theorem getElem?_countTasks {count : ExtTreeMap Int Nat} {ids : List Int} (hids : ids.Nodup) :
    (countTasks count ids)[id]? =
      if id ∈ ids then some (count[id]?.getD 0 + 1) else count[id]? := by
  unfold countTasks
  induction ids generalizing count with
  | nil => simp
  | cons i rest ih =>
    obtain ⟨hi, hrest⟩ := List.nodup_cons.1 hids
    rw [List.foldl_cons, ih hrest, ExtTreeMap.getElem?_insert_eq]
    by_cases h : i = id
    · subst h
      simp [hi]
    · simp [h, Ne.symm h]

/-- What counting the threads of a list adds to a counter that is missing while it is `0`. -/
def addCount (o : Option Nat) (n : Nat) : Option Nat :=
  if n = 0 then o else some (o.getD 0 + n)

theorem addCount_addCount (o : Option Nat) (m n : Nat) :
    addCount (addCount o m) n = addCount o (m + n) := by
  unfold addCount
  by_cases hm : m = 0
  · simp [hm]
  · by_cases hn : n = 0
    · simp [hm, hn]
    · simp [hm, hn, Nat.add_assoc]

theorem addCount_none_eq_some {n k : Nat} : addCount none n = some k ↔ n ≠ 0 ∧ n = k := by
  unfold addCount
  by_cases hn : n = 0
  · simp [hn]
  · simp [hn]

theorem poolTaskThreadCount_pool :
    (ts.foldl (poolThread java) d).poolTaskThreadCount[id]? =
      addCount d.poolTaskThreadCount[id]? (ts.countP fun t => WorksOn id t) := by
  induction ts generalizing d with
  | nil => simp [addCount]
  | cons t rest ih =>
    rw [List.foldl_cons, ih, List.countP_cons, Nat.add_comm, ← addCount_addCount]
    congr 1
    unfold poolThread
    by_cases ht : t.taskId < 0
    · rw [if_pos ht]
      dsimp only
      rw [getElem?_countTasks (ExtTreeSet.nodup_toList _)]
      by_cases hid : id ∈ t.poolTaskIds
      · simp [WorksOn, ht, hid, addCount]
      · simp [WorksOn, hid, addCount]
    · simp [ht, WorksOn, addCount]

theorem poolBufnTaskThreadCount_pool :
    (ts.foldl (poolThread java) d).poolBufnTaskThreadCount[id]? =
      addCount d.poolBufnTaskThreadCount[id]?
        (ts.countP fun t => WorksOn id t ∧ isThreadBufnOrAbove t java = true) := by
  induction ts generalizing d with
  | nil => simp [addCount]
  | cons t rest ih =>
    rw [List.foldl_cons, ih, List.countP_cons, Nat.add_comm, ← addCount_addCount]
    congr 1
    unfold poolThread
    by_cases ht : t.taskId < 0
    · rw [if_pos ht]
      dsimp only
      by_cases hb : isThreadBufnOrAbove t java = true
      · rw [if_pos hb, getElem?_countTasks (ExtTreeSet.nodup_toList _)]
        by_cases hid : id ∈ t.poolTaskIds
        · simp [WorksOn, ht, hid, hb, addCount]
        · simp [WorksOn, hid, addCount]
      · simp [hb, addCount]
    · simp [ht, WorksOn, addCount]

/-- `bufn_task_ids` once the tasks of pool threads are added: the tasks all of whose pool threads,
and at least one, are BUFN. -/
theorem mem_bufnWithPools :
    id ∈ d.bufnWithPools ↔
      id ∈ d.bufnTaskIds ∨
        ∃ n m, d.poolBufnTaskThreadCount[id]? = some n ∧ d.poolTaskThreadCount[id]? = some m ∧
          m ≤ n := by
  have hfold : ∀ (idCounts : List (Int × Nat)) (bufn : Finset Int),
      id ∈ idCounts.foldl d.addBufnTask bufn ↔
      id ∈ bufn ∨ ∃ n m, (id, n) ∈ idCounts ∧ d.poolTaskThreadCount[id]? = some m ∧ m ≤ n := by
    intro idCounts
    induction idCounts with
    | nil => simp
    | cons ic rest ih =>
      intro bufn
      obtain ⟨i, n⟩ := ic
      rw [List.foldl_cons, ih]
      -- one count adds its task if it counts all the pool threads of the task
      have hstep : id ∈ d.addBufnTask bufn (i, n) ↔
          id ∈ bufn ∨ id = i ∧ ∃ m, d.poolTaskThreadCount[id]? = some m ∧ m ≤ n := by
        unfold addBufnTask
        by_cases hi : id = i
        · subst hi
          cases hc : d.poolTaskThreadCount[id]? with
          | none => simp
          | some m =>
            by_cases hm : m ≤ n
            · simp [hm]
            · simp [hm]
        · cases d.poolTaskThreadCount[i]? with
          | none => simp [hi]
          | some m =>
            by_cases hm : m ≤ n
            · simp [hm, hi]
            · simp [hm, hi]
      rw [hstep]
      constructor
      · rintro ((h | ⟨rfl, m, hm, hle⟩) | ⟨n', m, hmem, hm, hle⟩)
        · exact .inl h
        · exact .inr ⟨n, m, .head _, hm, hle⟩
        · exact .inr ⟨n', m, .tail _ hmem, hm, hle⟩
      · rintro (h | ⟨n', m, hmem, hm, hle⟩)
        · exact .inl (.inl h)
        · rcases List.mem_cons.1 hmem with heq | hrest
          · cases heq
            exact .inl (.inr ⟨rfl, m, hm, hle⟩)
          · exact .inr ⟨n', m, hrest, hm, hle⟩
  refine (hfold d.poolBufnTaskThreadCount.toList d.bufnTaskIds).trans ?_
  simp only [ExtTreeMap.mem_toList_iff]

end Adaptor.DeadlockScan

/-- Every element that has the first property has the second when as many have both. -/
theorem countP_le_countP_and_iff {α : Type*} {p q : α → Prop} [DecidablePred p] [DecidablePred q]
    (l : List α) :
    l.countP (fun a => p a) ≤ l.countP (fun a => p a ∧ q a) ↔ ∀ a ∈ l, p a → q a := by
  have hle : ∀ l : List α, l.countP (fun a => p a ∧ q a) ≤ l.countP (fun a => p a) := fun l =>
    List.countP_mono_left fun a _ h => decide_eq_true (of_decide_eq_true h).1
  induction l with
  | nil => simp
  | cons a l ih =>
    have hl := hle l
    rw [List.countP_cons, List.countP_cons, List.forall_mem_cons]
    by_cases hp : p a
    · by_cases hq : q a
      · simp only [hp, hq, true_and, and_self, decide_true, if_true, Nat.add_le_add_iff_right, ih,
          true_implies]
      · simp only [hp, hq, decide_true, if_true, and_false, decide_false, Bool.false_eq_true,
          if_false, true_implies, false_and, iff_false]
        omega
    · simp only [hp, false_and, decide_false, Bool.false_eq_true, if_false, Nat.add_zero, ih,
        false_implies, true_and]

namespace Adaptor

open DeadlockScan (CountsAsBlocked WorksOn DedicatedTo)

variable {s : Adaptor} {java : Option (ExtTreeSet Int)} {id : Int}

theorem mem_threads_iff {t : FullThreadState} :
    t ∈ s.threads.toList.map Prod.snd ↔ ∃ T : Int, s.threads[T]? = some t := by
  rw [List.mem_map]
  constructor
  · rintro ⟨⟨T, t'⟩, hmem, rfl⟩
    exact ⟨T, ExtTreeMap.mem_toList_iff.1 hmem⟩
  · rintro ⟨T, hT⟩
    exact ⟨(T, t), ExtTreeMap.mem_toList_iff.2 hT, rfl⟩

theorem exists_threads_iff {P : FullThreadState → Prop} :
    (∃ t, (∃ T : Int, s.threads[T]? = some t) ∧ P t) ↔
      ∃ (T : Int) (t : FullThreadState), s.threads[T]? = some t ∧ P t :=
  ⟨fun ⟨t, ⟨T, hT⟩, ht⟩ => ⟨T, t, hT, ht⟩, fun ⟨T, t, hT, ht⟩ => ⟨t, ⟨T, hT⟩, ht⟩⟩

theorem forall_threads_iff {P : FullThreadState → Prop} :
    (∀ t, (∃ T : Int, s.threads[T]? = some t) → P t) ↔
      ∀ (T : Int) (t : FullThreadState), s.threads[T]? = some t → P t :=
  ⟨fun h T t hT => h t ⟨T, hT⟩, fun h t ⟨T, hT⟩ => h T t hT⟩

/-- Some registered thread is dedicated to the task. -/
def HasDedicated (s : Adaptor) (id : Int) : Prop :=
  ∃ (T : Int) (t : FullThreadState), s.threads[T]? = some t ∧ DedicatedTo id t

/-- A task with a dedicated thread that counts as blocked, all of whose pool threads do. -/
def TaskBlocked (s : Adaptor) (java : Option (ExtTreeSet Int)) (id : Int) : Prop :=
  (∃ (T : Int) (t : FullThreadState), s.threads[T]? = some t ∧ DedicatedTo id t ∧
    CountsAsBlocked java t) ∧
  ∀ (T : Int) (t : FullThreadState), s.threads[T]? = some t → WorksOn id t →
    CountsAsBlocked java t

/-- A task that is blocked until further notice. -/
def TaskBufn (s : Adaptor) (java : Option (ExtTreeSet Int)) (id : Int) : Prop :=
  (∃ (T : Int) (t : FullThreadState), s.threads[T]? = some t ∧ DedicatedTo id t ∧
    isThreadBufnOrAbove t java = true) ∨
  (∃ (T : Int) (t : FullThreadState), s.threads[T]? = some t ∧ WorksOn id t) ∧
    ∀ (T : Int) (t : FullThreadState), s.threads[T]? = some t → WorksOn id t →
      isThreadBufnOrAbove t java = true

/-- `all_task_ids`: the tasks with a dedicated thread. -/
theorem mem_allTaskIds : id ∈ (s.deadlockScan java).allTaskIds ↔ s.HasDedicated id := by
  unfold deadlockScan
  dsimp only
  rw [DeadlockScan.sets_pool.1, DeadlockScan.mem_allTaskIds_dedicated]
  simp only [mem_threads_iff, Finset.notMem_empty, false_or]
  exact exists_threads_iff

/-- `blocked_task_ids`: a dedicated thread of the task is blocked, and so is every pool thread that
works on it. -/
theorem mem_blockedTaskIds : id ∈ (s.deadlockScan java).blockedTaskIds ↔ s.TaskBlocked java id := by
  unfold deadlockScan
  dsimp only
  rw [DeadlockScan.mem_blockedTaskIds_pool, DeadlockScan.mem_blockedTaskIds_dedicated]
  simp only [mem_threads_iff, Finset.notMem_empty, false_or]
  exact and_congr exists_threads_iff forall_threads_iff

/-- The tasks `check_and_update_for_bufn` compares with `all_task_ids`: a dedicated thread is BUFN,
or there are pool threads and all of them are. -/
theorem mem_bufnWithPools : id ∈ (s.deadlockScan java).bufnWithPools ↔ s.TaskBufn java id := by
  have hcounts := @DeadlockScan.counts_dedicated java {} (s.threads.toList.map Prod.snd)
  have hbufn : id ∈ (s.deadlockScan java).bufnTaskIds ↔
      ∃ (T : Int) (t : FullThreadState), s.threads[T]? = some t ∧ DedicatedTo id t ∧
        isThreadBufnOrAbove t java = true := by
    unfold deadlockScan
    dsimp only
    rw [DeadlockScan.sets_pool.2, DeadlockScan.mem_bufnTaskIds_dedicated]
    simp only [mem_threads_iff, Finset.notMem_empty, false_or]
    exact exists_threads_iff
  rw [DeadlockScan.mem_bufnWithPools, hbufn]
  refine or_congr_right ?_
  unfold deadlockScan
  dsimp only
  rw [DeadlockScan.poolBufnTaskThreadCount_pool, DeadlockScan.poolTaskThreadCount_pool, hcounts.1,
    hcounts.2]
  rw [show ({} : DeadlockScan).poolTaskThreadCount[id]? = none from ExtTreeMap.getElem?_empty]
  set ts := s.threads.toList.map Prod.snd with hts
  have hall := countP_le_countP_and_iff (p := fun t => WorksOn id t)
    (q := fun t => isThreadBufnOrAbove t java = true) ts
  have hsome : ts.countP (fun t => WorksOn id t) = 0 ↔ ∀ t ∈ ts, ¬WorksOn id t := by
    simp [List.countP_eq_zero]
  constructor
  · rintro ⟨n, m, hn, hm, hle⟩
    -- a counter that is there is not zero
    obtain ⟨-, rfl⟩ := DeadlockScan.addCount_none_eq_some.1 hn
    obtain ⟨hpos, rfl⟩ := DeadlockScan.addCount_none_eq_some.1 hm
    refine ⟨?_, fun T t hT hw => hall.1 hle t (mem_threads_iff.2 ⟨T, hT⟩) hw⟩
    by_contra hno
    push Not at hno
    refine hpos (hsome.2 fun t ht hw => ?_)
    obtain ⟨T, hT⟩ := mem_threads_iff.1 ht
    exact hno T t hT hw
  · rintro ⟨⟨T, t, hT, hw⟩, hbufnAll⟩
    have hmem : t ∈ ts := mem_threads_iff.2 ⟨T, hT⟩
    have hle := hall.2 fun t' ht' hw' => by
      obtain ⟨T', hT'⟩ := mem_threads_iff.1 ht'
      exact hbufnAll T' t' hT' hw'
    have hpos : ts.countP (fun t => WorksOn id t) ≠ 0 := fun h => hsome.1 h t hmem hw
    exact ⟨_, _, DeadlockScan.addCount_none_eq_some.2 ⟨by omega, rfl⟩,
      DeadlockScan.addCount_none_eq_some.2 ⟨hpos, rfl⟩, hle⟩

/-! ### All threads blocked -/

/-- Some registered thread leaves `BLOCKED` and `BUFN` in `check_and_update_for_bufn`. -/
def MovesBlocked (s : Adaptor) (java : Option (ExtTreeSet Int)) : Prop :=
  ∃ (T : Int) (t t' : FullThreadState), s.threads[T]? = some t ∧ isBlocked t.state = true ∧
    (s.checkAndUpdateForBufn java).threads[T]? = some t' ∧ isBlocked t'.state = false

/-- Every registered thread is in `BLOCKED` or `BUFN`. -/
def AllBlocked (s : Adaptor) : Prop :=
  ∀ (T : Int) (t : FullThreadState), s.threads[T]? = some t → isBlocked t.state = true

/-- Every task a registered pool thread works on has a registered dedicated thread. -/
def PoolTasksDedicated (s : Adaptor) : Prop :=
  ∀ (T : Int) (t : FullThreadState), s.threads[T]? = some t → ∀ id, WorksOn id t →
    ∃ (T' : Int) (t' : FullThreadState), s.threads[T']? = some t' ∧ DedicatedTo id t'

theorem countsAsBlocked_of_isBlocked {t : FullThreadState} (h : isBlocked t.state = true) :
    CountsAsBlocked java t := by
  rcases isBlocked_iff.1 h with h | h
  · exact .inr h
  · refine .inl ?_
    unfold isThreadBufnOrAbove
    split_ifs
    · rfl
    · rw [h]

/-- With every thread blocked, and a dedicated one among them, the adaptor is deadlocked. -/
theorem isInDeadlock_of_allBlocked (hall : s.AllBlocked)
    (hded : ∃ (T : Int) (t : FullThreadState), s.threads[T]? = some t ∧ 0 ≤ t.taskId) :
    isInDeadlock (s.deadlockScan java) = true := by
  have heq : (s.deadlockScan java).allTaskIds = (s.deadlockScan java).blockedTaskIds := by
    ext id
    rw [mem_allTaskIds, mem_blockedTaskIds]
    constructor
    · rintro ⟨T, t, hT, ht⟩
      exact ⟨⟨T, t, hT, ht, countsAsBlocked_of_isBlocked (hall T t hT)⟩,
        fun T' t' hT' _ => countsAsBlocked_of_isBlocked (hall T' t' hT')⟩
    · rintro ⟨⟨T, t, hT, ht, -⟩, -⟩
      exact ⟨T, t, hT, ht⟩
  obtain ⟨T, t, hT, ht⟩ := hded
  have hne : (s.deadlockScan java).allTaskIds ≠ ∅ :=
    Finset.ne_empty_of_mem (mem_allTaskIds.2 ⟨T, t, hT, ht, rfl⟩)
  unfold isInDeadlock
  rw [← heq]
  simpa using hne

/-- With every thread in `BUFN`, the two sets whose sizes are compared are equal when every pool
task has a dedicated thread, and their sizes differ otherwise. -/
theorem card_bufnWithPools_iff (hall : ∀ (T : Int) (t : FullThreadState),
    s.threads[T]? = some t → t.state = .bufn) :
    (s.deadlockScan java).allTaskIds.card = (s.deadlockScan java).bufnWithPools.card ↔
      s.PoolTasksDedicated := by
  have hbufn : ∀ (T : Int) (t : FullThreadState), s.threads[T]? = some t →
      isThreadBufnOrAbove t java = true := by
    intro T t hT
    unfold isThreadBufnOrAbove
    split_ifs
    · rfl
    · rw [hall T t hT]
  have hsub : (s.deadlockScan java).allTaskIds ⊆ (s.deadlockScan java).bufnWithPools := by
    intro id hid
    obtain ⟨T, t, hT, ht⟩ := mem_allTaskIds.1 hid
    exact mem_bufnWithPools.2 (.inl ⟨T, t, hT, ht, hbufn T t hT⟩)
  constructor
  · intro hcard T t hT id hw
    have heq := Finset.eq_of_subset_of_card_le hsub hcard.ge
    refine mem_allTaskIds.1 (?_ : id ∈ (s.deadlockScan java).allTaskIds)
    rw [heq, mem_bufnWithPools]
    exact .inr ⟨⟨T, t, hT, hw⟩, fun T' t' hT' _ => hbufn T' t' hT'⟩
  · intro hpool
    refine congrArg Finset.card (Finset.Subset.antisymm hsub fun id hid => ?_)
    rw [mem_allTaskIds]
    rcases mem_bufnWithPools.1 hid with ⟨T, t, hT, ht, -⟩ | ⟨⟨T, t, hT, hw⟩, -⟩
    · exact ⟨T, t, hT, ht⟩
    · exact hpool T t hT id hw

/-- A thread that is registered and not blocked stays so while others are woken. -/
theorem notBlocked_of_moves {x y : Snapshot} {U : Int} (hmoves : Moves {} U x y)
    (hx : ∃ e, x.entry = some e ∧ isBlocked e.state = false) :
    ∃ e, y.entry = some e ∧ isBlocked e.state = false := by
  refine Moves.preserves (P := fun x => ∃ e, x.entry = some e ∧ isBlocked e.state = false) ?_
    hmoves hx
  rintro x y ⟨e, he, hnb⟩ hmove
  cases hmove with
  | notified o z => exact ⟨e, he, hnb⟩
  | leave _ hst => exact ⟨_, rfl, by rcases hst with rfl | rfl | rfl <;> rfl⟩
  | stray => exact ⟨_, rfl, rfl⟩
  | restart => exact ⟨_, rfl, rfl⟩
  | free => exact ⟨_, rfl, rfl⟩
  | mark hm => exact hm.elim
  | erase h => exact h.elim
  | register _ h => exact h.elim
  | own h => exact h.elim
  | ownErase h => exact h.elim
  | sleep h => exact h.elim
  | wake h => exact h.elim

/-- The second half of the check keeps a thread that the first half has woken awake. -/
theorem notBlocked_split (hs : s.Keyed) {T : Int}
    (hT : ∃ t, s.threads[T]? = some t ∧ isBlocked t.state = false) :
    ∃ t, s.splitHighestPriorityBufn.threads[T]? = some t ∧ isBlocked t.state = false := by
  obtain ⟨t, ht, hnb⟩ := hT
  obtain ⟨e, he, hnb'⟩ := notBlocked_of_moves (moves_split (U := T) hs)
    ⟨t.registration, by rw [snapshot_of_some ht], hnb⟩
  obtain ⟨t', ht', rfl⟩ := Option.map_eq_some_iff.1 he
  exact ⟨t', ht', hnb'⟩

/-- A thread in `BLOCKED` is enough: it rolls back or retries. -/
theorem movesBlocked_of_blocked (hs : s.Keyed) (hdead : isInDeadlock (s.deadlockScan java) = true)
    (hblocked : ∃ (T : Int) (t : FullThreadState), s.threads[T]? = some t ∧ t.state = .blocked) :
    s.MovesBlocked java := by
  obtain ⟨p, -, hnone⟩ | ⟨p, T, t, t', hT, hst, ht', heq⟩ := rollBack_cases hs
  · obtain ⟨T, t, hT, hst⟩ := hblocked
    exact absurd hst (hnone T t hT)
  · have hwoken : ∃ t1, s.rollBackLowestPriorityBlocked.threads[T]? = some t1 ∧
        isBlocked t1.state = false := by
      refine ⟨t', ?_, by rcases ht' with rfl | rfl <;> rfl⟩
      rw [heq, threads_notifyAll, threads_setThread, if_pos rfl]
    have hafter : ∃ t1, (s.checkAndUpdateForBufn java).threads[T]? = some t1 ∧
        isBlocked t1.state = false := by
      unfold checkAndUpdateForBufn
      simp only [hdead, if_true]
      split_ifs
      · exact notBlocked_split (keyed_rollBack hs) hwoken
      · exact hwoken
    obtain ⟨t1, ht1, hnb⟩ := hafter
    exact ⟨T, t, t1, hT, isBlocked_iff.2 (.inl hst), ht1, hnb⟩

/-- **Deadlocks are broken** by `check_and_update_for_bufn`, with every thread blocked and a
dedicated one among them, exactly when a thread is in `BLOCKED` or every task of a pool thread has a
dedicated thread. -/
theorem deadlock_broken_iff (hs : system.Reachable s) (java : Option (ExtTreeSet Int))
    (hded : ∃ (T : Int) (t : FullThreadState), s.threads[T]? = some t ∧ 0 ≤ t.taskId)
    (hall : s.AllBlocked) :
    s.MovesBlocked java ↔
      (∃ (T : Int) (t : FullThreadState), s.threads[T]? = some t ∧ t.state = .blocked) ∨
        s.PoolTasksDedicated := by
  have hkeyed := keyed_invariant.reachable hs
  have hdead : isInDeadlock (s.deadlockScan java) = true := isInDeadlock_of_allBlocked hall hded
  by_cases hblocked : ∃ (T : Int) (t : FullThreadState), s.threads[T]? = some t ∧ t.state = .blocked
  · exact iff_of_true (movesBlocked_of_blocked hkeyed hdead hblocked) (.inl hblocked)
  · -- every thread is in BUFN, so the first half of the check changes no thread
    have hbufn : ∀ (T : Int) (t : FullThreadState), s.threads[T]? = some t → t.state = .bufn := by
      intro T t hT
      rcases isBlocked_iff.1 (hall T t hT) with h | h
      · exact absurd ⟨T, t, hT, h⟩ hblocked
      · exact h
    obtain ⟨p, heq, -⟩ | ⟨p, T, t, t', hT, hst, -⟩ := rollBack_cases hkeyed
    · have hcheck : s.checkAndUpdateForBufn java =
          if (s.deadlockScan java).allTaskIds.card = (s.deadlockScan java).bufnWithPools.card then
            ({ s with taskPriority := p } : Adaptor).splitHighestPriorityBufn
          else { s with taskPriority := p } := by
        unfold checkAndUpdateForBufn
        simp only [hdead, if_true, heq]
      by_cases hpool : s.PoolTasksDedicated
      · refine iff_of_true ?_ (.inr hpool)
        rw [if_pos ((card_bufnWithPools_iff hbufn).2 hpool)] at hcheck
        set s1 : Adaptor := { s with taskPriority := p }
        have hkeyed1 : s1.Keyed := keyed_of_threads_eq hkeyed rfl
        obtain ⟨q, -, hnone⟩ | ⟨q, T, t, hT, -, hsplit⟩ := split_cases hkeyed1
        · obtain ⟨T, t, hT, -⟩ := hded
          exact absurd (hbufn T t hT) (hnone T t hT)
        · refine ⟨T, t, { t with state := .splitThrow }, hT, hall T t hT, ?_, rfl⟩
          rw [hcheck, hsplit, threads_notifyAll, threads_transition, if_pos rfl]
          exact congrArg (Option.map _) hT
      · refine iff_of_false ?_ (not_or.2 ⟨hblocked, hpool⟩)
        rw [if_neg fun h => hpool ((card_bufnWithPools_iff hbufn).1 h)] at hcheck
        rintro ⟨T, t, t', hT, hb, hT', hnb⟩
        rw [hcheck] at hT'
        change s.threads[T]? = some t' at hT'
        rw [hT] at hT'
        cases hT'
        rw [hb] at hnb
        cases hnb
    · exact absurd ⟨T, t, hT, hst⟩ hblocked

/-- A dedicated thread of task `1`, and a pool thread that works on the tasks `2` and `3`, which
have no dedicated thread. Both fail an allocation, roll back and go to `BUFN`. -/
def poolTasksWithoutDedicatedThread : List Op := [
  .startDedicatedTaskThread 1 1, .poolThreadWorkingOnTasks false 2 {2, 3},
  .preAlloc 2 false true, .postAllocFailed 2 false true true false,
  .preAlloc 1 false true, .postAllocFailed 1 false true true false,
  .preAlloc 1 false true, .preAlloc 2 false true, .blockThreadUntilReady 2,
  .wake 1, .postAllocFailed 1 false true true false, .preAlloc 1 false true,
  .blockThreadUntilReady 1]

theorem allBlocked_of_toList {s : Adaptor}
    (h : (s.threads.toList.all fun kt => isBlocked kt.2.state) = true) : s.AllBlocked :=
  fun T t hT => List.all_eq_true.1 h (T, t) (ExtTreeMap.mem_toList_iff.2 hT)

theorem exists_dedicated_of_toList {s : Adaptor}
    (h : (s.threads.toList.any fun kt => 0 ≤ kt.2.taskId) = true) :
    ∃ (T : Int) (t : FullThreadState), s.threads[T]? = some t ∧ 0 ≤ t.taskId := by
  obtain ⟨⟨T, t⟩, hmem, ht⟩ := List.any_eq_true.1 h
  exact ⟨T, t, ExtTreeMap.mem_toList_iff.1 hmem, of_decide_eq_true ht⟩

/-- Both threads of `poolTasksWithoutDedicatedThread` are asleep for good: the check moves
neither. -/
theorem deadlock_not_broken :
    ∃ s, system.Reachable s ∧
      (∃ (T : Int) (t : FullThreadState), s.threads[T]? = some t ∧ 0 ≤ t.taskId) ∧
      s.AllBlocked ∧ ¬s.MovesBlocked none := by
  refine ⟨run {} poolTasksWithoutDedicatedThread, reachable_run reachable_new (by decide),
    exists_dedicated_of_toList (by decide), allBlocked_of_toList (by decide), ?_⟩
  rintro ⟨T, t, t', -, -, hT', hnb⟩
  have hafter : ((run {} poolTasksWithoutDedicatedThread).checkAndUpdateForBufn none).AllBlocked :=
    allBlocked_of_toList (by decide)
  rw [hafter T t' hT'] at hnb
  cases hnb

/-- One thread is blocked, and the other is removed in the middle of an allocation. -/
def lastThreadBlocked : List Op := [
  .startDedicatedTaskThread 1 1, .startDedicatedTaskThread 2 2,
  .preAlloc 1 false true, .postAllocFailed 1 false true true false,
  .preAlloc 2 false true, .removeThreadAssociation 2 2]

/-- The deadlock of `lastThreadBlocked` is broken. -/
theorem deadlock_broken_iff_lastThreadBlocked : (run {} lastThreadBlocked).MovesBlocked none := by
  refine (deadlock_broken_iff (reachable_run reachable_new (by decide)) none
    (exists_dedicated_of_toList (by decide)) (allBlocked_of_toList (by decide))).2 (.inl ?_)
  have h : ((run {} lastThreadBlocked).threads.toList.any fun kt => kt.2.state = .blocked) = true := by
    decide
  obtain ⟨⟨T, t⟩, hmem, ht⟩ := List.any_eq_true.1 h
  exact ⟨T, t, ExtTreeMap.mem_toList_iff.1 hmem, of_decide_eq_true ht⟩

end Adaptor

end SparkRapids.ResourceAdaptor
