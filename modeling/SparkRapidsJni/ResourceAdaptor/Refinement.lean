import SparkRapidsJni.ResourceAdaptor.Moves

/-!
# Every operation is a sequence of moves

The refinement of `Moves.lean`, operation by operation: what the operation of a thread does to the
thread itself, what registering and removing do to the thread they are called on, and, in
`Adaptor.exec_moves`, all operations together. `Op.rights` says what each of them may do.
-/

namespace SparkRapids.ResourceAdaptor

open Std (ExtTreeMap ExtTreeSet)
open Moves

namespace FullThreadState

variable (t : FullThreadState) (now : Nat)

@[simp] theorem registration_recordAndResetPendingRetryTime :
    (t.recordAndResetPendingRetryTime now).registration = t.registration := by
  unfold recordAndResetPendingRetryTime
  split_ifs <;> rfl

@[simp] theorem registration_beforeBlock : (t.beforeBlock now).registration = t.registration := by
  rw [beforeBlock, registration_recordAndResetPendingRetryTime]
  rfl

@[simp] theorem registration_afterBlock : (t.afterBlock now).registration = t.registration := rfl

@[simp] theorem registration_recordFailedRetryTime :
    (t.recordFailedRetryTime now).registration = t.registration := by
  have h := registration_recordAndResetPendingRetryTime t now
  unfold recordFailedRetryTime
  split_ifs
  · exact h
  · rfl

@[simp] theorem registration_throwOom (cpuClass gpuClass : String) :
    (t.throwOom now cpuClass gpuClass).2.registration = t.registration := by
  unfold throwOom checkBeforeOom
  by_cases h : t.numTimesRetried + 1 > 500
  · simp only [h, if_true, registration_recordFailedRetryTime]
  · simp only [h, if_false]
    split_ifs <;> exact registration_recordFailedRetryTime ..

@[simp] theorem registration_throwRetryOom :
    (t.throwRetryOom now).2.registration = t.registration := by
  rw [throwRetryOom, registration_throwOom]
  rfl

@[simp] theorem registration_throwSplitAndRetryOom :
    (t.throwSplitAndRetryOom now).2.registration = t.registration := by
  rw [throwSplitAndRetryOom, registration_throwOom]
  rfl

theorem registration_injectedRetryOom (cpu : Bool) :
    (t.injectedRetryOom cpu now).2.registration = t.registration := by
  unfold injectedRetryOom
  split_ifs <;> first | rfl | exact registration_recordFailedRetryTime ..

theorem registration_injectedCudfException :
    (t.injectedCudfException now).2.registration = t.registration := by
  unfold injectedCudfException
  split_ifs
  · exact registration_recordFailedRetryTime ..
  · rfl

theorem registration_injectedSplitAndRetryOom (cpu : Bool) :
    (t.injectedSplitAndRetryOom cpu now).2.registration = t.registration := by
  unfold injectedSplitAndRetryOom
  split_ifs <;> first | rfl | exact registration_recordFailedRetryTime ..

/-- Injected exceptions change counters and metrics only. -/
theorem registration_injectedException (cpu : Bool) :
    (t.injectedException cpu now).2.registration = t.registration := by
  have h1 := t.registration_injectedRetryOom now cpu
  unfold injectedException
  cases hr : t.injectedRetryOom cpu now with
  | mk e t1 =>
    rw [hr] at h1
    cases e with
    | some e => exact h1
    | none =>
      have h2 := t1.registration_injectedCudfException now
      dsimp only
      cases hc : t1.injectedCudfException now with
      | mk e t2 =>
        rw [hc] at h2
        cases e with
        | some e => exact h2.trans h1
        | none => exact ((t2.registration_injectedSplitAndRetryOom now cpu).trans h2).trans h1

end FullThreadState

/-! ### The rights of an operation -/

namespace Op

/-- The operation is the end of `U`'s allocation, and not of a recursive one. -/
def Finishes (U : Int) : Op → Prop
  | postAllocSuccess self _ wasRecursive _ => self = U ∧ wasRecursive = false
  | postAllocFailed self _ _ _ wasRecursive => self = U ∧ wasRecursive = false
  | _ => False

/-- The operation removes threads. -/
def Removes : Op → Prop
  | startDedicatedTaskThread _ _ | poolThreadFinishedForTasks _ _ | removeThreadAssociation _ _
  | taskDone _ | allDone => True
  | _ => False

/-- The operation registers the thread `U`, if it is not registered. -/
def Registers (U : Int) : Op → Prop
  | startDedicatedTaskThread threadId _ => threadId = U
  | poolThreadWorkingOnTasks _ threadId _ => threadId = U
  | _ => False

/-- What the thread that runs the operation goes on with after a wait. -/
def resume (s : Adaptor) : Op → Resume
  | preAlloc self isForCpu _ =>
    .preAlloc isForCpu ((s.threads[self]?.map FullThreadState.wakeCondition).getD 0)
  | wake self => (s.sleepers[self]?.map Sleeper.resume).getD .publicBlock
  | _ => .publicBlock

/-- What the operation may do to the thread `U`. -/
def rights (s : Adaptor) (U : Int) (op : Op) : Rights where
  own := op.self? = some U
  finish := op.Finishes U
  erase := op.Erases s U
  mark := op.Removes
  register := s.shuttingDown = false ∧ op.Registers U
  fresh := s.nextCondition
  resume := op.resume s

end Op

namespace Adaptor

variable {r : Rights} {s : Adaptor} {T U : Int} {t t' : FullThreadState}

/-! ### A thread's own operations -/

/-- A thread that is awake stays awake through moves of others. -/
theorem sleeper_none_of_moves {x y : Snapshot} (hr : ¬r.own) (h : Moves r U x y)
    (hx : x.sleeper = none) : y.sleeper = none := by
  refine preserves (P := fun x => x.sleeper = none) ?_ h hx
  intro x y hx hmove
  cases hmove with
  | notified o z => cases hx
  | leave _ _ hw => cases hx; cases hw; rfl
  | stray _ hw => cases hx; cases hw; rfl
  | restart _ hw => cases hx; cases hw; rfl
  | free => exact hx
  | mark _ _ hw => cases hx; cases hw; rfl
  | erase => exact hx
  | register => exact hx
  | own ho => exact absurd ho hr
  | ownErase ho => exact absurd ho hr
  | sleep ho => exact absurd ho hr
  | wake ho => exact absurd ho hr

theorem sleepers_checkAndUpdateForBufn (hs : s.Keyed) (java : Option (ExtTreeSet Int))
    (hT : s.sleepers[T]? = none) : (s.checkAndUpdateForBufn java).sleepers[T]? = none :=
  sleeper_none_of_moves (r := {}) (x := s.snapshot T) (y := (s.checkAndUpdateForBufn java).snapshot T)
    not_false (moves_checkAndUpdateForBufn hs java) hT

theorem keyed_setThread (hs : s.Keyed) (ht : t.threadId = T) : (s.setThread T t).Keyed := by
  intro V t' hV
  rw [threads_setThread] at hV
  split_ifs at hV with h
  · cases hV
    exact ht.trans h
  · exact hs V t' hV

theorem keyed_checkAndUpdateForBufn (hs : s.Keyed) (java : Option (ExtTreeSet Int)) :
    (s.checkAndUpdateForBufn java).Keyed :=
  keyed_of_moves hs fun _ => ⟨{}, moves_checkAndUpdateForBufn hs java⟩

/-- A thread that is awake writes its own state. -/
theorem moves_own (st : ThreadState) (k : Bool) (hT : s.threads[T]? = some t)
    (hsl : s.sleepers[T]? = none) (hown : T = U → r.own)
    (hreg : t'.registration = { t.registration with state := st, isCpuAlloc := k })
    (hstate : t.state ≠ .removeThrow) (hst : st ≠ .removeThrow)
    (halloc : t.state = .alloc ∨ t.state = .allocFree →
      (T = U → r.finish) ∨ st = t.state ∧ k = t.isCpuAlloc) :
    Moves r U (s.snapshot U) ((s.setThread T t').snapshot U) := by
  refine moves_setThread hT fun hU => ?_
  rw [← hU, hsl, hreg]
  refine single (.own (e := t.registration) (hown hU) hstate hst fun h => ?_)
  exact (halloc h).imp_left fun hf => hf hU

/-- The state before a turn of `block_thread_until_ready`, after which the thread is still awake. -/
structure Awake (s : Adaptor) (T : Int) : Prop where
  keyed : s.Keyed
  awake : s.sleepers[T]? = none

/-- A turn that ends in a wait leaves the thread blocked. -/
theorem blockIteration_wait {s' : Adaptor} (h : s.blockIteration T = (.wait, s')) :
    ∃ t, s'.threads[T]? = some t ∧ isBlocked t.state = true := by
  have before : ∀ (s : Adaptor) (t : FullThreadState), isBlocked t.state = true →
      ∃ t', (s.setThread T (t.beforeBlock s.now)).threads[T]? = some t' ∧
        isBlocked t'.state = true := by
    intro s t hb
    refine ⟨t.beforeBlock s.now, by rw [threads_setThread, if_pos rfl], ?_⟩
    rw [show (t.beforeBlock s.now).state = t.state from
      congrArg Registration.state (t.registration_beforeBlock s.now)]
    exact hb
  unfold blockIteration at h
  cases hT : s.threads[T]? with
  | none =>
    rw [hT] at h
    cases h
  | some t =>
    rw [hT] at h
    dsimp only at h
    cases hst : t.state <;> rw [hst] at h <;> dsimp only at h
    case blocked =>
      cases h
      exact before s t (by rw [hst]; rfl)
    case bufn =>
      cases h
      exact before s t (by rw [hst]; rfl)
    case bufnWait =>
      split at h
      · cases h
      · split_ifs at h with hb
        · cases h
          exact before _ _ hb
        · cases h
    all_goals cases h

theorem blockIteration_moves (h : s.Awake T) (hown : T = U → r.own) :
    Moves r U (s.snapshot U) ((s.blockIteration T).2.snapshot U) ∧
      (s.blockIteration T).2.Awake T := by
  obtain ⟨hs, hsl⟩ := h
  unfold blockIteration
  cases hT : s.threads[T]? with
  | none => exact ⟨refl _, hs, hsl⟩
  | some t =>
    have hid : t.threadId = T := hs T t hT
    have idle : ∀ t' : FullThreadState, t'.registration = t.registration →
        Moves r U (s.snapshot U) ((s.setThread T t').snapshot U) ∧ (s.setThread T t').Awake T := by
      intro t' hreg
      refine ⟨of_eq (snapshot_setThread_of_eq hT hreg U), keyed_setThread hs ?_, hsl⟩
      exact (congrArg Registration.threadId hreg).trans hid
    have own : ∀ (t' : FullThreadState) (st : ThreadState),
        t'.registration = { t.registration with state := st } → t.state ≠ .removeThrow →
        t.state ≠ .alloc → t.state ≠ .allocFree → st ≠ .removeThrow →
        Moves r U (s.snapshot U) ((s.setThread T t').snapshot U) ∧ (s.setThread T t').Awake T := by
      intro t' st hreg h1 h2 h3 hst
      refine ⟨moves_own st t.isCpuAlloc hT hsl hown hreg h1 hst fun h => ?_,
        keyed_setThread hs ?_, hsl⟩
      · exact absurd h (not_or.2 ⟨h2, h3⟩)
      · exact (congrArg Registration.threadId hreg).trans hid
    dsimp only
    cases hst : t.state with
    | blocked => exact idle _ (t.registration_beforeBlock _)
    | bufn => exact idle _ (t.registration_beforeBlock _)
    | running => exact ⟨refl _, hs, hsl⟩
    | alloc => exact ⟨refl _, hs, hsl⟩
    | allocFree => exact ⟨refl _, hs, hsl⟩
    | bufnThrow =>
      refine own _ .bufnWait ?_ (by simp [hst]) (by simp [hst]) (by simp [hst]) (by simp)
      rw [FullThreadState.registration_throwRetryOom,
        FullThreadState.registration_recordFailedRetryTime]
      rfl
    | splitThrow =>
      refine own _ .running ?_ (by simp [hst]) (by simp [hst]) (by simp [hst]) (by simp)
      rw [FullThreadState.registration_throwSplitAndRetryOom,
        FullThreadState.registration_recordFailedRetryTime]
      rfl
    | removeThrow =>
      refine ⟨?_, fun V t' hV => ?_, hsl⟩
      · rw [snapshot_eraseThread]
        split_ifs with hU
        · subst hU
          rw [snapshot_of_some hT, hsl]
          exact single (.ownErase (hown rfl) hst)
        · exact refl _
      · rw [threads_eraseThread] at hV
        split_ifs at hV
        exact hs V t' hV
    | bufnWait =>
      -- the thread goes to BUFN, and the check that follows may take it out again
      obtain ⟨h1, hs1, hsl1⟩ := own { t with state := .bufn } .bufn rfl
        (by simp [hst]) (by simp [hst]) (by simp [hst]) (by simp)
      rw [← transition_eq hT] at h1 hs1 hsl1
      have h2 := h1.trans (moves_checkAndUpdateForBufn hs1 none)
      have hs2 := keyed_checkAndUpdateForBufn hs1 none
      have hsl2 := sleepers_checkAndUpdateForBufn hs1 none hsl1
      dsimp only
      set s2 := (s.transition T .bufn).checkAndUpdateForBufn none
      cases hT2 : s2.threads[T]? with
      | none => exact ⟨h2, hs2, hsl2⟩
      | some t2 =>
        dsimp only
        split_ifs
        · have hreg := t2.registration_beforeBlock s2.now
          refine ⟨h2.trans (of_eq (snapshot_setThread_of_eq hT2 hreg U)),
            keyed_setThread hs2 ?_, hsl2⟩
          exact (congrArg Registration.threadId hreg).trans (hs2 T t2 hT2)
        · exact ⟨h2, hs2, hsl2⟩

theorem blockLoop_moves (turns : Nat) (h : s.Awake T) (hown : T = U → r.own) :
    Moves r U (s.snapshot U) ((s.blockLoop turns T).2.snapshot U) ∧
      (s.blockLoop turns T).2.Awake T := by
  induction turns generalizing s with
  | zero => exact ⟨refl _, h⟩
  | succ n ih =>
    have hstep := blockIteration_moves h hown
    unfold blockLoop
    cases hit : s.blockIteration T with
    | mk step s1 =>
      rw [hit] at hstep
      cases step with
      | again =>
        obtain ⟨hmoves, hawake⟩ := ih hstep.2
        exact ⟨hstep.1.trans hmoves, hawake⟩
      | _ => exact hstep

theorem blockLoop_wait {turns : Nat} {s' : Adaptor} (h : s.blockLoop turns T = (.wait, s')) :
    ∃ t, s'.threads[T]? = some t ∧ isBlocked t.state = true := by
  induction turns generalizing s with
  | zero => cases h
  | succ n ih =>
    unfold blockLoop at h
    cases hit : s.blockIteration T with
    | mk step s1 =>
      rw [hit] at h
      cases step with
      | again => exact ih h
      | wait =>
        cases h
        exact blockIteration_wait hit
      | done => cases h
      | threw => cases h

theorem moves_waitOnEntry {k : Resume} (h : s.Awake T)
    (hb : ∃ t, s.threads[T]? = some t ∧ isBlocked t.state = true)
    (hown : T = U → r.own ∧ r.resume = k) :
    Moves r U (s.snapshot U) ((s.waitOnEntry T k).2.snapshot U) := by
  obtain ⟨t, hT, hblocked⟩ := hb
  unfold waitOnEntry
  rw [hT]
  dsimp only
  rw [snapshot_sleep]
  split_ifs with hU
  · subst hU
    obtain ⟨ho, hk⟩ := hown rfl
    rw [snapshot_of_some hT, h.awake, ← hk]
    exact single (.sleep (e := t.registration) ho hblocked)
  · exact refl _

theorem moves_finishPreAlloc (cpu : Bool) (entry : Nat) (h : s.Awake T)
    (hown : T = U → r.own) :
    Moves r U (s.snapshot U) ((s.finishPreAlloc T cpu entry).2.snapshot U) := by
  unfold finishPreAlloc
  cases hT : s.threads[T]? with
  | none => exact refl _
  | some t =>
    dsimp only
    split_ifs with h1 h2
    · exact refl _
    · exact moves_own .alloc cpu hT h.awake hown rfl (by simp [h2]) (by simp)
        (by simp [h2])
    · exact refl _

theorem moves_blockThreadUntilReady {k : Resume} (h : s.Awake T)
    (hown : T = U → r.own ∧ r.resume = k) :
    Moves r U (s.snapshot U) ((s.blockThreadUntilReady T k).2.snapshot U) := by
  obtain ⟨hmoves, hawake⟩ := blockLoop_moves (r := r) (U := U) 2 h fun hU => (hown hU).1
  unfold blockThreadUntilReady
  cases hloop : s.blockLoop 2 T with
  | mk step s1 =>
    rw [hloop] at hmoves hawake
    cases step with
    | done =>
      refine hmoves.trans ?_
      cases k with
      | publicBlock => exact refl _
      | preAlloc cpu entry => exact moves_finishPreAlloc _ _ hawake fun hU => (hown hU).1
    | wait => exact hmoves.trans (moves_waitOnEntry hawake (blockLoop_wait hloop) hown)
    | threw e => exact hmoves
    | again => exact hmoves

theorem keyed_of_threads_eq {s' : Adaptor} (hs : s.Keyed) (h : s'.threads = s.threads) :
    s'.Keyed := by
  intro V t hV
  rw [h] at hV
  exact hs V t hV

theorem moves_wake (hs : s.Keyed)
    (hown : T = U → r.own ∧ ∀ z, s.sleepers[T]? = some z → r.resume = z.resume) :
    Moves r U (s.snapshot U) ((s.wake T).2.snapshot U) := by
  unfold wake
  cases hz : s.sleepers[T]? with
  | none => exact refl _
  | some z =>
    dsimp only
    set s1 : Adaptor := { s with sleepers := s.sleepers.erase T } with hs1
    have hsl : ∀ V, s1.sleepers[V]? = if T = V then none else s.sleepers[V]? :=
      fun V => ExtTreeMap.getElem?_erase_eq ..
    have hkeyed : s1.Keyed := keyed_of_threads_eq hs rfl
    have hawake : s1.Awake T := ⟨hkeyed, by rw [hsl, if_pos rfl]⟩
    -- the wait ends
    have hwake : Moves r U (s.snapshot U) (s1.snapshot U) := by
      by_cases hU : T = U
      · subst hU
        rw [snapshot, snapshot, hsl, if_pos rfl, hz]
        exact single (.wake (hown rfl).1 ((hown rfl).2 z hz))
      · exact of_eq (by rw [snapshot, snapshot, hsl, if_neg hU])
    have hown1 : T = U → r.own ∧ r.resume = z.resume := fun hU =>
      ⟨(hown hU).1, (hown hU).2 z hz⟩
    cases hT : s1.threads[T]? with
    | none => exact hwake
    | some t =>
      dsimp only
      split_ifs with hb
      · have hwait := moves_waitOnEntry hawake ⟨t, hT, hb⟩ hown1
        rw [waitOnEntry, hT] at hwait
        exact hwake.trans hwait
      · have hreg := t.registration_afterBlock s1.now
        have hset := snapshot_setThread_of_eq hT hreg U
        have hid : (t.afterBlock s1.now).threadId = T :=
          (congrArg Registration.threadId hreg).trans (hkeyed T t hT)
        refine hwake.trans ((of_eq hset).trans ?_)
        exact moves_blockThreadUntilReady ⟨keyed_setThread hkeyed hid, hawake.awake⟩ hown1

theorem moves_preAllocCore (cpu blocking : Bool) (h : s.Awake T)
    (hown : T = U → r.own ∧ ∀ t, s.threads[T]? = some t →
      r.resume = .preAlloc cpu t.wakeCondition) :
    Moves r U (s.snapshot U) ((s.preAllocCore T cpu blocking).2.snapshot U) := by
  unfold preAllocCore
  cases hT : s.threads[T]? with
  | none => exact refl _
  | some t =>
    dsimp only
    by_cases halloc : t.state = .alloc ∨ t.state = .allocFree
    · rw [if_pos halloc]
      split_ifs <;> exact refl _
    · rw [if_neg halloc]
      have hreg := t.registration_injectedException s.now cpu
      cases hinj : t.injectedException cpu s.now with
      | mk e t1 =>
        rw [hinj] at hreg
        have hset := snapshot_setThread_of_eq hT hreg U
        have hawake : (s.setThread T t1).Awake T :=
          ⟨keyed_setThread h.keyed ((congrArg Registration.threadId hreg).trans (h.keyed T t hT)),
            h.awake⟩
        have hcond : t1.wakeCondition = t.wakeCondition := congrArg Registration.condition hreg
        cases e with
        | some e => exact of_eq hset
        | none =>
          dsimp only
          refine (of_eq hset).trans ?_
          split_ifs
          · refine moves_blockThreadUntilReady hawake fun hU => ⟨(hown hU).1, ?_⟩
            rw [(hown hU).2 t hT, hcond]
          · exact moves_finishPreAlloc _ _ hawake fun hU => (hown hU).1

theorem moves_postAllocSuccessCore (cpu recur : Bool) (numBytes : Nat)
    (hsl : s.sleepers[T]? = none) (hown : T = U → r.own)
    (hfin : T = U → recur = false → r.finish) :
    Moves r U (s.snapshot U)
      ((s.postAllocSuccessCore T cpu recur numBytes).2.snapshot U) := by
  unfold postAllocSuccessCore
  cases hrec : recur with
  | true => exact refl _
  | false =>
    simp only [Bool.false_eq_true, if_false]
    cases hT : s.threads[T]? with
    | none => exact refl _
    | some t =>
      dsimp only
      split_ifs with halloc hmis hcpu
      · refine of_eq ?_
        exact snapshot_setThread_of_eq hT (by rfl) U
      · -- a CPU allocation has ended
        refine trans ?_ (moves_wakeNextHighestPriorityBlocked ..)
        exact moves_own .running false hT hsl hown rfl
          (by rcases halloc with h | h <;> simp [h]) (by simp) fun _ => .inl fun hU => hfin hU hrec
      · -- a GPU allocation has ended
        refine trans ?_ (moves_wakeNextHighestPriorityBlocked ..)
        exact moves_own (s := { s with
          gpuMemoryAllocatedBytes := s.gpuMemoryAllocatedBytes + numBytes }) .running false hT hsl
          hown rfl
          (by rcases halloc with h | h <;> simp [h]) (by simp) fun _ => .inl fun hU => hfin hU hrec
      · refine trans (of_eq ?_) (moves_wakeNextHighestPriorityBlocked ..)
        exact snapshot_setThread_of_eq hT (by rfl) U

/-- The thread's own switch after a failed allocation. -/
theorem postAllocFailedSwitch_moves (cpu isOom blocking recur : Bool) (h : s.Awake T)
    (hown : T = U → r.own) (hfin : T = U → recur = false → r.finish) :
    Moves r U (s.snapshot U)
        ((s.postAllocFailedSwitch T cpu isOom blocking recur).2.snapshot U) ∧
      (s.postAllocFailedSwitch T cpu isOom blocking recur).2.Keyed := by
  unfold postAllocFailedSwitch
  cases hT : s.threads[T]? with
  | none => exact ⟨refl _, h.keyed⟩
  | some t =>
    have hid : t.threadId = T := h.keyed T t hT
    dsimp only
    cases hrec : recur with
    | true => exact ⟨refl _, h.keyed⟩
    | false =>
      -- a thread that has failed moves itself
      have own : ∀ (t' : FullThreadState) (st : ThreadState),
          t'.registration = { t.registration with state := st } →
          t.state = .alloc ∨ t.state = .allocFree → st ≠ .removeThrow →
          Moves r U (s.snapshot U) ((s.setThread T t').snapshot U) ∧ (s.setThread T t').Keyed := by
        intro t' st hreg halloc hst
        refine ⟨moves_own st t.isCpuAlloc hT h.awake hown hreg ?_ hst fun _ =>
          .inl fun hU => hfin hU hrec, ?_⟩
        · rcases halloc with h | h <;> simp [h]
        · exact keyed_setThread h.keyed ((congrArg Registration.threadId hreg).trans hid)
      simp only [Bool.false_eq_true, if_false]
      by_cases hmis : t.isCpuAlloc ≠ cpu
      · rw [if_pos hmis]
        exact ⟨refl _, h.keyed⟩
      · rw [if_neg hmis]
        cases hst : t.state <;> dsimp only
        case allocFree => exact own _ .running rfl (.inr hst) (by simp)
        case alloc =>
          split_ifs
          · obtain ⟨hmoves, hkeyed⟩ := own
              { t with isRetryAllocBeforeBufn := false, state := .bufnThrow } .bufnThrow rfl
              (.inl hst) (by simp)
            refine ⟨hmoves.trans ?_, keyed_of_threads_eq hkeyed rfl⟩
            rw [snapshot_notifyAll]
            exact moves_notify ..
          · exact own _ .blocked rfl (.inl hst) (by simp)
          · exact own _ .running rfl (.inl hst) (by simp)
        all_goals exact ⟨refl _, h.keyed⟩

theorem moves_postAllocFailedCore (cpu isOom blocking recur : Bool) (h : s.Awake T)
    (hown : T = U → r.own) (hfin : T = U → recur = false → r.finish) :
    Moves r U (s.snapshot U)
      ((s.postAllocFailedCore T cpu isOom blocking recur).2.snapshot U) := by
  obtain ⟨hmoves, hkeyed⟩ :=
    postAllocFailedSwitch_moves cpu isOom blocking recur h hown hfin
  unfold postAllocFailedCore
  cases hsw : s.postAllocFailedSwitch T cpu isOom blocking recur with
  | mk res s1 =>
    rw [hsw] at hmoves hkeyed
    cases res with
    | error e => exact hmoves
    | ok retry => exact hmoves.trans (moves_checkAndUpdateForBufn hkeyed none)

/-- What `dealloc_core` does to the entries before it wakes a thread. -/
theorem moves_deallocCore (s : Adaptor) (T : Int) (cpu : Bool) (numBytes : Nat) :
    Moves r U (s.snapshot U) ((s.deallocCore T cpu numBytes).snapshot U) := by
  have mark : ∀ s : Adaptor, Moves r U (s.snapshot U)
      (({ s with threads := s.threads.map fun _ t =>
        if t.threadId ≠ T ∧ t.state = .alloc ∧ cpu = t.isCpuAlloc then
          { t with state := .allocFree }
        else t } : Adaptor).wakeNextHighestPriorityBlocked cpu |>.snapshot U) := by
    intro s
    refine trans ?_ (moves_wakeNextHighestPriorityBlocked ..)
    rw [snapshot, snapshot, ExtTreeMap.getElem?_map]
    cases s.threads[U]? with
    | none => exact refl _
    | some t =>
      simp only [Option.map_some]
      split_ifs with hfree
      · exact single (.free (e := t.registration) hfree.2.1)
      · exact refl _
  unfold deallocCore
  dsimp only
  cases hT : s.threads[T]? with
  | none => exact mark s
  | some t =>
    dsimp only
    split_ifs
    · exact mark s
    all_goals
      refine trans (of_eq ?_) (mark _)
      exact snapshot_setThread_of_eq
        (s := { s with gpuMemoryAllocatedBytes := s.gpuMemoryAllocatedBytes - numBytes }) hT (by rfl) U

/-! ### Registering and removing -/

theorem moves_emplaceThread {taskId : Int} {isForShuffle : Bool} (hT : s.threads[T]? = none)
    (hreg : T = U → r.register ∧ r.fresh = s.nextCondition) :
    Moves r U (s.snapshot U) ((s.emplaceThread T taskId isForShuffle).snapshot U) := by
  unfold emplaceThread
  rw [snapshot_setThread]
  split_ifs with hU
  · subst hU
    obtain ⟨hr, hfresh⟩ := hreg rfl
    rw [snapshot_of_none hT]
    have h := Move.register (U := T) taskId (z := s.sleepers[T]?) hr
    rw [hfresh] at h
    exact single h
  · exact refl _

theorem moves_startDedicatedTaskThread {taskId : Int}
    (hr : r = (Op.startDedicatedTaskThread T taskId).rights s U) :
    Moves r U (s.snapshot U) ((s.startDedicatedTaskThread T taskId).2.snapshot U) := by
  obtain ⟨-, e, heq⟩ | ⟨hopen, hcases⟩ := startDedicatedTaskThread_cases s T taskId
  · rw [heq]
    exact refl _
  have hfixup : Moves r U (s.snapshot U) ((s.fixup T taskId).snapshot U) := by
    obtain ⟨heq, -⟩ | ⟨t, hT, h0, hne, heq⟩ := fixup_cases s T taskId
    · rw [heq]
      exact refl _
    · rw [heq]
      refine moves_removeThreadAssociation s (fun _ => ?_) fun hU t' ht' hgone => ?_
      · rw [hr]
        trivial
      · rw [hT] at ht'
        cases ht'
        rw [hr]
        exact ⟨t, hU ▸ hT, by simp [Op.removedEntry, hU, hopen, h0, hne, hgone]⟩
  refine hfixup.trans ?_
  rcases hcases with ⟨hT, heq⟩ | ⟨t, -, -, -, heq⟩ | ⟨t, e, -, heq⟩
  · rw [heq]
    refine moves_emplaceThread hT fun hU => ?_
    rw [hr]
    exact ⟨⟨hopen, hU⟩, (congrArg Counters.nextCondition (counters_fixup s T taskId)).symm⟩
  · rw [heq]
    exact refl _
  · rw [heq]
    exact refl _

theorem snapshot_addPoolTasks {taskIds : ExtTreeSet Int} (hT : s.threads[T]? = some t) :
    (s.addPoolTasks T t taskIds).snapshot U = s.snapshot U := by
  have hc : (s.checkpointMetrics T t).threads[T]? = some t.checkpointed := by
    rw [threads_checkpointMetrics, if_pos rfl]
  rw [addPoolTasks, snapshot_setThread_of_eq hc (by rfl), snapshot_checkpointMetrics hT]

theorem moves_poolThreadWorkingOnTasks {isForShuffle : Bool} {taskIds : ExtTreeSet Int}
    (hr : r = (Op.poolThreadWorkingOnTasks isForShuffle T taskIds).rights s U) :
    Moves r U (s.snapshot U) ((s.poolThreadWorkingOnTasks isForShuffle T taskIds).2.snapshot U) := by
  obtain ⟨e, heq⟩ | ⟨hopen, ⟨hT, heq⟩ | ⟨t, hT, -, -, heq⟩⟩ :=
    poolThreadWorkingOnTasks_cases s isForShuffle T taskIds
  · rw [heq]
    exact refl _
  · rw [heq]
    have hnew : (s.emplaceThread T (-1) isForShuffle).threads[T]? =
        some (s.newThread T (-1) isForShuffle) := by
      rw [threads_emplaceThread, if_pos rfl]
    dsimp only
    rw [snapshot_addPoolTasks hnew]
    refine moves_emplaceThread hT fun hU => ?_
    rw [hr]
    exact ⟨⟨hopen, hU⟩, rfl⟩
  · rw [heq]
    exact of_eq (snapshot_addPoolTasks hT)

theorem moves_poolThreadFinishedForTasks {taskIds : ExtTreeSet Int}
    (hr : r = (Op.poolThreadFinishedForTasks T taskIds).rights s U) :
    Moves r U (s.snapshot U) ((s.poolThreadFinishedForTasks T taskIds).2.snapshot U) := by
  unfold poolThreadFinishedForTasks
  by_cases hdown : s.shuttingDown = true
  · rw [if_pos hdown]
    exact refl _
  · rw [if_neg hdown]
    have hopen : s.shuttingDown = false := by simpa using hdown
    cases hT : s.threads[T]? with
    | none => exact refl _
    | some t =>
      dsimp only
      set poolTaskIds := taskIds.toList.foldl (fun ids id => ids.erase id) t.poolTaskIds with hpool
      set t1 : FullThreadState := { t.checkpointed with poolTaskIds } with ht1
      have hc : (s.checkpointMetrics T t).threads[T]? = some t.checkpointed := by
        rw [threads_checkpointMetrics, if_pos rfl]
      have hsame : ((s.checkpointMetrics T t).setThread T t1).snapshot U = s.snapshot U := by
        rw [snapshot_setThread_of_eq hc (by rfl), snapshot_checkpointMetrics hT]
      by_cases hempty : poolTaskIds.isEmpty = true
      · rw [if_pos hempty, ← hsame]
        set s1 := (s.checkpointMetrics T t).setThread T t1
        -- the thread has no task left
        have hremove : Moves r U (s1.snapshot U)
            ((s1.removeThreadAssociation T (-1)).2.snapshot U) := by
          refine moves_removeThreadAssociation s1 (fun _ => ?_) fun hU t' ht' hgone => ?_
          · rw [hr]
            trivial
          · rw [threads_setThread, if_pos rfl] at ht'
            obtain rfl : t1 = t' := by simpa using ht'
            rw [hr]
            refine ⟨t, hU ▸ hT, ?_⟩
            rw [Op.removedEntry, if_pos ⟨hU, hopen⟩, FullThreadState.finishedForTasks]
            simp only [← hpool, hempty, if_true]
            exact hgone
        dsimp only
        split_ifs
        · exact hremove.trans (moves_wakeUpThreadsAfterTaskFinishes _)
        · exact hremove
      · rw [if_neg hempty]
        exact of_eq hsame

theorem moves_taskDone {taskId : Int} (hr : r = (Op.taskDone taskId).rights s U) :
    Moves r U (s.snapshot U) ((s.taskDone taskId).snapshot U) := by
  have hmark : r.mark := by
    rw [hr]
    trivial
  rw [taskDone_eq]
  dsimp only
  set listed := (s.listed taskId).toList
  have hmem : U ∈ listed ↔ U ∈ s.listed taskId := ExtTreeSet.mem_toList
  have hnodup : listed.Nodup := ExtTreeSet.nodup_toList _
  have hthreads := threads_forThreads
    (f := fun s T => s.removeThreadAssociation T taskId) (fun s T V =>
      threads_removeThreadAssociation s T taskId V) s hnodup
  have hfirst : Moves r U (s.snapshot U)
      ((forThreads (fun s T => s.removeThreadAssociation T taskId) listed s).2.snapshot U) := by
    refine moves_forThreads (fun s T V => threads_removeThreadAssociation s T taskId V)
      (fun s T he => moves_removeThreadAssociation s (fun _ => hmark) he) s hnodup ?_
    intro hU t ht hgone
    rw [hr]
    exact ⟨t, ht, by rw [Op.removedEntry, if_pos (hmem.1 hU), hgone]; rfl⟩
  set s1 := (forThreads (fun s T => s.removeThreadAssociation T taskId) listed s).2
  -- the second loop goes over the threads the first has left
  have hsecond : Moves r U (s1.snapshot U)
      ((forThreads (removeTaskFromPool taskId) s1.threads.keys s1).2.snapshot U) := by
    refine moves_forThreads (fun s T V => threads_removeTaskFromPool s T taskId V)
      (fun s T he => moves_removeTaskFromPool s (fun _ => hmark) he) s1
      ExtTreeMap.nodup_keys ?_
    intro _ t1 ht1 hgone
    rw [hr]
    rw [hthreads] at ht1
    -- what the second loop removes, seen from before the first
    by_cases hU : U ∈ listed
    · rw [if_pos hU] at ht1
      obtain ⟨t, ht, htr⟩ := Option.bind_eq_some_iff.1 ht1
      refine ⟨t, ht, ?_⟩
      rw [Op.removedEntry, if_pos (hmem.1 hU), htr]
      exact hgone
    · rw [if_neg hU] at ht1
      refine ⟨t1, ht1, ?_⟩
      rw [Op.removedEntry, if_neg fun h => hU (hmem.2 h)]
      exact hgone
  refine (hfirst.trans hsecond).trans ?_
  split_ifs
  · exact moves_wakeUpThreadsAfterTaskFinishes _
  · exact refl _

theorem moves_allDone (hr : r = Op.allDone.rights s U) :
    Moves r U (s.snapshot U) (s.allDone.snapshot U) := by
  have hmark : r.mark := by
    rw [hr]
    trivial
  refine moves_forThreads (fun s T V => threads_removeThreadAssociation s T (-1) V)
    (fun s T he => moves_removeThreadAssociation s (fun _ => hmark) he) s
    ExtTreeMap.nodup_keys ?_
  intro _ t ht hgone
  rw [hr]
  exact ⟨t, ht, hgone⟩

/-! ### All operations -/

/-- Resetting a metric of the threads of a task moves no thread. -/
theorem snapshot_getAndResetMetric (s : Adaptor) (taskId : Int) (metric : Metric) (U : Int) :
    (s.getAndResetMetric taskId metric).2.snapshot U = s.snapshot U := by
  have hall : ∀ kt ∈ s.threadsOfTask taskId, s.threads[kt.1]? = some kt.2 := by
    intro kt hkt
    unfold threadsOfTask at hkt
    split at hkt
    · cases hkt
    · obtain ⟨T, -, hT⟩ := List.mem_filterMap.1 hkt
      obtain ⟨t, ht, rfl⟩ := Option.map_eq_some_iff.1 hT
      exact ht
  have hfold : ∀ (kts : List (Int × FullThreadState)) (s1 : Adaptor),
      (∀ kt ∈ kts, s.threads[kt.1]? = some kt.2) → s1.snapshot U = s.snapshot U →
      (kts.foldl (fun s kt => s.setThread kt.1
        { kt.2 with metrics := metric.reset kt.2.metrics }) s1).snapshot U = s.snapshot U := by
    intro kts
    induction kts with
    | nil => exact fun s1 _ h => h
    | cons kt rest ih =>
      intro s1 hkts h
      refine ih _ (fun kt' hkt' => hkts kt' (.tail _ hkt')) ?_
      have hkt := hkts kt (.head _)
      rw [snapshot_setThread]
      split_ifs with hU
      · have hsl : s1.sleepers[U]? = s.sleepers[U]? := congrArg Snapshot.sleeper h
        rw [hsl, snapshot_of_some (hU ▸ hkt)]
        rfl
      · exact h
  exact hfold _ s hall rfl

theorem snapshot_updateThread (s : Adaptor) (T : Int) {f : FullThreadState → FullThreadState}
    (hf : ∀ t, (f t).registration = t.registration) (U : Int) :
    (s.updateThread T f).snapshot U = s.snapshot U := by
  unfold updateThread
  cases hT : s.threads[T]? with
  | none => rfl
  | some t => exact snapshot_setThread_of_eq hT (hf t) U

theorem snapshot_forceException (s : Adaptor) (T : Int)
    {f : FullThreadState → Except Exn FullThreadState}
    (hf : ∀ t t', f t = .ok t' → t'.registration = t.registration) (U : Int) :
    (s.forceException T f).2.snapshot U = s.snapshot U := by
  unfold forceException
  cases hT : s.threads[T]? with
  | none => rfl
  | some t =>
    dsimp only
    cases hft : f t with
    | error e => rfl
    | ok t' => exact snapshot_setThread_of_eq hT (hf t t' hft) U

/-- Injecting an out-of-memory exception changes nothing else of the thread. -/
theorem registration_of_init_ok {o : Except Exn OomStateType} {t t' : FullThreadState}
    {f : OomStateType → FullThreadState} (hf : ∀ o, (f o).registration = t.registration)
    (h : o.map f = .ok t') : t'.registration = t.registration := by
  cases o with
  | error e => cases h
  | ok o =>
    cases h
    exact hf o

/-- **Refinement.** Every operation is, for every thread, a sequence of moves within its rights. -/
theorem exec_moves {op : Op} (hs : s.Keyed) (hen : s.enabled op) (U : Int) :
    Moves (op.rights s U) U (s.snapshot U) ((s.exec op).2.snapshot U) := by
  have hself : ∀ T, op.self? = some T → T = U → (op.rights s U).own := by
    rintro T h rfl
    exact h
  have init_ok := @registration_of_init_ok
  -- one case for each operation: those that change no entry are not moves at all
  cases op with
  | startDedicatedTaskThread T taskId => exact moves_startDedicatedTaskThread rfl
  | startRetryBlock T => exact of_eq (snapshot_updateThread s T (fun _ => by rfl) U)
  | endRetryBlock T => exact of_eq (snapshot_updateThread s T (fun _ => by rfl) U)
  | isWorkingOnTaskAsPoolThread T => exact refl _
  | poolThreadWorkingOnTasks isForShuffle T taskIds => exact moves_poolThreadWorkingOnTasks rfl
  | poolThreadFinishedForTasks T taskIds => exact moves_poolThreadFinishedForTasks rfl
  | removeThreadAssociation T taskId =>
    have hremove : Moves ((Op.removeThreadAssociation T taskId).rights s U) U (s.snapshot U)
        ((s.removeThreadAssociation T taskId).2.snapshot U) := by
      refine moves_removeThreadAssociation s (fun _ => trivial) fun hU t ht hgone => ?_
      exact ⟨t, hU ▸ ht, by rw [Op.removedEntry, if_pos hU, hgone]⟩
    dsimp only [exec]
    split_ifs
    · exact hremove.trans (moves_wakeUpThreadsAfterTaskFinishes _)
    · exact hremove
  | taskDone taskId => exact moves_taskDone rfl
  | waitingOnPoolStatusChanged T poolBlocked =>
    dsimp only [exec]
    unfold waitingOnPoolStatusChanged
    cases hT : s.threads[T]? with
    | none => exact refl _
    | some t =>
      dsimp only
      split_ifs
      · exact refl _
      · exact of_eq (snapshot_setThread_of_eq hT (by rfl) U)
  | allDone => exact moves_allDone rfl
  | forceRetryOom T numOoms oomFilter skipCount =>
    refine of_eq (snapshot_forceException s T (fun t t' ht' => ?_) U)
    exact init_ok (fun _ => by rfl) ht'
  | forceSplitAndRetryOom T numOoms oomFilter skipCount =>
    refine of_eq (snapshot_forceException s T (fun t t' ht' => ?_) U)
    exact init_ok (fun _ => by rfl) ht'
  | forceCudfException T numTimes =>
    refine of_eq (snapshot_forceException s T (fun t t' ht' => ?_) U)
    cases ht'
    rfl
  | getAndResetMetric taskId metric =>
    exact of_eq (snapshot_getAndResetMetric s taskId metric U)
  | getMetric taskId metric => exact refl _
  | getTotalBlockedOrLost taskId => exact refl _
  | removeTaskMetrics taskId => exact refl _
  | checkAndBreakDeadlocks ids => exact moves_checkAndUpdateForBufn hs (some ids)
  | getThreadStateAsInt T => exact refl _
  | preAlloc T cpu blocking =>
    refine moves_preAllocCore cpu blocking ⟨hs, hen.awake rfl rfl⟩ fun hU => ⟨hself T rfl hU, ?_⟩
    intro t ht
    change Op.resume s (.preAlloc T cpu blocking) = _
    rw [Op.resume, ht]
    rfl
  | postAllocSuccess T cpu recur numBytes =>
    exact moves_postAllocSuccessCore cpu recur numBytes (hen.awake rfl rfl) (hself T rfl)
      fun hU hrec => ⟨hU, hrec⟩
  | postAllocFailed T cpu isOom blocking recur =>
    exact moves_postAllocFailedCore cpu isOom blocking recur ⟨hs, hen.awake rfl rfl⟩
      (hself T rfl) fun hU hrec => ⟨hU, hrec⟩
  | dealloc T cpu numBytes => exact moves_deallocCore s T cpu numBytes
  | spillRangeStart T => exact of_eq (snapshot_updateThread s T (fun _ => by rfl) U)
  | spillRangeDone T => exact of_eq (snapshot_updateThread s T (fun _ => by rfl) U)
  | blockThreadUntilReady T =>
    exact moves_blockThreadUntilReady ⟨hs, hen.awake rfl rfl⟩ fun hU => ⟨hself T rfl hU, rfl⟩
  | wake T =>
    refine moves_wake hs fun hU => ⟨hself T rfl hU, fun z hz => ?_⟩
    change Op.resume s (.wake T) = _
    rw [Op.resume, hz]
    rfl
  | getTaskPriority attemptId => exact refl _
  | priorityTaskDone attemptId => exact refl _
  | tick nanos => exact refl _

/-- The entries stay keyed in every run. -/
theorem keyed_invariant : system.Invariant Keyed where
  init s hs := by
    intro T t hT
    have hnone : s.threads = ∅ := congrArg Adaptor.threads hs
    rw [hnone, ExtTreeMap.getElem?_empty] at hT
    cases hT
  step s op s' hs hstep := by
    obtain ⟨hen, -, rfl⟩ := hstep
    exact keyed_of_moves hs fun U => ⟨_, exec_moves hs hen U⟩

end Adaptor

end SparkRapids.ResourceAdaptor
