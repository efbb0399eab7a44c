import SparkRapidsJni.ResourceAdaptor.AllocFree
import SparkRapidsJni.ResourceAdaptor.WakeUp

/-!
# The allocation protocol

An allocation of a thread is a pair of brackets: `pre_alloc_core` opens it, and `post_alloc_success`
or `post_alloc_failed` closes it. Inside, the thread may allocate again (spilling does), and such an
inner allocation is recursive: `pre_alloc_core` returns `true` and the state is left alone.

`bracketed` is the adaptor with callers that keep to this. It records for every thread the
allocations it is inside of, innermost first. The invariant `Inside` ties these to the state of the
thread: outside of all allocations the thread is not in `THREAD_ALLOC` or `THREAD_ALLOC_FREE`
(`Snapshot.Quiet`), and inside it is, with the kind of memory of the outermost allocation, which is
the only one that is not recursive. Other threads keep this up by having no rights over the thread
that could break it, and the thread itself by the analysis of its own operations
(`blockThreadUntilReady_ends`). What the invariant excludes are the internal errors of the protocol
(`protocol_errors_unreachable`).
-/

namespace SparkRapids.ResourceAdaptor

open Std (ExtTreeMap ExtTreeSet)
open FullThreadState

/-- The thread is not in the middle of an allocation. -/
def Snapshot.Quiet (x : Snapshot) : Prop :=
  ∀ e, x.entry = some e → e.state ≠ .alloc ∧ e.state ≠ .allocFree

/-- The thread is registered and in the middle of an allocation of the kind `k`. -/
def Snapshot.Midway (k : Bool) (x : Snapshot) : Prop :=
  ∃ e, x.entry = some e ∧ (e.state = .alloc ∨ e.state = .allocFree) ∧ e.isCpuAlloc = k

/-- Only its own operations bring a thread into an allocation. -/
theorem Moves.quiet {r : Rights} {U : Int} {x y : Snapshot} (hown : ¬r.own) (hmoves : Moves r U x y)
    (hx : x.Quiet) : y.Quiet := by
  refine Moves.preserves (P := Snapshot.Quiet) ?_ hmoves hx
  intro x y hx hmove e' he'
  cases hmove with
  | notified o z => exact hx e' he'
  | leave _ hst =>
    cases he'
    rcases hst with rfl | rfl | rfl <;> exact ⟨by simp, by simp⟩
  | stray => cases he'; exact ⟨by simp, by simp⟩
  | restart => cases he'; exact ⟨by simp, by simp⟩
  | free hst => exact absurd hst (hx _ rfl).1
  | mark => cases he'; exact ⟨by simp, by simp⟩
  | erase => cases he'
  | register => cases he'; exact ⟨by simp, by simp⟩
  | own ho => exact absurd ho hown
  | ownErase ho => exact absurd ho hown
  | sleep ho => exact absurd ho hown
  | wake ho => exact absurd ho hown

/-- Nothing but its own end takes a registered thread out of an allocation. -/
theorem Moves.midway {r : Rights} {U : Int} {x y : Snapshot} {k : Bool} (hfinish : ¬r.finish)
    (herase : ¬r.erase) (hself : U ≠ -1) (hmoves : Moves r U x y) (hx : x.Midway k) :
    y.Midway k := by
  refine Moves.preserves (P := Snapshot.Midway k) ?_ hmoves hx
  rintro x y ⟨e, he, hst, hk⟩ hmove
  have not_blocked : isBlocked e.state ≠ true := by
    rcases hst with h | h <;> rw [h] <;> simp [isBlocked]
  cases hmove with
  | notified o z => exact ⟨e, he, hst, hk⟩
  | leave hb => cases he; exact absurd hb not_blocked
  | stray hU => exact absurd hU hself
  | restart hst' =>
    cases he
    rcases hst with h | h <;> rw [h] at hst' <;> rcases hst' with h' | h' <;> cases h'
  | free => cases he; exact ⟨_, rfl, .inr rfl, hk⟩
  | mark _ hb => cases he; exact absurd hb not_blocked
  | erase h => exact absurd h herase
  | register => cases he
  | own _ _ _ halloc =>
    cases he
    rcases halloc hst with hf | ⟨rfl, rfl⟩
    · exact absurd hf hfinish
    · exact ⟨_, rfl, hst, hk⟩
  | ownErase _ hst' =>
    cases he
    rcases hst with h | h <;> rw [h] at hst' <;> cases hst'
  | sleep _ hb => cases he; exact absurd hb not_blocked
  | wake => exact ⟨e, he, hst, hk⟩

/-- A thread that is not registered stays so while it may not be registered. -/
theorem Moves.unregistered {r : Rights} {U : Int} {x y : Snapshot} (hregister : ¬r.register)
    (hmoves : Moves r U x y) (hx : x.entry = none) : y.entry = none := by
  refine Moves.preserves (P := fun x => x.entry = none) ?_ hmoves hx
  intro x y hx hmove
  cases hmove with
  | notified o z => exact hx
  | register _ h => exact absurd h hregister
  | wake => exact hx
  | erase => rfl
  | ownErase => rfl
  | _ => cases hx

namespace Adaptor

variable {s s' : Adaptor} {T U : Int} {t : FullThreadState}

/-! ### Failed allocations that do not block -/

/-- **A failed allocation that must not block** lets the thread run on, in every state,
exactly when it ends the allocation the thread is in and the thread does not run out of memory on
an allocation that the deadlock breaker let it retry. -/
theorem nonblocking_failure_runs_iff (hT : s.threads[T]? = some t)
    (hst : t.state = .alloc ∨ t.state = .allocFree) (isForCpu isOom : Bool) :
    (∃ t', (s.postAllocFailedSwitch T isForCpu isOom false false).2.threads[T]? = some t' ∧
        t'.state = .running) ↔
      t.isCpuAlloc = isForCpu ∧
        ¬(t.state = .alloc ∧ isOom = true ∧ t.isRetryAllocBeforeBufn = true) := by
  have hset : ∀ t', (s.setThread T t').threads[T]? = some t' :=
    fun t' => by rw [threads_setThread, if_pos rfl]
  unfold postAllocFailedSwitch
  simp only [hT, Bool.false_eq_true, if_false]
  by_cases hkind : t.isCpuAlloc = isForCpu
  · rw [if_neg (not_not.2 hkind)]
    rcases hst with hst | hst
    · simp only [hst, Bool.and_false, Bool.false_eq_true, if_false, Bool.and_eq_true]
      by_cases hretry : isOom = true ∧ t.isRetryAllocBeforeBufn = true
      · -- the flag sends the thread to roll back, whether or not the allocation blocks
        rw [if_pos hretry]
        refine iff_of_false ?_ fun h => h.2 ⟨trivial, hretry⟩
        rintro ⟨t', ht', hrunning⟩
        rw [threads_notifyAll, hset] at ht'
        cases ht'
        cases hrunning
      · rw [if_neg hretry]
        exact iff_of_true ⟨_, hset _, rfl⟩ ⟨hkind, fun h => hretry h.2⟩
    · simp only [hst]
      exact iff_of_true ⟨_, hset _, rfl⟩ ⟨hkind, fun h => by cases h.1⟩
  · rw [if_pos hkind]
    refine iff_of_false ?_ fun h => hkind h.1
    rintro ⟨t', ht', hrunning⟩
    rw [hT] at ht'
    cases ht'
    rcases hst with h | h <;> rw [h] at hrunning <;> cases hrunning

/-- The thread starts an allocation of CPU memory that does not block. -/
def nonblockingAlloc : List Op := [.startDedicatedTaskThread 1 1, .preAlloc 1 true false]

theorem nonblocking_failure_runs_nonblockingAlloc :
    ∃ t', ((run {} nonblockingAlloc).postAllocFailedSwitch 1 true true false false).2.threads[
      (1 : Int)]? = some t' ∧ t'.state = .running := by
  have hentry : (run {} nonblockingAlloc).threads[(1 : Int)]?.any (fun t =>
      decide (t.state = .alloc ∧ t.isCpuAlloc = true ∧ t.isRetryAllocBeforeBufn = false)) = true := by
    decide
  obtain ⟨t, hT, ht⟩ := (Option.any_eq_true _ _).1 hentry
  obtain ⟨hst, hkind, hflag⟩ := of_decide_eq_true ht
  refine (nonblocking_failure_runs_iff hT (.inl hst) true true).2 ⟨hkind, ?_⟩
  rintro ⟨-, -, h⟩
  rw [hflag] at h
  cases h

/-- The thread is the last one blocked and may retry its allocation, which then fails for another
reason than memory. After that it starts an allocation that does not block. -/
def retryThenNonblockingAlloc : List Op := [
  .startDedicatedTaskThread 1 1, .preAlloc 1 true true, .postAllocFailed 1 true true true false,
  .preAlloc 1 true true, .postAllocFailed 1 true false true false, .preAlloc 1 true false]

/-- When it runs out of memory, the thread is sent to roll back. -/
theorem nonblocking_failure_rolls_back :
    ∃ s, system.Reachable s ∧ ∃ t, s.threads[(1 : Int)]? = some t ∧ t.state = .alloc ∧
      t.isCpuAlloc = true ∧
      ¬∃ t', (s.postAllocFailedSwitch 1 true true false false).2.threads[(1 : Int)]? = some t' ∧
        t'.state = .running := by
  refine ⟨run {} retryThenNonblockingAlloc, reachable_run reachable_new (by decide), ?_⟩
  have hentry : (run {} retryThenNonblockingAlloc).threads[(1 : Int)]?.any (fun t =>
      decide (t.state = .alloc ∧ t.isCpuAlloc = true)) = true := by decide
  obtain ⟨t, hT, ht⟩ := (Option.any_eq_true _ _).1 hentry
  refine ⟨t, hT, (of_decide_eq_true ht).1, (of_decide_eq_true ht).2, ?_⟩
  have hafter : ((run {} retryThenNonblockingAlloc).postAllocFailedSwitch 1 true true false
      false).2.threads[(1 : Int)]?.map state = some .bufnThrow := by decide
  rintro ⟨t', hT', hrunning⟩
  rw [hT', Option.map_some, hrunning] at hafter
  cases hafter

/-! ### A thread's own operations, outside of its allocations -/

theorem quiet_setThread (st : ThreadState) (hst : t.registration.state = st) (h1 : st ≠ .alloc)
    (h2 : st ≠ .allocFree) : ((s.setThread T t).snapshot T).Quiet := by
  intro e he
  rw [snapshot_setThread, if_pos rfl] at he
  cases he
  rw [hst]
  exact ⟨h1, h2⟩

/-- A turn of `block_thread_until_ready` does not begin an allocation. -/
theorem blockIteration_quiet (h : s.Awake T) (hq : (s.snapshot T).Quiet) :
    ((s.blockIteration T).2.snapshot T).Quiet := by
  unfold blockIteration
  cases hT : s.threads[T]? with
  | none => exact hq
  | some t =>
    have before : ∀ {s : Adaptor} {u : FullThreadState}, s.threads[T]? = some u →
        (s.snapshot T).Quiet → ((s.setThread T (u.beforeBlock s.now)).snapshot T).Quiet := by
      intro s u hu hq
      have hstate := hq u.registration (by rw [snapshot_of_some hu])
      exact quiet_setThread _ (by rw [u.registration_beforeBlock]) hstate.1 hstate.2
    dsimp only
    cases hst : t.state with
    | blocked => exact before hT hq
    | bufn => exact before hT hq
    | running => exact hq
    | alloc => exact hq
    | allocFree => exact hq
    | bufnThrow =>
      refine quiet_setThread .bufnWait ?_ (by simp) (by simp)
      rw [registration_throwRetryOom,
        registration_recordFailedRetryTime]
      rfl
    | splitThrow =>
      refine quiet_setThread .running ?_ (by simp) (by simp)
      rw [registration_throwSplitAndRetryOom,
        registration_recordFailedRetryTime]
      rfl
    | removeThrow =>
      intro e he
      rw [snapshot_eraseThread, if_pos rfl] at he
      cases he
    | bufnWait =>
      have hkeyed : (s.transition T .bufn).Keyed := by
        rw [transition_eq hT]
        exact keyed_setThread h.keyed (h.keyed T t hT)
      have hbufn : ((s.transition T .bufn).snapshot T).Quiet := by
        rw [transition_eq hT]
        exact quiet_setThread .bufn rfl (by simp) (by simp)
      -- the check for a deadlock may move this thread as well
      have hcheck := (moves_checkAndUpdateForBufn (U := T) (r := {}) hkeyed none).quiet id hbufn
      dsimp only
      set s2 := (s.transition T .bufn).checkAndUpdateForBufn none
      cases hT2 : s2.threads[T]? with
      | none => exact hcheck
      | some t2 =>
        dsimp only
        split_ifs
        · exact before hT2 hcheck
        · exact hcheck

/-- The loop ends normally only where the thread runs. -/
theorem blockLoop_quiet (turns : Nat) (h : s.Awake T) (hq : (s.snapshot T).Quiet) :
    ((s.blockLoop turns T).2.snapshot T).Quiet ∧
      ((s.blockLoop turns T).1 = .done →
        ∀ t, (s.blockLoop turns T).2.threads[T]? = some t → t.state = .running) := by
  induction turns generalizing s with
  | zero => exact ⟨hq, fun h => by cases h⟩
  | succ n ih =>
    have hquiet := blockIteration_quiet h hq
    have hawake := (blockIteration_moves (U := T) (r := { own := True }) h fun _ => trivial).2
    unfold blockLoop
    cases hit : s.blockIteration T with
    | mk step s1 =>
      rw [hit] at hquiet hawake
      cases step with
      | again => exact ih hawake hquiet
      | done =>
        refine ⟨hquiet, fun _ t hT => ?_⟩
        -- the turn looked at the state of the thread, and left it alone
        have hsame : s1 = s := blockIteration_done hit
        dsimp only at hT
        rw [hsame] at hT
        have hstate := hq t.registration (by rw [snapshot_of_some hT])
        unfold blockIteration at hit
        rw [hT] at hit
        dsimp only at hit
        cases hst : t.state <;> rw [hst] at hit <;> dsimp only at hit
        case alloc => exact absurd hst hstate.1
        case allocFree => exact absurd hst hstate.2
        case bufnWait =>
          split at hit
          · cases hit
          · split_ifs at hit <;> cases hit
        all_goals cases hit
      | wait => exact ⟨hquiet, fun h => by cases h⟩
      | threw e => exact ⟨hquiet, fun h => by cases h⟩

theorem throwOom_ne (t : FullThreadState) (now : Nat) (cpuClass gpuClass m : String) :
    (t.throwOom now cpuClass gpuClass).1 ≠ .invalidArgument m := by
  unfold throwOom
  split
  · next e t1 h =>
    unfold checkBeforeOom at h
    split_ifs at h
    · cases h
      exact fun h => by cases h
    · cases h
  · dsimp only
    split_ifs <;> exact fun h => by cases h

/-- What a thread that was blocked throws is not one of the internal errors of the protocol. -/
theorem blockIteration_threw {e : Exn} (h : s.blockIteration T = (.threw e, s')) (m : String) :
    e ≠ .invalidArgument m := by
  unfold blockIteration at h
  cases hT : s.threads[T]? with
  | none =>
    rw [hT] at h
    cases h
  | some t =>
    rw [hT] at h
    dsimp only at h
    cases hst : t.state <;> rw [hst] at h <;> dsimp only at h
    case bufnThrow => cases h; exact throwOom_ne _ _ _ _ _
    case splitThrow => cases h; exact throwOom_ne _ _ _ _ _
    case removeThrow => cases h; exact fun h => by cases h
    case bufnWait =>
      split at h
      · cases h
      · split_ifs at h <;> cases h
    all_goals cases h

theorem blockLoop_threw {turns : Nat} {e : Exn} (h : s.blockLoop turns T = (.threw e, s'))
    (m : String) : e ≠ .invalidArgument m := by
  induction turns generalizing s with
  | zero => cases h
  | succ n ih =>
    unfold blockLoop at h
    cases hit : s.blockIteration T with
    | mk step s1 =>
      rw [hit] at h
      cases step with
      | again => exact ih h
      | threw e' =>
        cases h
        exact blockIteration_threw hit m
      | done => cases h
      | wait => cases h

/-- The injected exceptions are Java exceptions. -/
theorem injectedException_ne {t t1 : FullThreadState} {isForCpu : Bool} {now : Nat} {e : Exn}
    (h : t.injectedException isForCpu now = (some e, t1)) (m : String) :
    e ≠ .invalidArgument m := by
  have hretry : ∀ {t t1 : FullThreadState} {e},
      t.injectedRetryOom isForCpu now = (some e, t1) → e ≠ .invalidArgument m := by
    intro t t1 e h
    unfold injectedRetryOom at h
    split_ifs at h <;> cases h <;> exact fun h => by cases h
  have hcudf : ∀ {t t1 : FullThreadState} {e},
      t.injectedCudfException now = (some e, t1) → e ≠ .invalidArgument m := by
    intro t t1 e h
    unfold injectedCudfException at h
    split_ifs at h <;> cases h
    exact fun h => by cases h
  have hsplit : ∀ {t t1 : FullThreadState} {e},
      t.injectedSplitAndRetryOom isForCpu now = (some e, t1) → e ≠ .invalidArgument m := by
    intro t t1 e h
    unfold injectedSplitAndRetryOom at h
    split_ifs at h <;> cases h <;> exact fun h => by cases h
  unfold injectedException at h
  split at h
  · next e' t' h1 =>
    cases h
    exact hretry h1
  · split at h
    · next e' t' h2 =>
      cases h
      exact hcudf h2
    · exact hsplit h

end Adaptor

/-- The operation neither begins an allocation nor reports an internal error. -/
def Outcome.Idle : Outcome → Prop
  | .returned (.bool _) => False
  | .threw (.invalidArgument _) => False
  | _ => True

/-- The kind of the allocation that begins when the thread goes on. -/
def Resume.kind : Resume → Option Bool
  | .publicBlock => none
  | .preAlloc isForCpu _ => some isForCpu

namespace Adaptor

variable {s s' : Adaptor} {T U : Int} {t : FullThreadState}

/-- How an operation of a thread outside of its allocations ends: an allocation of the kind `k`
begins, or nothing does; if it may not block, an unexpected state may be reported. -/
def Ends (T : Int) (k : Option Bool) (blocking : Bool) (r : Outcome × Adaptor) : Prop :=
  (∃ isForCpu, k = some isForCpu ∧ r.1 = .returned (.bool false) ∧
    (r.2.snapshot T).sleeper = none ∧ (r.2.snapshot T).Midway isForCpu) ∨
  (r.1.Idle ∨ blocking = false ∧ ∃ e, r.1 = .threw e) ∧ (r.2.snapshot T).Quiet

theorem finishPreAlloc_ends (isForCpu : Bool) (entry : Nat) (h : s.Awake T)
    (hq : (s.snapshot T).Quiet)
    {blocking : Bool}
    (hrunning : blocking = true → ∀ t, s.threads[T]? = some t → t.state = .running) :
    Ends T (some isForCpu) blocking (s.finishPreAlloc T isForCpu entry) := by
  unfold finishPreAlloc
  cases hT : s.threads[T]? with
  | none => exact .inr ⟨.inl trivial, hq⟩
  | some t =>
    dsimp only
    by_cases hentry : t.wakeCondition ≠ entry
    · rw [if_pos hentry]
      exact .inr ⟨.inl trivial, hq⟩
    · rw [if_neg hentry]
      by_cases hst : t.state = .running
      · rw [if_pos hst]
        refine .inl ⟨isForCpu, rfl, rfl, h.awake, ?_⟩
        rw [snapshot_setThread, if_pos rfl]
        exact ⟨_, rfl, .inl rfl, rfl⟩
      · rw [if_neg hst]
        refine .inr ⟨.inr ⟨?_, _, rfl⟩, hq⟩
        cases blocking with
        | false => rfl
        | true => exact absurd (hrunning rfl t hT) hst

theorem blockThreadUntilReady_ends (h : s.Awake T) (hq : (s.snapshot T).Quiet) (k : Resume) :
    Ends T k.kind true (s.blockThreadUntilReady T k) := by
  obtain ⟨hquiet, hdone⟩ := blockLoop_quiet 2 h hq
  have hawake := (blockLoop_moves (U := T) (r := { own := True }) 2 h fun _ => trivial).2
  unfold blockThreadUntilReady
  cases hloop : s.blockLoop 2 T with
  | mk step s1 =>
    rw [hloop] at hquiet hdone hawake
    cases step with
    | done =>
      cases k with
      | publicBlock => exact .inr ⟨.inl trivial, hquiet⟩
      | preAlloc isForCpu entry =>
        exact finishPreAlloc_ends isForCpu entry hawake hquiet fun _ => hdone rfl
    | wait =>
      refine .inr ?_
      unfold waitOnEntry
      dsimp only
      cases hT : s1.threads[T]? with
      | none => exact ⟨.inl trivial, hquiet⟩
      | some t => exact ⟨.inl trivial, hquiet⟩
    | threw e =>
      refine .inr ⟨.inl ?_, hquiet⟩
      cases e with
      | invalidArgument m => exact absurd rfl (blockLoop_threw hloop m)
      | runtimeError m => trivial
      | java c m => trivial
    | again => exact .inr ⟨.inl trivial, hquiet⟩

theorem preAllocCore_ends (h : s.Awake T) (hT : s.threads[T]? = some t)
    (hq : (s.snapshot T).Quiet) (isForCpu blocking : Bool) :
    Ends T (some isForCpu) blocking (s.preAllocCore T isForCpu blocking) := by
  have hstate : t.state ≠ .alloc ∧ t.state ≠ .allocFree :=
    hq t.registration (by rw [snapshot_of_some hT])
  unfold preAllocCore
  rw [hT]
  dsimp only
  rw [if_neg (not_or.2 hstate)]
  have hreg := t.registration_injectedException s.now isForCpu
  cases hinj : t.injectedException isForCpu s.now with
  | mk e t1 =>
    rw [hinj] at hreg
    have hawake : (s.setThread T t1).Awake T :=
      ⟨keyed_setThread h.keyed ((congrArg Registration.threadId hreg).trans (h.keyed T t hT)),
        h.awake⟩
    have hquiet : ((s.setThread T t1).snapshot T).Quiet := by
      rw [snapshot_setThread_of_eq hT hreg]
      exact hq
    cases e with
    | some e =>
      -- an injected exception is a Java exception
      refine .inr ⟨.inl ?_, hquiet⟩
      have hjava : ∀ m, e ≠ .invalidArgument m := injectedException_ne hinj
      cases e with
      | invalidArgument m => exact absurd rfl (hjava m)
      | runtimeError m => trivial
      | java c m => trivial
    | none =>
      dsimp only
      cases blocking with
      | true => exact blockThreadUntilReady_ends hawake hquiet (.preAlloc isForCpu t1.wakeCondition)
      | false => exact finishPreAlloc_ends isForCpu _ hawake hquiet fun h => by cases h

theorem wake_ends (hs : s.Keyed) (hq : (s.snapshot T).Quiet) {z : Sleeper}
    (hz : s.sleepers[T]? = some z) : Ends T z.resume.kind true (s.wake T) := by
  unfold wake
  rw [hz]
  dsimp only
  set s1 : Adaptor := { s with sleepers := s.sleepers.erase T }
  have hawake : s1.sleepers[T]? = none :=
    (ExtTreeMap.getElem?_erase_eq ..).trans (by rw [if_pos rfl])
  cases hT : s1.threads[T]? with
  | none => exact .inr ⟨.inl trivial, hq⟩
  | some t =>
    dsimp only
    split_ifs
    · exact .inr ⟨.inl trivial, hq⟩
    · have hreg := t.registration_afterBlock s1.now
      have hset := snapshot_setThread_of_eq hT hreg T
      have hid : (t.afterBlock s1.now).threadId = T :=
        (congrArg Registration.threadId hreg).trans (hs T t hT)
      have hkeyed : s1.Keyed := keyed_of_threads_eq hs rfl
      refine blockThreadUntilReady_ends ⟨keyed_setThread hkeyed hid, hawake⟩ ?_ z.resume
      intro e he
      rw [hset] at he
      exact hq e he

end Adaptor

/-! ### Callers that keep to the protocol -/

/-- An allocation a thread is inside of. -/
structure OpenAlloc where
  isForCpu : Bool
  blocking : Bool
  /-- What `pre_alloc_core` returned. -/
  wasRecursive : Bool

/-- The adaptor, and for every thread the allocations it is inside of, innermost first. -/
structure Callers where
  adaptor : Adaptor
  openAllocs : Int → List OpenAlloc

namespace Callers

variable {x : Callers} {op : Op} {T U : Int}

/-- The operation keeps to the protocol. Inside an allocation, the thread allocates CPU memory
without blocking; an allocation is closed by the operation that matches it; and a thread is
registered or loses its registration only while it is awake and outside of its allocations, as it is
when it does this itself. -/
def Follows (x : Callers) (op : Op) : Prop :=
  (match op with
    | .preAlloc T isForCpu blocking => x.openAllocs T ≠ [] → (isForCpu && blocking) = false
    | .postAllocSuccess T isForCpu wasRecursive _ =>
      ∃ a rest, x.openAllocs T = a :: rest ∧ a.isForCpu = isForCpu ∧ a.wasRecursive = wasRecursive
    | .postAllocFailed T isForCpu _ blocking wasRecursive =>
      ∃ a rest, x.openAllocs T = a :: rest ∧ a.isForCpu = isForCpu ∧ a.blocking = blocking ∧
        a.wasRecursive = wasRecursive
    | _ => True) ∧
  ∀ U, op.Erases x.adaptor U ∨ op.Registers U ∧ x.adaptor.threads[U]? = none →
    x.adaptor.sleepers[U]? = none ∧ x.openAllocs U = []

/-- The allocations the threads are inside of, after the operation has ended as `o`. An allocation
whose `pre_alloc_core` had to wait begins when the wait ends. -/
def after (x : Callers) (op : Op) (o : Outcome) : Int → List OpenAlloc :=
  match op, o with
  | .preAlloc T isForCpu blocking, .returned (.bool wasRecursive) =>
    Function.update x.openAllocs T ({ isForCpu, blocking, wasRecursive } :: x.openAllocs T)
  | .wake T, .returned (.bool wasRecursive) =>
    Function.update x.openAllocs T
      ({ isForCpu := (x.adaptor.sleepers[T]?.bind fun z => z.resume.kind).getD false
         blocking := true
         wasRecursive } :: x.openAllocs T)
  | .postAllocSuccess T _ _ _, .returned _ => Function.update x.openAllocs T (x.openAllocs T).tail
  | .postAllocFailed T _ _ _ _, .returned _ => Function.update x.openAllocs T (x.openAllocs T).tail
  | _, _ => x.openAllocs

/-- The adaptor with callers that keep to the protocol. After a failed allocation that is to be
retried, the thread begins again with `pre_alloc_core`. -/
def bracketed : Lts Callers Op where
  init x := x.adaptor.isNew ∧ x.openAllocs = fun _ => []
  step x op y :=
    x.Follows op ∧ Adaptor.system.step x.adaptor op y.adaptor ∧
      y.openAllocs = x.after op (x.adaptor.exec op).1

/-! ### The invariant -/

/-- What the open allocations of a thread say about its state. -/
structure Inside (U : Int) (x : Snapshot) (allocs : List OpenAlloc) : Prop where
  quiet : allocs = [] → x.Quiet
  awake : allocs ≠ [] → x.sleeper = none
  real : allocs ≠ [] → U ≠ -1
  /-- The outermost allocation is the one that set the state, and the only one not recursive. -/
  midway : allocs ≠ [] → x.entry ≠ none → ∃ inner a, allocs = inner ++ [a] ∧
    a.wasRecursive = false ∧ (∀ b ∈ inner, b.wasRecursive = true) ∧ x.Midway a.isForCpu

theorem inside_nil {z : Snapshot} (h : z.Quiet) : Inside U z [] where
  quiet _ := h
  awake h := absurd rfl h
  real h := absurd rfl h
  midway h := absurd rfl h

/-- Other operations keep a thread where it is. -/
theorem Inside.moves {r : Rights} {y z : Snapshot} {allocs : List OpenAlloc}
    (h : Inside U y allocs) (hmoves : Moves r U y z) (hown : ¬r.own) (hfinish : ¬r.finish)
    (herase : allocs ≠ [] → ¬r.erase) (hregister : allocs ≠ [] → y.entry = none → ¬r.register) :
    Inside U z allocs where
  quiet hnil := hmoves.quiet hown (h.quiet hnil)
  awake hne := Adaptor.sleeper_none_of_moves hown hmoves (h.awake hne)
  real := h.real
  midway hne hentry := by
    cases hy : y.entry with
    | none => exact absurd (hmoves.unregistered (hregister hne hy) hy) hentry
    | some e =>
      obtain ⟨inner, a, heq, ha, hinner, hmid⟩ := h.midway hne (by rw [hy]; simp)
      exact ⟨inner, a, heq, ha, hinner, hmoves.midway hfinish (herase hne) (h.real hne) hmid⟩

/-- The thread begins an allocation inside another one. -/
theorem Inside.push {y : Snapshot} {allocs : List OpenAlloc} (h : Inside U y allocs)
    (hne : allocs ≠ []) {b : OpenAlloc} (hb : y.entry ≠ none → b.wasRecursive = true) :
    Inside U y (b :: allocs) where
  quiet hnil := by cases hnil
  awake _ := h.awake hne
  real _ := h.real hne
  midway _ hentry := by
    obtain ⟨inner, a, rfl, ha, hinner, hmid⟩ := h.midway hne hentry
    refine ⟨b :: inner, a, rfl, ha, fun c hc => ?_, hmid⟩
    rcases List.mem_cons.1 hc with rfl | hc
    · exact hb hentry
    · exact hinner c hc

/-- The thread ends an allocation inside another one. -/
theorem Inside.pop {y : Snapshot} {a : OpenAlloc} {rest : List OpenAlloc}
    (h : Inside U y (a :: rest)) (hentry : y.entry = none ∨ a.wasRecursive = true) :
    Inside U y rest := by
  by_cases hrest : rest = []
  · subst hrest
    refine inside_nil fun e he => ?_
    rcases hentry with hnone | hrec
    · rw [hnone] at he
      cases he
    · -- the outermost allocation of a registered thread is not recursive
      obtain ⟨inner, b, heq, hb, -, -⟩ := h.midway (by simp) (by rw [he]; simp)
      cases inner with
      | nil =>
        cases heq
        rw [hrec] at hb
        cases hb
      | cons c inner => simp at heq
  · refine ⟨fun hnil => absurd hnil hrest, fun _ => h.awake (by simp), fun _ => h.real (by simp),
      fun _ he => ?_⟩
    obtain ⟨inner, b, heq, hb, hinner, hmid⟩ := h.midway (by simp) he
    cases inner with
    | nil =>
      rw [List.nil_append] at heq
      exact absurd (List.cons.inj heq).2 hrest
    | cons c inner =>
      obtain ⟨-, heq⟩ := List.cons.inj heq
      exact ⟨inner, b, heq, hb, fun c hc => hinner c (.tail _ hc), hmid⟩

/-- An allocation of a registered thread that is not recursive is the outermost one. -/
theorem Inside.outermost {y : Snapshot} {a : OpenAlloc} {rest : List OpenAlloc}
    (h : Inside U y (a :: rest)) (hentry : y.entry ≠ none) (ha : a.wasRecursive = false) :
    rest = [] ∧ y.Midway a.isForCpu := by
  obtain ⟨inner, b, heq, -, hinner, hmid⟩ := h.midway (by simp) hentry
  cases inner with
  | nil =>
    cases heq
    exact ⟨rfl, hmid⟩
  | cons c inner =>
    obtain ⟨rfl, -⟩ := List.cons.inj heq
    rw [hinner a (.head _)] at ha
    cases ha

/-- The operation reports an internal error of the protocol: an unexpected state before a blocking
allocation, or anything at all after an allocation. -/
def Reports : Op → Outcome → Prop
  | .preAlloc _ _ true, o | .wake _, o => ∃ m, o = .threw (.invalidArgument m)
  | .postAllocSuccess _ _ _ _, o | .postAllocFailed _ _ _ _ _, o => ∃ e, o = .threw e
  | _, _ => False

theorem after_of_ne {o : Outcome} (h : op.self? ≠ some U) : x.after op o U = x.openAllocs U := by
  have hne : ∀ T, op.self? = some T → U ≠ T := fun T hT hU => h (hU ▸ hT)
  unfold after
  split
  · exact Function.update_of_ne (hne _ rfl) ..
  · exact Function.update_of_ne (hne _ rfl) ..
  · exact Function.update_of_ne (hne _ rfl) ..
  · exact Function.update_of_ne (hne _ rfl) ..
  · rfl

/-- An allocation begins only where `pre_alloc_core` returns. -/
theorem after_preAlloc_of_ne {isForCpu blocking : Bool} {o : Outcome}
    (h : ∀ b, o ≠ .returned (.bool b)) :
    x.after (.preAlloc T isForCpu blocking) o = x.openAllocs := by
  cases o with
  | returned r =>
    cases r with
    | bool b => exact absurd rfl (h b)
    | unit => rfl
    | int n => rfl
  | threw e => rfl
  | waiting => rfl
  | undefinedBehavior => rfl

theorem after_wake_of_ne {o : Outcome} (h : ∀ b, o ≠ .returned (.bool b)) :
    x.after (.wake T) o = x.openAllocs := by
  cases o with
  | returned r =>
    cases r with
    | bool b => exact absurd rfl (h b)
    | unit => rfl
    | int n => rfl
  | threw e => rfl
  | waiting => rfl
  | undefinedBehavior => rfl

/-- What follows an allocation closes the innermost one. -/
theorem after_post {r : Ret} {a : OpenAlloc} {rest : List OpenAlloc}
    (hop : (∃ isForCpu wasRecursive numBytes,
        op = .postAllocSuccess T isForCpu wasRecursive numBytes) ∨
      ∃ isForCpu isOom blocking wasRecursive,
        op = .postAllocFailed T isForCpu isOom blocking wasRecursive)
    (hopen : x.openAllocs T = a :: rest) : x.after op (.returned r) T = rest := by
  have htail : Function.update x.openAllocs T (x.openAllocs T).tail T = rest := by
    rw [Function.update_self, hopen, List.tail_cons]
  obtain ⟨_, _, _, rfl⟩ | ⟨_, _, _, _, rfl⟩ := hop <;> exact htail

/-! ### A thread's own operations, along the protocol -/

section OwnOperations

variable {s : Adaptor} {allocs : List OpenAlloc}

/-- The first allocation of a thread begins. -/
theorem inside_begun {z : Snapshot} {b : OpenAlloc} (hreal : T ≠ -1) (hawake : z.sleeper = none)
    (hmid : z.entry ≠ none → b.wasRecursive = false ∧ z.Midway b.isForCpu) :
    Inside T z [b] where
  quiet h := by cases h
  awake _ := hawake
  real _ := hreal
  midway _ he := ⟨[], b, rfl, (hmid he).1, fun c hc => absurd hc List.not_mem_nil, (hmid he).2⟩

theorem Idle.not_bool {o : Outcome} {b : Bool} (h : o.Idle) : o ≠ .returned (.bool b) := by
  rintro rfl
  exact h

theorem Idle.not_invalidArgument {o : Outcome} {m : String} (h : o.Idle) :
    o ≠ .threw (.invalidArgument m) := by
  rintro rfl
  exact h

theorem preAlloc_inside {isForCpu blocking : Bool} (hs : s.Keyed)
    (h : Inside T (s.snapshot T) (x.openAllocs T)) (hreal : T ≠ -1)
    (hawake : s.sleepers[T]? = none)
    (hnested : x.openAllocs T ≠ [] → (isForCpu && blocking) = false) :
    let r := s.preAllocCore T isForCpu blocking
    Inside T (r.2.snapshot T) (x.after (.preAlloc T isForCpu blocking) r.1 T) ∧
      ¬Reports (.preAlloc T isForCpu blocking) r.1 := by
  dsimp only
  have hbegun : ∀ {o : Outcome} {wasRecursive : Bool}, o = .returned (.bool wasRecursive) →
      x.after (.preAlloc T isForCpu blocking) o T =
        { isForCpu, blocking, wasRecursive } :: x.openAllocs T := by
    rintro _ _ rfl
    exact Function.update_self ..
  have hnone : ∀ {o : Outcome}, o = .returned (.bool true) ∨ o = .returned (.bool false) →
      ¬Reports (.preAlloc T isForCpu blocking) o := by
    rintro _ (rfl | rfl) h <;> cases blocking
    all_goals first | exact h | (obtain ⟨m, hm⟩ := h; cases hm)
  -- a thread without an entry is let through; others depend on whether they are in an allocation
  cases hT : s.threads[T]? with
  | none =>
    have heq : s.preAllocCore T isForCpu blocking = (.returned (.bool false), s) := by
      unfold Adaptor.preAllocCore
      rw [hT]
    have hentry : (s.snapshot T).entry = none := by rw [Adaptor.snapshot_of_none hT]
    rw [heq, hbegun rfl]
    refine ⟨?_, hnone (.inr rfl)⟩
    by_cases hnil : x.openAllocs T = []
    · rw [hnil]
      exact inside_begun hreal hawake fun he => absurd hentry he
    · exact h.push hnil fun he => absurd hentry he
  | some t =>
    have hentry : (s.snapshot T).entry ≠ none := by
      rw [Adaptor.snapshot_of_some hT]
      simp
    by_cases hnil : x.openAllocs T = []
    · have hends := Adaptor.preAllocCore_ends ⟨hs, hawake⟩ hT (h.quiet hnil) isForCpu blocking
      rcases hends with ⟨k, hk, hret, hsleep, hmid⟩ | ⟨hidle, hquiet⟩
      · cases hk
        rw [hbegun hret, hnil]
        exact ⟨inside_begun hreal hsleep fun _ => ⟨rfl, hmid⟩, hnone (.inr hret)⟩
      · have hnever : ∀ b, (s.preAllocCore T isForCpu blocking).1 ≠ .returned (.bool b) := by
          rcases hidle with hidle | ⟨-, e, he⟩
          · exact fun b => Idle.not_bool hidle
          · rw [he]
            exact fun b h => by cases h
        rw [after_preAlloc_of_ne hnever, hnil]
        refine ⟨inside_nil hquiet, fun hrep => ?_⟩
        rcases hidle with hidle | ⟨rfl, -⟩
        · cases blocking with
          | false => exact hrep
          | true =>
            obtain ⟨m, hm⟩ := hrep
            exact Idle.not_invalidArgument hidle hm
        · exact hrep
    -- the thread is in an allocation, so this one is recursive
    · obtain ⟨inner, a, -, -, -, e, he, hst, -⟩ := h.midway hnil hentry
      rw [Adaptor.snapshot_of_some hT] at he
      cases he
      have hst' : t.state = .alloc ∨ t.state = .allocFree := hst
      have heq : s.preAllocCore T isForCpu blocking = (.returned (.bool true), s) := by
        unfold Adaptor.preAllocCore
        rw [hT]
        dsimp only
        rw [if_pos hst', if_neg (by rw [hnested hnil]; decide)]
      rw [heq, hbegun rfl]
      exact ⟨h.push hnil fun _ => rfl, hnone (.inl rfl)⟩

theorem wake_inside (hs : s.Keyed) (h : Inside T (s.snapshot T) (x.openAllocs T))
    (hx : x.adaptor = s) (hreal : T ≠ -1) (hasleep : (s.sleepers[T]?).isSome = true) :
    Inside T ((s.wake T).2.snapshot T) (x.after (.wake T) (s.wake T).1 T) ∧
      ¬Reports (.wake T) (s.wake T).1 := by
  obtain ⟨z, hz⟩ := Option.isSome_iff_exists.1 hasleep
  have hnil : x.openAllocs T = [] := by
    by_contra hne
    have := h.awake hne
    change s.sleepers[T]? = none at this
    rw [this] at hz
    cases hz
  rcases Adaptor.wake_ends hs (h.quiet hnil) hz with ⟨k, hk, hret, hsleep, hmid⟩ | ⟨hidle, hquiet⟩
  · have hafter : x.after (.wake T) (s.wake T).1 T =
        [{ isForCpu := k, blocking := true, wasRecursive := false }] := by
      rw [hret]
      refine (Function.update_self ..).trans ?_
      rw [hnil, hx, hz, Option.bind_some, hk, Option.getD_some]
    rw [hafter]
    refine ⟨inside_begun hreal hsleep fun _ => ⟨rfl, hmid⟩, ?_⟩
    rintro ⟨m, hm⟩
    rw [hret] at hm
    cases hm
  · have hidle : (s.wake T).1.Idle := hidle.resolve_right fun h => by cases h.1
    rw [after_wake_of_ne fun b => Idle.not_bool hidle, hnil]
    refine ⟨inside_nil hquiet, ?_⟩
    rintro ⟨m, hm⟩
    exact Idle.not_invalidArgument hidle hm

theorem Inside.outermost_of_some {a : OpenAlloc} {rest : List OpenAlloc} {t : FullThreadState}
    (h : Inside T (s.snapshot T) (a :: rest)) (hT : s.threads[T]? = some t) (ha : a.wasRecursive = false) :
    rest = [] ∧ (t.state = .alloc ∨ t.state = .allocFree) ∧ t.isCpuAlloc = a.isForCpu := by
  have hentry : (s.snapshot T).entry = some t.registration := by rw [Adaptor.snapshot_of_some hT]
  obtain ⟨rfl, e, he, hst, hkind⟩ := h.outermost (by rw [hentry]; simp) ha
  rw [hentry] at he
  cases he
  exact ⟨rfl, hst, hkind⟩

theorem postAllocSuccess_inside {a : OpenAlloc} {rest : List OpenAlloc} (numBytes : Nat)
    (h : Inside T (s.snapshot T) (a :: rest)) :
    let r := s.postAllocSuccessCore T a.isForCpu a.wasRecursive numBytes
    Inside T (r.2.snapshot T) rest ∧ r.1 = .returned .unit := by
  dsimp only
  unfold Adaptor.postAllocSuccessCore
  cases hrec : a.wasRecursive with
  | true => exact ⟨h.pop (.inr hrec), rfl⟩
  | false =>
    rw [if_neg (by simp)]
    cases hT : s.threads[T]? with
    | none =>
      have hentry : (s.snapshot T).entry = none := by rw [Adaptor.snapshot_of_none hT]
      exact ⟨h.pop (.inl hentry), rfl⟩
    | some t =>
      obtain ⟨rfl, hst, hkind⟩ := h.outermost_of_some hT hrec
      dsimp only
      rw [if_pos hst, if_neg (not_not.2 hkind)]
      refine ⟨inside_nil ?_, rfl⟩
      -- the thread runs before anybody else is woken
      refine (Adaptor.moves_wakeNextHighestPriorityBlocked (r := {}) ..).quiet id ?_
      split_ifs <;> exact Adaptor.quiet_setThread .running rfl (by simp) (by simp)

theorem postAllocFailed_inside {a : OpenAlloc} {rest : List OpenAlloc} (isOom : Bool)
    (hs : s.Keyed) (h : Inside T (s.snapshot T) (a :: rest)) :
    let r := s.postAllocFailedCore T a.isForCpu isOom a.blocking a.wasRecursive
    Inside T (r.2.snapshot T) rest ∧ ∃ retry, r.1 = .returned (.bool retry) := by
  have hswitch : Inside T ((s.postAllocFailedSwitch T a.isForCpu isOom a.blocking
        a.wasRecursive).2.snapshot T) rest ∧
      ∃ retry, (s.postAllocFailedSwitch T a.isForCpu isOom a.blocking a.wasRecursive).1 =
        .ok retry := by
    unfold Adaptor.postAllocFailedSwitch
    cases hT : s.threads[T]? with
    | none =>
      have hentry : (s.snapshot T).entry = none := by rw [Adaptor.snapshot_of_none hT]
      exact ⟨h.pop (.inl hentry), _, rfl⟩
    | some t =>
      dsimp only
      cases hrec : a.wasRecursive with
      | true => exact ⟨h.pop (.inr hrec), _, rfl⟩
      | false =>
        obtain ⟨rfl, hst, hkind⟩ := h.outermost_of_some hT hrec
        rw [if_neg (by simp), if_neg (not_not.2 hkind)]
        rcases hst with hst | hst <;> rw [hst] <;> dsimp only
        · split_ifs
          · -- the thread is told to roll back, which notifies it
            refine ⟨inside_nil ?_, _, rfl⟩
            rw [Adaptor.snapshot_notifyAll]
            exact (moves_notify (r := {}) (U := T) ..).quiet id
              (Adaptor.quiet_setThread .bufnThrow rfl (by simp) (by simp))
          · exact ⟨inside_nil
              (Adaptor.quiet_setThread .blocked rfl (by simp) (by simp)), _, rfl⟩
          · exact ⟨inside_nil
              (Adaptor.quiet_setThread .running rfl (by simp) (by simp)), _, rfl⟩
        · exact ⟨inside_nil
            (Adaptor.quiet_setThread .running rfl (by simp) (by simp)), _, rfl⟩
  have hkeyed := (Adaptor.postAllocFailedSwitch_moves (U := T) (r := { own := True, finish := True })
    a.isForCpu isOom a.blocking a.wasRecursive ⟨hs, h.awake (by simp)⟩ (fun _ => trivial)
    fun _ _ => trivial).2
  dsimp only
  unfold Adaptor.postAllocFailedCore
  obtain ⟨hinside, retry, hretry⟩ := hswitch
  cases hsw : s.postAllocFailedSwitch T a.isForCpu isOom a.blocking a.wasRecursive with
  | mk res s1 =>
    rw [hsw] at hinside hretry hkeyed
    cases hretry
    refine ⟨?_, retry, rfl⟩
    exact hinside.moves (Adaptor.moves_checkAndUpdateForBufn (r := {}) hkeyed none) id id
      (fun _ => id) fun _ _ => id

/-- In the middle of an allocation there is nothing to wait for. -/
theorem blockThreadUntilReady_midway
    (h : ∀ t, s.threads[T]? = some t → t.state = .alloc ∨ t.state = .allocFree) :
    s.blockThreadUntilReady T .publicBlock = (.returned .unit, s) := by
  have hit : s.blockIteration T = (.done, s) := by
    unfold Adaptor.blockIteration
    cases hT : s.threads[T]? with
    | none => rfl
    | some t => rcases h t hT with hst | hst <;> simp only [hst]
  have hloop : s.blockLoop 2 T = (.done, s) := by
    unfold Adaptor.blockLoop
    rw [hit]
  unfold Adaptor.blockThreadUntilReady
  rw [hloop]
  rfl

theorem blockThreadUntilReady_inside (hs : s.Keyed) (hawake : s.sleepers[T]? = none)
    (h : Inside T (s.snapshot T) allocs) :
    Inside T ((s.blockThreadUntilReady T .publicBlock).2.snapshot T) allocs := by
  by_cases hnil : allocs = []
  · subst hnil
    have hends := Adaptor.blockThreadUntilReady_ends ⟨hs, hawake⟩ (h.quiet rfl) .publicBlock
    obtain ⟨k, hk, -⟩ | ⟨-, hquiet⟩ := hends
    · cases hk
    · exact inside_nil hquiet
  · rw [blockThreadUntilReady_midway]
    · exact h
    · intro t hT
      have hentry : (s.snapshot T).entry = some t.registration := by
        rw [Adaptor.snapshot_of_some hT]
      obtain ⟨inner, a, -, -, -, e, he, hst, -⟩ := h.midway hnil (by rw [hentry]; simp)
      rw [hentry] at he
      cases he
      exact hst

end OwnOperations

/-- **The step lemma.** An operation that keeps to the protocol leaves every thread inside of the
allocations it should be in, and reports no internal error. -/
theorem inside_step (hs : x.adaptor.Keyed)
    (hx : ∀ U, Inside U (x.adaptor.snapshot U) (x.openAllocs U)) (hok : x.Follows op)
    (hen : x.adaptor.enabled op) :
    (∀ U, Inside U ((x.adaptor.exec op).2.snapshot U) (x.after op (x.adaptor.exec op).1 U)) ∧
      ¬Reports op (x.adaptor.exec op).1 := by
  -- the other threads are only moved, and keep the allocations they are in
  have others : ∀ U, op.self? ≠ some U →
      Inside U ((x.adaptor.exec op).2.snapshot U) (x.after op (x.adaptor.exec op).1 U) := by
    intro U hU
    rw [after_of_ne hU]
    refine (hx U).moves (Adaptor.exec_moves hs hen U) hU ?_ ?_ ?_
    · intro hfinish
      cases op <;> first | exact hU (congrArg some hfinish.1) | exact hfinish
    · exact fun hne herase => hne (hok.2 U (.inl herase)).2
    · intro hne hentry hregister
      have hnone : x.adaptor.threads[U]? = none := Option.map_eq_none_iff.1 hentry
      exact hne (hok.2 U (.inr ⟨hregister.2, hnone⟩)).2
  -- the thread of the operation: one lemma for each operation of an allocation
  have own : ∀ T, op.self? = some T →
      Inside T ((x.adaptor.exec op).2.snapshot T) (x.after op (x.adaptor.exec op).1 T) ∧
        ¬Reports op (x.adaptor.exec op).1 := by
    intro T hT
    have hreal : T ≠ -1 := (hen T hT).1
    cases op with
    | preAlloc T isForCpu blocking =>
      cases hT
      exact preAlloc_inside hs (hx _) hreal (hen.awake rfl rfl) hok.1
    | postAllocSuccess T isForCpu wasRecursive numBytes =>
      cases hT
      obtain ⟨a, rest, hopen, rfl, rfl⟩ := hok.1
      obtain ⟨hinside, hret⟩ := postAllocSuccess_inside numBytes (hopen ▸ hx T)
      have hout : (x.adaptor.exec (.postAllocSuccess T a.isForCpu a.wasRecursive numBytes)).1 =
          .returned .unit := hret
      rw [hout, after_post (.inl ⟨_, _, _, rfl⟩) hopen]
      exact ⟨hinside, fun ⟨e, he⟩ => by cases he⟩
    | postAllocFailed T isForCpu isOom blocking wasRecursive =>
      cases hT
      obtain ⟨a, rest, hopen, rfl, rfl, rfl⟩ := hok.1
      obtain ⟨hinside, retry, hret⟩ := postAllocFailed_inside isOom hs (hopen ▸ hx T)
      have hout : (x.adaptor.exec
          (.postAllocFailed T a.isForCpu isOom a.blocking a.wasRecursive)).1 =
          .returned (.bool retry) := hret
      rw [hout, after_post (.inr ⟨_, _, _, _, rfl⟩) hopen]
      exact ⟨hinside, fun ⟨e, he⟩ => by cases he⟩
    | dealloc T isForCpu numBytes =>
      cases hT
      exact ⟨(hx T).moves (Adaptor.moves_deallocCore (r := {}) ..) id id (fun _ => id)
        fun _ _ => id, id⟩
    | spillRangeStart T =>
      cases hT
      refine ⟨?_, id⟩
      change Inside T ((x.adaptor.updateThread T _).snapshot T) _
      rw [Adaptor.snapshot_updateThread _ _ fun _ => by rfl]
      exact hx T
    | spillRangeDone T =>
      cases hT
      refine ⟨?_, id⟩
      change Inside T ((x.adaptor.updateThread T _).snapshot T) _
      rw [Adaptor.snapshot_updateThread _ _ fun _ => by rfl]
      exact hx T
    | blockThreadUntilReady T =>
      cases hT
      exact ⟨blockThreadUntilReady_inside hs (hen.awake rfl rfl) (hx T), id⟩
    | wake T =>
      cases hT
      exact wake_inside hs (hx T) rfl hreal (hen T rfl).2
    | _ => cases hT
  refine ⟨fun U => ?_, ?_⟩
  · by_cases hU : op.self? = some U
    · exact (own U hU).1
    · exact others U hU
  · cases hself : op.self? with
    | some T => exact (own T hself).2
    | none => cases op <;> cases hself <;> exact id

theorem inside_invariant : bracketed.Invariant fun x =>
    x.adaptor.Keyed ∧ ∀ U, Inside U (x.adaptor.snapshot U) (x.openAllocs U) where
  init x hx := by
    obtain ⟨hnew, hopen⟩ := hx
    refine ⟨Adaptor.keyed_invariant.init _ hnew, fun U => ?_⟩
    rw [hopen]
    refine inside_nil fun e he => ?_
    have hnone : x.adaptor.threads[U]? = none := by
      rw [(congrArg Adaptor.threads hnew : x.adaptor.threads = ∅), ExtTreeMap.getElem?_empty]
    rw [Adaptor.snapshot_of_none hnone] at he
    cases he
  step x op y hx hstep := by
    obtain ⟨hok, hsys, hopen⟩ := hstep
    refine ⟨Adaptor.keyed_invariant.step _ _ _ hx.1 hsys, fun U => ?_⟩
    obtain ⟨hen, -, hnext⟩ := hsys
    rw [hopen, ← hnext]
    exact (inside_step hx.1 hx.2 hok hen).1 U

/-- **The errors of the protocol are unreachable**: while the callers keep to the protocol, no
allocation is told that it is in an unexpected state, and none is found to be of the other kind of
memory when it ends. -/
theorem protocol_errors_unreachable (hx : bracketed.Reachable x) (hok : x.Follows op)
    (hen : x.adaptor.enabled op) : ¬Reports op (x.adaptor.exec op).1 := by
  obtain ⟨hkeyed, hinside⟩ := inside_invariant.reachable hx
  exact (inside_step hkeyed hinside hok hen).2

/-- The callers after operations that run one after another. -/
def follow (x : Callers) : List Op → Callers
  | [] => x
  | op :: ops => follow ⟨(x.adaptor.exec op).2, x.after op (x.adaptor.exec op).1⟩ ops

theorem reachable_follow_snoc {ops : List Op} (op : Op) (hx : bracketed.Reachable (x.follow ops))
    (hok : (x.follow ops).Follows op) (hen : (x.follow ops).adaptor.enabled op)
    (hub : ((x.follow ops).adaptor.exec op).1 ≠ .undefinedBehavior) :
    bracketed.Reachable (x.follow (ops ++ [op])) := by
  have hsnoc : x.follow (ops ++ [op]) = (x.follow ops).follow [op] := by
    clear hx hok hen hub
    induction ops generalizing x with
    | nil => rfl
    | cons op' ops ih => exact ih
  rw [hsnoc]
  exact .step hx ⟨hok, ⟨hen, hub, rfl⟩, rfl⟩

/-- The operations of a thread register and remove nobody. -/
theorem follows_of_self (hself : op.self? = some T) {P : Int → Prop} (U : Int)
    (h : op.Erases x.adaptor U ∨ op.Registers U ∧ x.adaptor.threads[U]? = none) : P U :=
  (h.elim (Op.not_erases_of_self hself) fun h => Op.not_registers_of_self hself h.1).elim

/-- A thread allocates GPU memory, and CPU memory while it does. -/
def nestedAlloc : List Op :=
  [.startDedicatedTaskThread 1 1, .preAlloc 1 false true, .preAlloc 1 true false]

/-- The inner allocation ends without an error. -/
theorem protocol_errors_unreachable_nestedAlloc :
    ¬Reports (.postAllocSuccess 1 true true 8)
      (((follow ⟨{}, fun _ => []⟩ nestedAlloc).adaptor.exec (.postAllocSuccess 1 true true 8)).1) := by
  have hnew : bracketed.Reachable (follow ⟨{}, fun _ => []⟩ []) := .init ⟨rfl, rfl⟩
  have hstart : bracketed.Reachable
      (follow ⟨{}, fun _ => []⟩ [.startDedicatedTaskThread 1 1]) := by
    refine @reachable_follow_snoc _ [] (.startDedicatedTaskThread 1 1) hnew ⟨trivial, fun U _ => ⟨?_, rfl⟩⟩ (by decide)
      (by decide)
    exact ExtTreeMap.getElem?_empty
  have houter := reachable_follow_snoc (.preAlloc 1 false true) hstart
    ⟨fun h => absurd rfl h, follows_of_self rfl⟩ (by decide) (by decide)
  have hinner : bracketed.Reachable (follow ⟨{}, fun _ => []⟩ nestedAlloc) :=
    reachable_follow_snoc (.preAlloc 1 true false) houter ⟨fun _ => rfl, follows_of_self rfl⟩ (by decide) (by decide)
  exact protocol_errors_unreachable hinner
    ⟨⟨{ isForCpu := true, blocking := false, wasRecursive := true }, _, rfl, rfl, rfl⟩,
      follows_of_self rfl⟩ (by decide)

end Callers

end SparkRapids.ResourceAdaptor
