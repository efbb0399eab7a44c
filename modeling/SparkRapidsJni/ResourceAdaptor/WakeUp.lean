import SparkRapidsJni.ResourceAdaptor.Refinement

/-!
# Waiting threads

Two properties of the threads that are inside a condition wait.

* No wake-up is lost: a thread that is asleep and has not been notified is registered, in
  `THREAD_BLOCKED` or `THREAD_BUFN`, and waits on the condition variable of its own entry
  (`no_lost_wake_up`). The invariant is `Snapshot.Notifiable`.
* A thread that returns from a wait uses its map entry, and that entry may be gone: it is enough
  that another operation moves the thread out of the two blocked states, which notifies it, and a
  further one removes it before it runs (`woken_thread_uses_erased_entry`). In every run in which no
  operation erases the entry of a thread that is inside a wait the entry is there
  (`woken_thread_finds_entry`). The invariant is `Snapshot.Anchored`.
-/

namespace SparkRapids.ResourceAdaptor

open Std (ExtTreeMap ExtTreeSet)

/-! ### No lost wake-up -/

/-- Whoever takes the thread out of its blocked state will notify the wait it is inside. -/
def Snapshot.Notifiable (x : Snapshot) : Prop :=
  ∀ z, x.sleeper = some z → z.notified = false →
    ∃ e, x.entry = some e ∧ e.condition = z.condition ∧ isBlocked e.state = true

/-- A move that notifies the condition variable of the thread's entry leaves a wait that is
notified. -/
theorem Snapshot.Notifiable.woken {e : Registration} {z z' : Option Sleeper} {o : Option Registration}
    (h : Snapshot.Notifiable ⟨some e, z⟩) (hw : Woken e.condition z z') :
    Snapshot.Notifiable ⟨o, z'⟩ := by
  intro w hw' hn
  cases hw with
  | awake => cases hw'
  | notified z =>
    cases hw'
    cases hn
  | other hne =>
    cases hw'
    -- the wait is on another condition variable, which the invariant rules out
    obtain ⟨e', he', hc, -⟩ := h w rfl hn
    cases he'
    exact absurd hc.symm hne

theorem Move.notifiable {r : Rights} {U : Int} {x y : Snapshot} (hmove : Move r U x y)
    (hx : x.Notifiable) : y.Notifiable := by
  cases hmove with
  | notified o z =>
    intro w hw hn
    cases hw
    cases hn
  | leave _ _ hw => exact hx.woken hw
  | stray _ hw => exact hx.woken hw
  | restart _ hw => exact hx.woken hw
  | mark _ _ hw => exact hx.woken hw
  | free hst =>
    intro w hw hn
    -- only a blocked thread is woken
    obtain ⟨e', he', -, hb⟩ := hx w hw hn
    cases he'
    rw [hst] at hb
    cases hb
  | erase _ hnb =>
    intro w hw hn
    obtain ⟨e', he', -, hb⟩ := hx w hw hn
    cases he'
    rw [hnb] at hb
    cases hb
  | register =>
    intro w hw hn
    obtain ⟨e', he', -⟩ := hx w hw hn
    cases he'
  | own =>
    intro w hw
    cases hw
  | ownErase =>
    intro w hw
    cases hw
  | sleep _ hb =>
    intro w hw _
    cases hw
    exact ⟨_, rfl, rfl, hb⟩
  | wake =>
    intro w hw
    cases hw

namespace Adaptor

/-- Every thread is notifiable, in every reachable state. -/
theorem notifiable_invariant :
    system.Invariant fun s => s.Keyed ∧ ∀ U, (s.snapshot U).Notifiable := by
  refine keyed_invariant.strengthen ?_ ?_
  · intro s hs U z hz
    have hnone : s.sleepers = ∅ := congrArg Adaptor.sleepers hs
    change s.sleepers[U]? = some z at hz
    rw [hnone, ExtTreeMap.getElem?_empty] at hz
    cases hz
  · rintro s op s' hkeyed hs ⟨hen, -, rfl⟩ U
    exact Moves.preserves (fun hx hmove => hmove.notifiable hx) (exec_moves hkeyed hen U) (hs U)

/-- **No lost wake-up.** A thread that is asleep and has no notification pending is registered, it
is in one of the two blocked states, and it waits on the condition variable that is notified when
it is taken out of them. -/
theorem no_lost_wake_up {s : Adaptor} (hs : system.Reachable s) {T : Int} {z : Sleeper}
    (hz : s.sleepers[T]? = some z) (hn : z.notified = false) :
    ∃ t, s.threads[T]? = some t ∧ (t.state = .blocked ∨ t.state = .bufn) ∧
      t.wakeCondition = z.condition := by
  obtain ⟨e, he, hc, hb⟩ := (notifiable_invariant.reachable hs).2 T z hz hn
  obtain ⟨t, ht, rfl⟩ := Option.map_eq_some_iff.1 he
  exact ⟨t, ht, isBlocked_iff.1 hb, hc⟩

/-- Two tasks; the thread of the first fails an allocation and waits for memory. -/
def waitForMemory : List Op := [
  .startDedicatedTaskThread 1 1, .startDedicatedTaskThread 2 2,
  .preAlloc 1 false true, .postAllocFailed 1 false true true false,
  .preAlloc 1 false true]

/-- The waiting thread of `waitForMemory` has not been notified, so it is blocked. -/
theorem no_lost_wake_up_waitForMemory :
    ∃ t, (run {} waitForMemory).threads[(1 : Int)]? = some t ∧
      (t.state = .blocked ∨ t.state = .bufn) ∧ t.wakeCondition = 0 :=
  no_lost_wake_up (reachable_run reachable_new (by decide)) (T := 1)
    (z := { condition := 0, notified := false, resume := .preAlloc false 0 }) (by decide) rfl

end Adaptor

/-! ### The entry a woken thread uses -/

/-- The entry the thread goes on with after its wait, if it goes on with one, is the one that owns
the condition variable `c`. -/
def Resume.UsesEntry (c : Nat) : Resume → Prop
  | .publicBlock => True
  | .preAlloc _ entry => entry = c

/-- A thread that is inside a wait has the entry it will use. -/
def Snapshot.Anchored (x : Snapshot) : Prop :=
  ∀ z, x.sleeper = some z →
    ∃ e, x.entry = some e ∧ e.condition = z.condition ∧ z.resume.UsesEntry e.condition

/-- An operation that erases no entry keeps a waiting thread anchored. An operation of the thread
itself can make it wait, and then it goes on with the entry it has. -/
theorem Moves.anchored {r : Rights} {U : Int} {x y : Snapshot} (hmoves : Moves r U x y)
    (herase : ¬r.erase) (hregister : r.own → ¬r.register)
    (hresume : r.own → ∀ e, x.entry = some e → r.resume.UsesEntry e.condition)
    (hx : x.Anchored) : y.Anchored := by
  have step : ∀ {x y : Snapshot},
      (x.Anchored ∧ (r.own → ∀ e, x.entry = some e → r.resume.UsesEntry e.condition)) →
      Move r U x y →
      (y.Anchored ∧ (r.own → ∀ e, y.entry = some e → r.resume.UsesEntry e.condition)) := by
    rintro x y ⟨hx, hr⟩ hmove
    refine ⟨?_, fun ho e' he' => ?_⟩
    · -- a wait that is still there was there before, except the one that begins
      have kept : ∀ {e e' : Registration} {z z' : Option Sleeper},
          Snapshot.Anchored ⟨some e, z⟩ → e'.condition = e.condition →
          (z' = z ∨ Woken e.condition z z') → Snapshot.Anchored ⟨some e', z'⟩ := by
        intro e e' z z' h hc hz w hw
        obtain ⟨v, hv, hcond, hres⟩ : ∃ v, z = some v ∧ v.condition = w.condition ∧
            v.resume = w.resume := by
          rcases hz with rfl | hwoken
          · exact ⟨w, hw, rfl, rfl⟩
          · cases hwoken with
            | awake => cases hw
            | notified v => cases hw; exact ⟨v, rfl, rfl, rfl⟩
            | other => cases hw; exact ⟨w, rfl, rfl, rfl⟩
        obtain ⟨e0, he0, h1, h2⟩ := h v hv
        cases he0
        exact ⟨e', rfl, by rw [hc, h1, hcond], by rw [← hres, hc]; exact h2⟩
      cases hmove with
      | notified o z =>
        intro w hw
        cases hw
        exact hx z rfl
      | leave _ _ hw => exact kept hx (by rfl) (.inr hw)
      | stray _ hw => exact kept hx (by rfl) (.inr hw)
      | restart _ hw => exact kept hx (by rfl) (.inr hw)
      | mark _ _ hw => exact kept hx (by rfl) (.inr hw)
      | free => exact kept hx (by rfl) (.inl rfl)
      | erase he => exact absurd he herase
      | register =>
        intro w hw
        obtain ⟨e, he, -⟩ := hx w hw
        cases he
      | own =>
        intro w hw
        cases hw
      | ownErase =>
        intro w hw
        cases hw
      | sleep ho =>
        intro w hw
        cases hw
        exact ⟨_, rfl, rfl, hr ho _ rfl⟩
      | wake =>
        intro w hw
        cases hw
    · rcases hmove.identity he' with ⟨e, he, -, -, hc⟩ | ⟨hreg, -⟩
      · rw [hc]
        exact hr ho e he
      · exact absurd hreg (hregister ho)
  exact (Moves.preserves step hmoves ⟨hx, hresume⟩).1

/-- The operations of a thread register nothing. -/
theorem Op.not_registers_of_self {op : Op} {T U : Int} (h : op.self? = some T) :
    ¬op.Registers U := by
  cases op <;> first | exact not_false | cases h

/-- The operations of a thread remove no thread from outside. -/
theorem Op.not_erases_of_self {s : Adaptor} {op : Op} {T U : Int} (h : op.self? = some T) :
    ¬op.Erases s U := by
  rintro ⟨t, -, hgone⟩
  cases op <;> first | cases hgone | cases h

namespace Adaptor

/-- The operation erases no entry of a thread that is inside a wait. -/
def LeavesWaiting (s : Adaptor) (op : Op) : Prop :=
  ∀ T z, s.sleepers[T]? = some z → ¬op.Erases s T

instance (s : Adaptor) (op : Op) : Decidable (s.LeavesWaiting op) :=
  decidable_of_iff (∀ Tz ∈ s.sleepers.toList, ¬op.Erases s Tz.1) (by
    unfold LeavesWaiting
    constructor
    · exact fun h T z hz => h (T, z) (ExtTreeMap.mem_toList_iff.2 hz)
    · exact fun h Tz hTz => h Tz.1 Tz.2 (ExtTreeMap.mem_toList_iff.1 hTz))

theorem anchored_step {s : Adaptor} {op : Op} (hs : s.Keyed) (hen : s.enabled op)
    (hok : s.LeavesWaiting op) (h : ∀ U, (s.snapshot U).Anchored) (U : Int) :
    ((s.exec op).2.snapshot U).Anchored := by
  have hmoves := exec_moves hs hen U
  by_cases he : op.Erases s U
  · -- a thread that loses its entry is awake, and stays awake
    have hawake : s.sleepers[U]? = none := by
      cases hz : s.sleepers[U]? with
      | none => rfl
      | some z => exact absurd he (hok U z hz)
    have hnone := sleeper_none_of_moves (fun ho => Op.not_erases_of_self ho he) hmoves hawake
    intro z hz
    rw [hnone] at hz
    cases hz
  · refine hmoves.anchored he (fun ho hreg => Op.not_registers_of_self ho hreg.2) ?_ (h U)
    intro ho e hentry
    obtain ⟨t, ht, rfl⟩ := Option.map_eq_some_iff.1 hentry
    -- what the running thread goes on with: only `preAlloc` and `wake` hold an entry
    cases op with
    | preAlloc self isForCpu blocking =>
      cases ho
      change Resume.UsesEntry _ (Op.resume s (.preAlloc U isForCpu blocking))
      rw [Op.resume, ht]
      rfl
    | wake self =>
      cases ho
      obtain ⟨z, hz⟩ := Option.isSome_iff_exists.1 (hen U rfl).2
      obtain ⟨e', he', -, huses⟩ := h U z hz
      rw [hentry] at he'
      cases he'
      change Resume.UsesEntry _ (Op.resume s (.wake U))
      rw [Op.resume, hz]
      exact huses
    | _ => trivial

/-- Waiting threads stay anchored in every run whose steps erase no entry of a waiting thread. -/
theorem anchored_invariant :
    (system.restrict LeavesWaiting).Invariant fun s => s.Keyed ∧ ∀ U, (s.snapshot U).Anchored := by
  refine (keyed_invariant.restrict _).strengthen ?_ ?_
  · intro s hs U z hz
    have hnone : s.sleepers = ∅ := congrArg Adaptor.sleepers hs
    change s.sleepers[U]? = some z at hz
    rw [hnone, ExtTreeMap.getElem?_empty] at hz
    cases hz
  · rintro s op s' hkeyed h ⟨hok, hen, -, rfl⟩ U
    exact anchored_step hkeyed hen hok h U

/-! ### Blocking ends in one of the three ways -/

/-- Operations without any right over a thread keep its entry. -/
theorem entry_of_moves {x y : Snapshot} {U : Int} {c : Nat} (hmoves : Moves {} U x y)
    (hx : ∃ e, x.entry = some e ∧ e.condition = c ∧ e.state ≠ .bufnWait) :
    ∃ e, y.entry = some e ∧ e.condition = c ∧ e.state ≠ .bufnWait := by
  refine Moves.preserves (P := fun x => ∃ e, x.entry = some e ∧ e.condition = c ∧
    e.state ≠ .bufnWait) ?_ hmoves hx
  rintro x y ⟨e, he, hc, hne⟩ hmove
  cases hmove with
  | notified o z => exact ⟨e, he, hc, hne⟩
  | leave _ hst =>
    cases he
    exact ⟨_, rfl, hc, by rcases hst with h | h | h <;> simp [h]⟩
  | stray => cases he; exact ⟨_, rfl, hc, by simp⟩
  | restart => cases he; exact ⟨_, rfl, hc, by simp⟩
  | free => cases he; exact ⟨_, rfl, hc, by simp⟩
  | mark hm => exact hm.elim
  | erase h => exact h.elim
  | register _ h => exact h.elim
  | own h => exact h.elim
  | ownErase h => exact h.elim
  | sleep h => exact h.elim
  | wake h => exact h.elim

variable {s s' : Adaptor} {T : Int} {t : FullThreadState}

/-- A turn of the loop that goes round again has taken the thread through `BUFN`: its entry is still
there, and it is not in `BUFN_WAIT` any more. -/
theorem blockIteration_again (h : s.Awake T) (hit : s.blockIteration T = (.again, s'))
    (hT : s.threads[T]? = some t) :
    ∃ t', s'.threads[T]? = some t' ∧ t'.wakeCondition = t.wakeCondition ∧
      t'.state ≠ .bufnWait := by
  unfold blockIteration at hit
  rw [hT] at hit
  dsimp only at hit
  cases hst : t.state <;> rw [hst] at hit <;> dsimp only at hit
  case bufnWait =>
    have hset := transition_eq hT .bufn
    have hkeyed : (s.transition T .bufn).Keyed := by
      rw [hset]
      exact keyed_setThread h.keyed (h.keyed T t hT)
    obtain ⟨e, he, hc, hne⟩ := entry_of_moves
      (moves_checkAndUpdateForBufn (U := T) hkeyed none)
      (c := t.wakeCondition) ⟨{ t.registration with state := .bufn }, by
        rw [hset, snapshot_setThread, if_pos rfl]
        rfl, rfl, by simp⟩
    obtain ⟨t', ht', rfl⟩ := Option.map_eq_some_iff.1 he
    rw [ht'] at hit
    dsimp only at hit
    split_ifs at hit
    · cases hit
    · cases hit
      exact ⟨t', ht', hc, hne⟩
  all_goals cases hit

theorem blockIteration_done (hit : s.blockIteration T = (.done, s')) : s' = s := by
  unfold blockIteration at hit
  cases hT : s.threads[T]? with
  | none =>
    rw [hT] at hit
    cases hit
    rfl
  | some t =>
    rw [hT] at hit
    dsimp only at hit
    cases hst : t.state <;> rw [hst] at hit <;> dsimp only at hit
    case running => cases hit; rfl
    case alloc => cases hit; rfl
    case allocFree => cases hit; rfl
    case bufnWait =>
      split at hit
      · cases hit
      · split_ifs at hit <;> cases hit
    all_goals cases hit

/-- A turn that starts with no entry, or outside `BUFN_WAIT`, is the last one. -/
theorem blockIteration_ne_again (h : ∀ t, s.threads[T]? = some t → t.state ≠ .bufnWait) :
    (s.blockIteration T).1 ≠ .again := by
  unfold blockIteration
  cases hT : s.threads[T]? with
  | none => exact fun h => by cases h
  | some t =>
    have hne := h t hT
    dsimp only
    cases hst : t.state <;> dsimp only
    case bufnWait => exact absurd hst hne
    all_goals exact fun h => by cases h

/-- Two turns of the loop of `block_thread_until_ready` end it or reach a wait. -/
theorem blockLoop_two_ne_again (h : s.Awake T) : (s.blockLoop 2 T).1 ≠ .again := by
  unfold blockLoop
  cases hit : s.blockIteration T with
  | mk step s1 =>
    cases step with
    | again =>
      dsimp only
      have hlast : (s1.blockIteration T).1 ≠ .again := by
        refine blockIteration_ne_again fun t1 ht1 => ?_
        cases hT : s.threads[T]? with
        | none =>
          unfold blockIteration at hit
          rw [hT] at hit
          cases hit
        | some t =>
          obtain ⟨t', ht', -, hne⟩ := blockIteration_again h hit hT
          rw [ht1] at ht'
          cases ht'
          exact hne
      unfold blockLoop
      cases hit1 : s1.blockIteration T with
      | mk step s2 =>
        rw [hit1] at hlast
        cases step with
        | again => exact absurd rfl hlast
        | _ => exact fun h => by cases h
    | _ => exact fun h => by cases h

/-- When the loop ends normally, the entry the thread had when it began is still there. -/
theorem blockLoop_done (h : s.Awake T) (hloop : s.blockLoop 2 T = (.done, s'))
    (hT : s.threads[T]? = some t) :
    ∃ t', s'.threads[T]? = some t' ∧ t'.wakeCondition = t.wakeCondition := by
  unfold blockLoop at hloop
  cases hit : s.blockIteration T with
  | mk step s1 =>
    rw [hit] at hloop
    cases step with
    | done =>
      cases hloop
      rw [blockIteration_done hit]
      exact ⟨t, hT, rfl⟩
    | again =>
      obtain ⟨t1, ht1, hc, -⟩ := blockIteration_again h hit hT
      dsimp only at hloop
      unfold blockLoop at hloop
      cases hit1 : s1.blockIteration T with
      | mk step s2 =>
        rw [hit1] at hloop
        cases step with
        | done =>
          cases hloop
          rw [blockIteration_done hit1]
          exact ⟨t1, ht1, hc⟩
        | again => cases hloop
        | wait => cases hloop
        | threw => cases hloop
    | wait => cases hloop
    | threw => cases hloop

/-- `block_thread_until_ready` is safe for a thread that has the entry it goes on with. -/
theorem blockThreadUntilReady_safe {k : Resume} (h : s.Awake T)
    (hk : k = .publicBlock ∨ ∃ t, s.threads[T]? = some t ∧ k.UsesEntry t.wakeCondition) :
    (s.blockThreadUntilReady T k).1 ≠ .undefinedBehavior := by
  have hagain := blockLoop_two_ne_again h
  unfold blockThreadUntilReady
  cases hloop : s.blockLoop 2 T with
  | mk step s1 =>
    rw [hloop] at hagain
    cases step with
    | done =>
      rcases hk with rfl | ⟨t, hT, huses⟩
      · exact fun h => by cases h
      · cases k with
        | publicBlock => exact fun h => by cases h
        | preAlloc isForCpu entry =>
          obtain ⟨t', ht', hc⟩ := blockLoop_done h hloop hT
          have hentry : entry = t'.wakeCondition := by rw [hc]; exact huses
          simp only [proceed, finishPreAlloc, ht', hentry, ne_eq, not_true, if_false]
          split_ifs <;> exact fun h => by cases h
    | wait =>
      obtain ⟨t, ht, -⟩ := blockLoop_wait hloop
      simp only [waitOnEntry, ht]
      exact fun h => by cases h
    | threw e => exact fun h => by cases h
    | again => exact absurd rfl hagain

/-- The critical sections that neither block nor hold an entry across a wait. -/
theorem exec_safe_of_not_blocking {op : Op}
    (h : ∀ T isForCpu blocking, op ≠ .preAlloc T isForCpu blocking)
    (hblock : ∀ T, op ≠ .blockThreadUntilReady T) (hwake : ∀ T, op ≠ .wake T) :
    (s.exec op).1 ≠ .undefinedBehavior := by
  have safe_force : ∀ T f, (s.forceException T f).1 ≠ .undefinedBehavior := by
    intro T f
    unfold forceException
    repeat' split
    all_goals exact fun h => by cases h
  -- no other operation waits, so each returns or throws
  cases op with
  | preAlloc T isForCpu blocking => exact absurd rfl (h T isForCpu blocking)
  | blockThreadUntilReady T => exact absurd rfl (hblock T)
  | wake T => exact absurd rfl (hwake T)
  | forceRetryOom => exact safe_force _ _
  | forceSplitAndRetryOom => exact safe_force _ _
  | forceCudfException => exact safe_force _ _
  | startDedicatedTaskThread T taskId =>
    change (s.startDedicatedTaskThread T taskId).1 ≠ _
    obtain ⟨-, e, heq⟩ | ⟨-, ⟨-, heq⟩ | ⟨t, -, -, -, heq⟩ | ⟨t, e, -, heq⟩⟩ :=
      startDedicatedTaskThread_cases s T taskId
    all_goals
      rw [heq]
      exact fun h => by cases h
  | poolThreadWorkingOnTasks isForShuffle T taskIds =>
    change (s.poolThreadWorkingOnTasks isForShuffle T taskIds).1 ≠ _
    obtain ⟨e, heq⟩ | ⟨-, ⟨-, heq⟩ | ⟨t, -, -, -, heq⟩⟩ :=
      poolThreadWorkingOnTasks_cases s isForShuffle T taskIds
    all_goals
      rw [heq]
      exact fun h => by cases h
  | poolThreadFinishedForTasks T taskIds =>
    dsimp only [exec, poolThreadFinishedForTasks]
    repeat' split
    all_goals exact fun h => by cases h
  | waitingOnPoolStatusChanged T poolBlocked =>
    dsimp only [exec, waitingOnPoolStatusChanged]
    repeat' split
    all_goals exact fun h => by cases h
  | postAllocSuccess T isForCpu wasRecursive numBytes =>
    dsimp only [exec, postAllocSuccessCore]
    repeat' split
    all_goals exact fun h => by cases h
  | postAllocFailed T isForCpu isOom blocking wasRecursive =>
    dsimp only [exec, postAllocFailedCore]
    repeat' split
    all_goals exact fun h => by cases h
  | _ => exact fun h => by cases h

theorem preAllocCore_safe (h : s.Awake T) (isForCpu blocking : Bool) :
    (s.preAllocCore T isForCpu blocking).1 ≠ .undefinedBehavior := by
  unfold preAllocCore
  cases hT : s.threads[T]? with
  | none => exact fun h => by cases h
  | some t =>
    dsimp only
    by_cases halloc : t.state = .alloc ∨ t.state = .allocFree
    · rw [if_pos halloc]
      split_ifs <;> exact fun h => by cases h
    · rw [if_neg halloc]
      have hreg := t.registration_injectedException s.now isForCpu
      cases hinj : t.injectedException isForCpu s.now with
      | mk e t1 =>
        rw [hinj] at hreg
        have hT1 : (s.setThread T t1).threads[T]? = some t1 := by rw [threads_setThread, if_pos rfl]
        have hid : t1.threadId = T :=
          (congrArg Registration.threadId hreg).trans (h.keyed T t hT)
        cases e with
        | some e => exact fun h => by cases h
        | none =>
          dsimp only
          split_ifs
          · exact blockThreadUntilReady_safe ⟨keyed_setThread h.keyed hid, h.awake⟩
              (.inr ⟨t1, hT1, rfl⟩)
          · simp only [finishPreAlloc, hT1, ne_eq, not_true, if_false]
            split_ifs <;> exact fun h => by cases h

/-- A thread that returns from its wait is safe when it is anchored. -/
theorem wake_safe (hs : s.Keyed) (hanch : (s.snapshot T).Anchored)
    (hasleep : (s.sleepers[T]?).isSome = true) : (s.wake T).1 ≠ .undefinedBehavior := by
  obtain ⟨z, hz⟩ := Option.isSome_iff_exists.1 hasleep
  obtain ⟨e, he, -, huses⟩ := hanch z hz
  obtain ⟨t, hT, rfl⟩ := Option.map_eq_some_iff.1 he
  unfold wake
  simp only [hz, hT]
  split_ifs
  · exact fun h => by cases h
  · set s1 : Adaptor := { s with sleepers := s.sleepers.erase T }
    have hreg := t.registration_afterBlock s1.now
    have hid : (t.afterBlock s1.now).threadId = T :=
      (congrArg Registration.threadId hreg).trans (hs T t hT)
    have hawake : s1.sleepers[T]? = none := by
      have h : s1.sleepers[T]? = if T = T then none else s.sleepers[T]? :=
        ExtTreeMap.getElem?_erase_eq ..
      rw [h, if_pos rfl]
    refine blockThreadUntilReady_safe
      ⟨keyed_setThread (keyed_of_threads_eq hs rfl) hid, hawake⟩ (.inr ⟨t.afterBlock s1.now, ?_, ?_⟩)
    · rw [threads_setThread, if_pos rfl]
    · exact huses

/-- **A woken thread finds its entry**, in every run in which no operation erases the entry of a
thread that is inside a wait. -/
theorem woken_thread_finds_entry (hs : (system.restrict LeavesWaiting).Reachable s) {op : Op}
    (hen : s.enabled op) : (s.exec op).1 ≠ .undefinedBehavior := by
  obtain ⟨hkeyed, hanch⟩ := anchored_invariant.reachable hs
  cases op with
  | preAlloc T isForCpu blocking => exact preAllocCore_safe ⟨hkeyed, hen.awake rfl rfl⟩ _ _
  | blockThreadUntilReady T =>
    exact blockThreadUntilReady_safe ⟨hkeyed, hen.awake rfl rfl⟩ (.inl rfl)
  | wake T => exact wake_safe hkeyed (hanch T) (hen T rfl).2
  | _ => exact exec_safe_of_not_blocking (by simp) (by simp) (by simp)

/-- The thread that waits in `waitForMemory` is woken by a free and finds its entry. -/
theorem woken_thread_finds_entry_waitForMemory :
    ((run {} (waitForMemory ++ [.dealloc 3 false 1024])).exec (.wake 1)).1 ≠
      .undefinedBehavior :=
  woken_thread_finds_entry (reachable_run_restrict (s := {}) (.init rfl) (by decide)) (by decide)

/-- A thread waits for memory, another thread frees some, which wakes it, and its task is done
before it runs: it goes on with an entry that is gone. -/
theorem woken_thread_uses_erased_entry :
    ∃ s op, system.Reachable s ∧ s.enabled op ∧ (s.exec op).1 = .undefinedBehavior :=
  ⟨run {} (waitForMemory ++ [.dealloc 3 false 1024, .taskDone 1]), .wake 1,
    reachable_run reachable_new (by decide), by decide, by decide⟩

end Adaptor

end SparkRapids.ResourceAdaptor
