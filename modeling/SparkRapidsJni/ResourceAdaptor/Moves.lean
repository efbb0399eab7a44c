import SparkRapidsJni.ResourceAdaptor.Lookup

/-!
# The life of one thread

An abstract model of one thread inside the adaptor, and the proof that the adaptor refines it. The
abstract model keeps of a thread only what the protocol between threads depends on: a `Snapshot` is
its registration, if it has one, and the wait it is inside, if it is inside one. A `Move` is one
thing that can happen to a thread; what a particular operation may do to a particular thread is
limited by the `Rights` it has.

* A thread leaves `BLOCKED` or `BUFN` only by `Move.leave`, `Move.mark` or `Move.stray`, and each of
  them notifies the condition variable of its entry.
* A thread that is blocked is never erased.
* Only its own operations change the thread otherwise, and they do so while it is awake.

`Adaptor.exec_moves` is the refinement: every operation is, for every thread, a sequence of moves
within its rights (`Op.rights`). What holds of every sequence of moves then holds of the adaptor.
-/

namespace SparkRapids.ResourceAdaptor

open Std (ExtTreeMap ExtTreeSet)
open Relation (ReflTransGen)

/-- What the protocol depends on in a `full_thread_state`. -/
structure Registration where
  state : ThreadState
  threadId : Int
  taskId : Int
  /-- The condition variable of the entry, which identifies this registration of the thread. -/
  condition : Nat
  isCpuAlloc : Bool
  deriving DecidableEq

/-- The registration a `full_thread_state` holds. -/
def FullThreadState.registration (t : FullThreadState) : Registration where
  state := t.state
  threadId := t.threadId
  taskId := t.taskId
  condition := t.wakeCondition
  isCpuAlloc := t.isCpuAlloc

/-- One thread: its registration and its wait. -/
structure Snapshot where
  entry : Option Registration
  sleeper : Option Sleeper

/-- What an operation may do to a thread. -/
structure Rights where
  /-- The operation runs on the thread. -/
  own : Prop := False
  /-- The operation ends the thread's allocation, and not a recursive one. -/
  finish : Prop := False
  /-- It may erase the registration. -/
  erase : Prop := False
  /-- It may mark the thread for removal. -/
  mark : Prop := False
  /-- It may register the thread. -/
  register : Prop := False
  /-- The condition variable a new registration gets. -/
  fresh : Nat := 0
  /-- What the thread goes on with if the operation makes it wait. -/
  resume : Resume := .publicBlock

/-- `notify_all` on `c`, as the thread sees it: the wait is notified if it is a wait on `c`, and it
may be notified if it is not. -/
inductive Woken (c : Nat) : Option Sleeper → Option Sleeper → Prop
  | awake : Woken c none none
  | notified (z : Sleeper) : Woken c (some z) (some { z with notified := true })
  | other {z : Sleeper} : z.condition ≠ c → Woken c (some z) (some z)

/-- One thing that can happen to the thread `U`. -/
inductive Move (r : Rights) (U : Int) : Snapshot → Snapshot → Prop
  /-- A notification, if only a spurious one. -/
  | notified (o : Option Registration) (z : Sleeper) :
      Move r U ⟨o, some z⟩ ⟨o, some { z with notified := true }⟩
  /-- Another operation takes the thread out of `BLOCKED` or `BUFN`, and notifies it. -/
  | leave {e : Registration} {st : ThreadState} {z z' : Option Sleeper} :
      isBlocked e.state = true → st = .running ∨ st = .bufnThrow ∨ st = .splitThrow →
      Woken e.condition z z' → Move r U ⟨some e, z⟩ ⟨some { e with state := st }, z'⟩
  /-- The thread with the id `-1`, which runs no operations, is told to split. -/
  | stray {e : Registration} {z z' : Option Sleeper} :
      U = -1 → Woken e.condition z z' →
      Move r U ⟨some e, z⟩ ⟨some { e with state := .splitThrow }, z'⟩
  /-- A thread that is to roll back, or has done so, runs again since a task has finished. -/
  | restart {e : Registration} {z z' : Option Sleeper} :
      e.state = .bufnThrow ∨ e.state = .bufnWait → Woken e.condition z z' →
      Move r U ⟨some e, z⟩ ⟨some { e with state := .running }, z'⟩
  /-- Another thread frees memory while this one allocates. -/
  | free {e : Registration} {z : Option Sleeper} :
      e.state = .alloc → Move r U ⟨some e, z⟩ ⟨some { e with state := .allocFree }, z⟩
  /-- A blocked thread is marked for removal, and notified. -/
  | mark {e : Registration} {z z' : Option Sleeper} :
      r.mark → isBlocked e.state = true → Woken e.condition z z' →
      Move r U ⟨some e, z⟩ ⟨some { e with state := .removeThrow }, z'⟩
  /-- A thread that is not blocked loses its registration. -/
  | erase {e : Registration} {z : Option Sleeper} :
      r.erase → isBlocked e.state = false → Move r U ⟨some e, z⟩ ⟨none, z⟩
  /-- The thread is registered. -/
  | register (taskId : Int) {z : Option Sleeper} :
      r.register → Move r U ⟨none, z⟩
        ⟨some { state := .running, threadId := U, taskId, condition := r.fresh,
                isCpuAlloc := false }, z⟩
  /-- The thread changes its own state. While it allocates only the end of that allocation does. -/
  | own {e : Registration} {st : ThreadState} {k : Bool} :
      r.own → e.state ≠ .removeThrow → st ≠ .removeThrow →
      (e.state = .alloc ∨ e.state = .allocFree → r.finish ∨ st = e.state ∧ k = e.isCpuAlloc) →
      Move r U ⟨some e, none⟩ ⟨some { e with state := st, isCpuAlloc := k }, none⟩
  /-- A thread that is marked for removal erases itself. -/
  | ownErase {e : Registration} :
      r.own → e.state = .removeThrow → Move r U ⟨some e, none⟩ ⟨none, none⟩
  /-- A blocked thread begins to wait on the condition variable of its entry. -/
  | sleep {e : Registration} :
      r.own → isBlocked e.state = true →
      Move r U ⟨some e, none⟩
        ⟨some e, some { condition := e.condition, notified := false, resume := r.resume }⟩
  /-- The wait ends. -/
  | wake {o : Option Registration} {z : Sleeper} :
      r.own → r.resume = z.resume → Move r U ⟨o, some z⟩ ⟨o, none⟩

/-- A move keeps which thread, task and condition variable an entry belongs to, unless it is the
registration of the thread. -/
theorem Move.identity {r : Rights} {U : Int} {x y : Snapshot} {e' : Registration}
    (h : Move r U x y) (he' : y.entry = some e') :
    (∃ e, x.entry = some e ∧ e'.threadId = e.threadId ∧ e'.taskId = e.taskId ∧
      e'.condition = e.condition) ∨
    r.register ∧ x.entry = none ∧ e'.threadId = U ∧ e'.condition = r.fresh ∧
      e'.state = .running := by
  cases h with
  | notified o z => exact .inl ⟨e', he', rfl, rfl, rfl⟩
  | sleep => exact .inl ⟨e', he', rfl, rfl, rfl⟩
  | wake => exact .inl ⟨e', he', rfl, rfl, rfl⟩
  | erase => cases he'
  | ownErase => cases he'
  | register taskId hr =>
    cases he'
    exact .inr ⟨hr, rfl, rfl, rfl, rfl⟩
  | leave => cases he'; exact .inl ⟨_, rfl, rfl, rfl, rfl⟩
  | stray => cases he'; exact .inl ⟨_, rfl, rfl, rfl, rfl⟩
  | restart => cases he'; exact .inl ⟨_, rfl, rfl, rfl, rfl⟩
  | free => cases he'; exact .inl ⟨_, rfl, rfl, rfl, rfl⟩
  | mark => cases he'; exact .inl ⟨_, rfl, rfl, rfl, rfl⟩
  | own => cases he'; exact .inl ⟨_, rfl, rfl, rfl, rfl⟩

/-- A sequence of moves. -/
def Moves (r : Rights) (U : Int) : Snapshot → Snapshot → Prop :=
  ReflTransGen (Move r U)

namespace Moves

variable {r : Rights} {U : Int} {x y z : Snapshot}

theorem refl (x : Snapshot) : Moves r U x x := ReflTransGen.refl

theorem of_eq (h : y = x) : Moves r U x y := by
  rw [h]
  exact refl x

theorem single (h : Move r U x y) : Moves r U x y := ReflTransGen.single h

theorem trans (h1 : Moves r U x y) (h2 : Moves r U y z) : Moves r U x z :=
  ReflTransGen.trans h1 h2

/-- What every move keeps, a sequence of moves keeps. -/
theorem preserves {P : Snapshot → Prop} (hP : ∀ {x y}, P x → Move r U x y → P y)
    (h : Moves r U x y) (hx : P x) : P y := by
  induction h with
  | refl => exact hx
  | tail _ hmove ih => exact hP ih hmove

end Moves

/-! ### Notifications -/

/-- The notifications of a list of condition variables, as one sleeping thread sees them. -/
theorem Sleeper.foldl_notify (cs : List Nat) (z : Sleeper) :
    cs.foldl (fun z c => Sleeper.notify c z) z =
      if z.condition ∈ cs then { z with notified := true } else z := by
  induction cs generalizing z with
  | nil => simp
  | cons c cs ih =>
    rw [List.foldl_cons, ih]
    by_cases hc : z.condition = c
    · simp [Sleeper.notify, hc]
    · simp [Sleeper.notify, hc]

theorem woken_notify (c : Nat) (z : Option Sleeper) : Woken c z (z.map (Sleeper.notify c)) := by
  cases z with
  | none => exact .awake
  | some z =>
    by_cases hc : z.condition = c
    · rw [Option.map_some, Sleeper.notify, if_pos hc]
      exact .notified z
    · rw [Option.map_some, Sleeper.notify, if_neg hc]
      exact .other hc

theorem moves_notify {r : Rights} {U : Int} (o : Option Registration) (c : Nat)
    (z : Option Sleeper) : Moves r U ⟨o, z⟩ ⟨o, z.map (Sleeper.notify c)⟩ := by
  cases z with
  | none => exact Moves.refl _
  | some z =>
    rw [Option.map_some, Sleeper.notify]
    split_ifs
    · exact Moves.single (.notified o z)
    · exact Moves.refl _

namespace Adaptor

variable {r : Rights} {s : Adaptor} {T U : Int} {t t' : FullThreadState}

/-- The thread `U` as the adaptor has it. -/
def snapshot (s : Adaptor) (U : Int) : Snapshot where
  entry := s.threads[U]?.map FullThreadState.registration
  sleeper := s.sleepers[U]?

theorem snapshot_of_some (h : s.threads[U]? = some t) :
    s.snapshot U = ⟨some t.registration, s.sleepers[U]?⟩ := by
  rw [snapshot, h, Option.map_some]

theorem snapshot_of_none (h : s.threads[U]? = none) : s.snapshot U = ⟨none, s.sleepers[U]?⟩ := by
  rw [snapshot, h, Option.map_none]

theorem snapshot_setThread (s : Adaptor) (T U : Int) (t : FullThreadState) :
    (s.setThread T t).snapshot U =
      if T = U then ⟨some t.registration, s.sleepers[U]?⟩ else s.snapshot U := by
  rw [snapshot, threads_setThread, sleepers_setThread]
  split_ifs <;> rfl

theorem snapshot_eraseThread (s : Adaptor) (T U : Int) :
    (s.eraseThread T).snapshot U = if T = U then ⟨none, s.sleepers[U]?⟩ else s.snapshot U := by
  rw [snapshot, threads_eraseThread, sleepers_eraseThread]
  split_ifs <;> rfl

theorem snapshot_notifyAll (s : Adaptor) (c : Nat) (U : Int) :
    (s.notifyAll c).snapshot U =
      ⟨(s.snapshot U).entry, (s.snapshot U).sleeper.map (Sleeper.notify c)⟩ := by
  rw [snapshot, sleepers_notifyAll, threads_notifyAll]
  rfl

theorem snapshot_sleep (s : Adaptor) (T U : Int) (c : Nat) (k : Resume) :
    (s.sleep T c k).snapshot U =
      if T = U then ⟨(s.snapshot U).entry, some { condition := c, notified := false, resume := k }⟩
      else s.snapshot U := by
  have hsl : (s.sleep T c k).sleepers[U]? =
      if T = U then some { condition := c, notified := false, resume := k }
      else s.sleepers[U]? := ExtTreeMap.getElem?_insert_eq ..
  rw [snapshot, hsl]
  split_ifs <;> rfl

section

variable (hT : s.threads[T]? = some t)
include hT

/-- Writing an entry changes the snapshot of its own thread only. -/
theorem moves_setThread
    (h : T = U → Moves r U ⟨some t.registration, s.sleepers[U]?⟩ ⟨some t'.registration, s.sleepers[U]?⟩) :
    Moves r U (s.snapshot U) ((s.setThread T t').snapshot U) := by
  rw [snapshot_setThread]
  by_cases hU : T = U
  · rw [if_pos hU, snapshot_of_some (hU ▸ hT)]
    exact h hU
  · rw [if_neg hU]
    exact Moves.refl _

/-- Writing fields the protocol does not depend on. -/
theorem snapshot_setThread_of_eq (h : t'.registration = t.registration) (U : Int) :
    (s.setThread T t').snapshot U = s.snapshot U := by
  rw [snapshot_setThread]
  by_cases hU : T = U
  · rw [if_pos hU, snapshot_of_some (hU ▸ hT), h]
  · rw [if_neg hU]

theorem snapshot_checkpointMetrics (U : Int) : (s.checkpointMetrics T t).snapshot U = s.snapshot U := by
  have h : (s.setThread T t.checkpointed).snapshot U = s.snapshot U :=
    snapshot_setThread_of_eq hT (by rfl) U
  exact h

/-- A write to an entry followed by a notification of the entry's condition variable. -/
theorem moves_setThread_notifyAll
    (h : T = U → ∀ z', Woken t.wakeCondition s.sleepers[U]? z' → Move r U ⟨some t.registration, s.sleepers[U]?⟩ ⟨some t'.registration, z'⟩) :
    Moves r U (s.snapshot U) (((s.setThread T t').notifyAll t.wakeCondition).snapshot U) := by
  rw [snapshot_notifyAll, snapshot_setThread]
  by_cases hU : T = U
  · rw [if_pos hU, snapshot_of_some (hU ▸ hT)]
    exact Moves.single (h hU _ (woken_notify ..))
  · rw [if_neg hU]
    exact moves_notify ..

/-- A transition of a registered thread is a write to its entry. -/
theorem transition_eq (st : ThreadState) :
    s.transition T st = s.setThread T { t with state := st } := by
  have h : (s.transition T st).threads = (s.setThread T { t with state := st }).threads := by
    refine ExtTreeMap.ext_getElem? fun V => ?_
    rw [threads_transition, threads_setThread]
    by_cases hV : T = V
    · rw [if_pos hV, if_pos hV, ← hV, hT, Option.map_some]
    · rw [if_neg hV, if_neg hV]
  change { s with threads := (s.transition T st).threads } = _
  rw [h]
  rfl

end

/-! ### Waking threads -/

theorem threads_foldl_notifyAll (cs : List Nat) (s : Adaptor) :
    (cs.foldl notifyAll s).threads = s.threads := by
  induction cs generalizing s with
  | nil => rfl
  | cons c cs ih => rw [List.foldl_cons, ih, threads_notifyAll]

theorem sleepers_foldl_notifyAll (cs : List Nat) (s : Adaptor) (U : Int) :
    (cs.foldl notifyAll s).sleepers[U]? =
      s.sleepers[U]?.map fun z => cs.foldl (fun z c => z.notify c) z := by
  induction cs generalizing s with
  | nil => simp
  | cons c cs ih => rw [List.foldl_cons, ih, sleepers_notifyAll, Option.map_map]; rfl

theorem threads_wakeThreadsIn (s : Adaptor) (wakes : ThreadState → Bool) (U : Int) :
    (s.wakeThreadsIn wakes).threads[U]? =
      s.threads[U]?.map fun t => if wakes t.state then { t with state := .running } else t := by
  unfold wakeThreadsIn
  rw [threads_foldl_notifyAll]
  exact ExtTreeMap.getElem?_map

theorem moves_wakeThreadsIn (s : Adaptor) {wakes : ThreadState → Bool}
    (hwakes : ∀ st, wakes st = true → isBlocked st = true ∨ st = .bufnThrow ∨ st = .bufnWait) :
    Moves r U (s.snapshot U) ((s.wakeThreadsIn wakes).snapshot U) := by
  have hz : (s.wakeThreadsIn wakes).sleepers[U]? = s.sleepers[U]?.map fun z =>
      ((s.threads.toList.filter fun kt => wakes kt.2.state).map fun kt => kt.2.wakeCondition).foldl
        (fun z c => z.notify c) z := sleepers_foldl_notifyAll ..
  have hentry := threads_wakeThreadsIn s wakes U
  set cs := (s.threads.toList.filter fun kt => wakes kt.2.state).map fun kt => kt.2.wakeCondition
    with hcs
  have any_notified : ∀ o, Moves r U ⟨o, s.sleepers[U]?⟩
      ⟨o, s.sleepers[U]?.map fun z => cs.foldl (fun z c => z.notify c) z⟩ := by
    intro o
    cases s.sleepers[U]? with
    | none => exact Moves.refl _
    | some z =>
      rw [Option.map_some, Sleeper.foldl_notify]
      split_ifs
      · exact Moves.single (.notified o z)
      · exact Moves.refl _
  cases hU : s.threads[U]? with
  | none =>
    rw [hU, Option.map_none] at hentry
    rw [snapshot_of_none hU, snapshot_of_none hentry, hz]
    exact any_notified none
  | some t =>
    rw [hU, Option.map_some] at hentry
    rw [snapshot_of_some hU, snapshot_of_some hentry, hz]
    by_cases hw : wakes t.state = true
    · -- the condition variable of the entry is among those notified
      have hmem : t.wakeCondition ∈ cs := by
        rw [hcs]
        refine List.mem_map.2 ⟨(U, t), List.mem_filter.2 ⟨?_, hw⟩, rfl⟩
        exact ExtTreeMap.mem_toList_iff.2 hU
      have hwoken : Woken t.wakeCondition s.sleepers[U]?
          (s.sleepers[U]?.map fun z => cs.foldl (fun z c => z.notify c) z) := by
        cases s.sleepers[U]? with
        | none => exact .awake
        | some z =>
          rw [Option.map_some, Sleeper.foldl_notify]
          split_ifs with hc
          · exact .notified z
          · refine .other fun heq => hc ?_
            rw [heq]
            exact hmem
      rw [if_pos hw]
      rcases hwakes _ hw with hb | hb
      · exact Moves.single (.leave (e := t.registration) hb (.inl rfl) hwoken)
      · exact Moves.single (.restart (e := t.registration) hb hwoken)
    · rw [if_neg hw]
      exact any_notified _

theorem moves_wakeUpThreadsAfterTaskFinishes (s : Adaptor) :
    Moves r U (s.snapshot U) (s.wakeUpThreadsAfterTaskFinishes.snapshot U) := by
  have hblocked : ∀ s : Adaptor, Moves r U (s.snapshot U)
      ((s.wakeThreadsIn fun st => st = .blocked).snapshot U) := by
    intro s
    refine moves_wakeThreadsIn s fun st hst => .inl ?_
    rw [isBlocked_iff]
    exact .inl (of_decide_eq_true hst)
  unfold wakeUpThreadsAfterTaskFinishes
  dsimp only
  split_ifs
  · exact hblocked s
  · refine (hblocked s).trans (moves_wakeThreadsIn _ fun st hst => ?_)
    rcases of_decide_eq_true hst with h | h
    · exact .inl (isBlocked_iff.2 (.inr h))
    · exact .inr h

/-- A blocked thread that runs again, splits or rolls back. -/
theorem moves_leave {st : ThreadState} (hT : s.threads[T]? = some t)
    (hst : st = .running ∨ st = .bufnThrow ∨ st = .splitThrow)
    (hleave : isBlocked t.state = true) :
    Moves r U (s.snapshot U) (((s.transition T st).notifyAll t.wakeCondition).snapshot U) := by
  rw [transition_eq hT]
  exact moves_setThread_notifyAll hT fun _ z' hz' => .leave (e := t.registration) hleave hst hz'

theorem moves_wakeNextHighestPriorityBlocked (s : Adaptor) (isForCpu : Bool) :
    Moves r U (s.snapshot U) ((s.wakeNextHighestPriorityBlocked isForCpu).snapshot U) := by
  unfold wakeNextHighestPriorityBlocked
  split
  · exact Moves.refl _
  · next key prio p hpick =>
    obtain hnone | ⟨t, hmem, ht, -⟩ := pickThread_some (congrArg Prod.fst hpick)
    · cases hnone
    have hT : s.threads[key]? = some t := ExtTreeMap.mem_toList_iff.1 hmem
    simp only [hT]
    exact moves_leave (s := { s with taskPriority := p }) hT (.inl rfl)
      (isBlocked_iff.2 (.inl (of_decide_eq_true ht).1))

/-! ### Removing threads -/

theorem moves_removeThreadAssociation (s : Adaptor) {id : Int} (hmark : T = U → r.mark)
    (herase : T = U → ∀ t, s.threads[T]? = some t → t.removed id = none → r.erase) :
    Moves r U (s.snapshot U) ((s.removeThreadAssociation T id).2.snapshot U) := by
  unfold removeThreadAssociation
  cases hT : s.threads[T]? with
  | none => exact Moves.refl _
  | some t =>
    have hreg : (t.checkpointed.dropTask id).2.registration = t.registration := by
      simp [FullThreadState.registration, FullThreadState.checkpointed]
    have hc : (s.checkpointMetrics T t).threads[T]? = some t.checkpointed := by
      rw [threads_checkpointMetrics, if_pos rfl]
    -- the checkpoint and the dropped task are not seen from outside
    have hsame : ((s.checkpointMetrics T t).setThread T (t.checkpointed.dropTask id).2).snapshot U =
        s.snapshot U := by
      rw [snapshot_setThread_of_eq hc hreg, snapshot_checkpointMetrics hT]
    have hu : (((s.checkpointMetrics T t).setThread T
        (t.checkpointed.dropTask id).2).unlinkThread id T).snapshot U = s.snapshot U := by
      rw [← hsame, snapshot, snapshot, threads_unlinkThread, sleepers_unlinkThread]
    -- only an entry that loses its last task is removed
    by_cases hr : (t.checkpointed.dropTask id).1 = true
    · simp only [hr, if_true]
      rw [← hu]
      set s1 := ((s.checkpointMetrics T t).setThread T
        (t.checkpointed.dropTask id).2).unlinkThread id T
      have hT1 : s1.threads[T]? = some (t.checkpointed.dropTask id).2 := by
        rw [threads_unlinkThread, threads_setThread, if_pos rfl]
      have hstate : (t.checkpointed.dropTask id).2.state = t.state := by
        rw [FullThreadState.dropTask_state]
        rfl
      have hmarked : isBlocked t.state = true → Moves r U (s1.snapshot U)
          (((s1.transition T .removeThrow).notifyAll
            (t.checkpointed.dropTask id).2.wakeCondition).snapshot U) := by
        intro hb
        rw [transition_eq hT1]
        refine moves_setThread_notifyAll hT1 fun hU z' hz' => ?_
        exact .mark (e := (t.checkpointed.dropTask id).2.registration) (hmark hU)
          (by rw [hreg]; exact hb) hz'
      -- a thread that is not blocked is erased at once
      have herased : isBlocked t.state = false →
          Moves r U (s1.snapshot U) ((s1.eraseThread T).snapshot U) := by
        intro hb
        rw [snapshot_eraseThread]
        split_ifs with hU
        · subst hU
          have hgone : t.removed id = none := by
            simp only [FullThreadState.removed, hr, hstate, hb, if_true, Bool.false_eq_true, if_false]
          rw [snapshot_of_some hT1]
          exact Moves.single (.erase (e := (t.checkpointed.dropTask id).2.registration)
            (herase rfl t hT hgone) (by rw [hreg]; exact hb))
        · exact Moves.refl _
      unfold removeEntry
      rw [hstate]
      cases hst : t.state with
      | blocked => exact hmarked (by rw [hst]; rfl)
      | bufn => exact hmarked (by rw [hst]; rfl)
      | _ => exact herased (by rw [hst]; rfl)
    · simp only [hr, Bool.false_eq_true, if_false]
      exact Moves.of_eq hsame

theorem moves_removeTaskFromPool (s : Adaptor) {id : Int} (hmark : T = U → r.mark)
    (herase : T = U → ∀ t, s.threads[T]? = some t → t.droppedFromPool id = none → r.erase) :
    Moves r U (s.snapshot U) ((removeTaskFromPool id s T).2.snapshot U) := by
  unfold removeTaskFromPool
  cases hT : s.threads[T]? with
  | none => exact Moves.refl _
  | some t =>
    by_cases hid : id ∈ t.poolTaskIds
    · simp only [hid, if_true]
      set t' : FullThreadState := { t with poolTaskIds := t.poolTaskIds.erase id }
      have hsame : (s.setThread T t').snapshot U = s.snapshot U :=
        snapshot_setThread_of_eq hT (by rfl) U
      by_cases hempty : (t.poolTaskIds.erase id).isEmpty = true
      · simp only [hempty, if_true]
        rw [← hsame]
        refine moves_removeThreadAssociation _ hmark fun hU t1 ht1 hgone => ?_
        rw [threads_setThread, if_pos rfl] at ht1
        obtain rfl : t' = t1 := by simpa using ht1
        refine herase hU t hT ?_
        simp only [FullThreadState.droppedFromPool, hid, hempty, if_true]
        exact hgone
      · simp only [hempty, Bool.false_eq_true, if_false]
        exact Moves.of_eq hsame
    · simp only [hid, if_false]
      exact Moves.refl _

/-- A loop over threads, each of whose turns moves the thread `U` only where it is `U`'s turn or
notifies it. -/
theorem moves_forThreads {f : Adaptor → Int → Bool × Adaptor}
    {g : FullThreadState → Option FullThreadState}
    (hf : ∀ s T V, (f s T).2.threads[V]? = if T = V then s.threads[V]?.bind g else s.threads[V]?)
    (hmoves : ∀ (s : Adaptor) (T : Int),
      (T = U → ∀ t, s.threads[T]? = some t → g t = none → r.erase) →
      Moves r U (s.snapshot U) ((f s T).2.snapshot U))
    (s : Adaptor) {ids : List Int} (hids : ids.Nodup)
    (herase : U ∈ ids → ∀ t, s.threads[U]? = some t → g t = none → r.erase) :
    Moves r U (s.snapshot U) ((forThreads f ids s).2.snapshot U) := by
  unfold forThreads
  generalize false = b
  induction ids generalizing b s with
  | nil => exact Moves.refl _
  | cons T rest ih =>
    obtain ⟨hT, hrest⟩ := List.nodup_cons.1 hids
    rw [List.foldl_cons]
    refine (hmoves s T fun hU t ht => ?_).trans (ih _ hrest (fun hU t ht => ?_) _)
    · exact herase (hU ▸ .head _) t (hU ▸ ht)
    · have hne : T ≠ U := fun h => hT (h ▸ hU)
      rw [hf, if_neg hne] at ht
      exact herase (.tail _ hU) t ht

/-! ### Breaking deadlocks -/

/-- Every entry is the entry of the thread it names. -/
def Keyed (s : Adaptor) : Prop :=
  ∀ (T : Int) (t : FullThreadState), s.threads[T]? = some t → t.threadId = T

/-- Which thread `rollBackLowestPriorityBlocked` changes: a blocked one, when there is one. -/
theorem rollBack_cases (hs : s.Keyed) :
    (∃ p, s.rollBackLowestPriorityBlocked = { s with taskPriority := p } ∧
      ∀ (T : Int) (t : FullThreadState), s.threads[T]? = some t → t.state ≠ .blocked) ∨
    ∃ (p : TaskPriority) (T : Int) (t t' : FullThreadState),
      s.threads[T]? = some t ∧ t.state = .blocked ∧
      (t' = { t with isRetryAllocBeforeBufn := true, state := .running } ∨
        t' = { t with state := .bufnThrow }) ∧
      s.rollBackLowestPriorityBlocked =
        ({ s with taskPriority := p }.setThread T t').notifyAll t.wakeCondition := by
  unfold rollBackLowestPriorityBlocked
  dsimp only
  split
  · next p hpick =>
    refine .inl ⟨p, rfl, fun T t hT hst => ?_⟩
    exact of_decide_eq_false (candidate_eq_false_of_pickThread hpick (ExtTreeMap.mem_toList_iff.2 hT)) hst
  · next key toBufn p hpick =>
    obtain hnone | ⟨t, hmem, ht, hid⟩ := pickThread_some (congrArg Prod.fst hpick)
    · cases hnone
    have hT : s.threads[key]? = some t := ExtTreeMap.mem_toList_iff.1 hmem
    have hkey : toBufn.threadId = key := by rw [hid, hs key t hT]
    refine .inr ⟨p, key, t, if s.threads.toList.countP
      (fun kt => decide (kt.2.state = .blocked)) = 1 then
        { t with isRetryAllocBeforeBufn := true, state := .running }
      else { t with state := .bufnThrow }, hT, of_decide_eq_true ht, ?_, ?_⟩
    · split_ifs
      · exact .inl rfl
      · exact .inr rfl
    · simp only [hkey, hT]

/-- Which thread `splitHighestPriorityBufn` changes: a thread in `BUFN` if there is one, and the
thread `-1` otherwise. -/
theorem split_cases (hs : s.Keyed) :
    (∃ p, s.splitHighestPriorityBufn = { s with taskPriority := p } ∧
      ∀ (T : Int) (t : FullThreadState), s.threads[T]? = some t → t.state ≠ .bufn) ∨
    ∃ (p : TaskPriority) (T : Int) (t : FullThreadState),
      s.threads[T]? = some t ∧ (t.state = .bufn ∨ T = -1) ∧
      s.splitHighestPriorityBufn =
        ({ s with taskPriority := p }.transition T .splitThrow).notifyAll t.wakeCondition := by
  unfold splitHighestPriorityBufn
  dsimp only
  cases hpick : pickThread (fun toWake current => toWake.lt current)
      (fun t => decide (t.state = .bufn)) s.threads.toList none s.taskPriority with
  | mk best p =>
    cases best with
    | none =>
      dsimp only
      cases hT : s.threads[(-1 : Int)]? with
      | none =>
        refine .inl ⟨p, rfl, fun T t hT hst => ?_⟩
        exact of_decide_eq_false (candidate_eq_false_of_pickThread hpick (ExtTreeMap.mem_toList_iff.2 hT)) hst
      | some t => exact .inr ⟨p, -1, t, hT, .inr rfl, rfl⟩
    | some best =>
      obtain ⟨key, toWake⟩ := best
      obtain hnone | ⟨t, hmem, ht, hid⟩ := pickThread_some (congrArg Prod.fst hpick)
      · cases hnone
      have hT : s.threads[key]? = some t := ExtTreeMap.mem_toList_iff.1 hmem
      have hkey : toWake.threadId = key := by rw [hid, hs key t hT]
      refine .inr ⟨p, key, t, hT, .inl (of_decide_eq_true ht), ?_⟩
      simp only [hkey, hT]

theorem moves_rollBack (hs : s.Keyed) :
    Moves r U (s.snapshot U) (s.rollBackLowestPriorityBlocked.snapshot U) := by
  obtain ⟨p, heq, -⟩ | ⟨p, T, t, t', hT, hst, ht', heq⟩ := rollBack_cases hs
  · rw [heq]
    exact Moves.refl _
  · rw [heq]
    have hb : isBlocked t.state = true := isBlocked_iff.2 (.inl hst)
    refine moves_setThread_notifyAll (s := { s with taskPriority := p }) hT fun _ z' hz' => ?_
    rcases ht' with rfl | rfl
    · exact .leave (e := t.registration) hb (.inl rfl) hz'
    · exact .leave (e := t.registration) hb (.inr (.inl rfl)) hz'

theorem moves_split (hs : s.Keyed) :
    Moves r U (s.snapshot U) (s.splitHighestPriorityBufn.snapshot U) := by
  obtain ⟨p, heq, -⟩ | ⟨p, T, t, hT, hst, heq⟩ := split_cases hs
  · rw [heq]
    exact Moves.refl _
  · rw [heq, transition_eq (s := { s with taskPriority := p }) hT]
    refine moves_setThread_notifyAll (s := { s with taskPriority := p }) hT fun hU z' hz' => ?_
    rcases hst with hst | hst
    · exact .leave (e := t.registration) (isBlocked_iff.2 (.inr hst)) (.inr (.inr rfl)) hz'
    · exact .stray (e := t.registration) (hU ▸ hst) hz'

/-- Moves keep the thread id of an entry, so they keep the entries keyed. -/
theorem keyed_of_moves {s s' : Adaptor} (hs : s.Keyed)
    (h : ∀ U, ∃ r, Moves r U (s.snapshot U) (s'.snapshot U)) : s'.Keyed := by
  intro U t' ht'
  obtain ⟨r, hmoves⟩ := h U
  have hkey : ∀ e, (s'.snapshot U).entry = some e → e.threadId = U := by
    refine Moves.preserves (P := fun x => ∀ e, x.entry = some e → e.threadId = U) ?_ hmoves ?_
    · intro x y hx hmove e' he'
      rcases hmove.identity he' with ⟨e, he, hid, -, -⟩ | ⟨-, -, hid, -, -⟩
      · rw [hid]
        exact hx e he
      · exact hid
    · intro e he
      cases hU : s.threads[U]? with
      | none =>
        rw [snapshot_of_none hU] at he
        cases he
      | some t =>
        rw [snapshot_of_some hU] at he
        cases he
        exact hs U t hU
  exact hkey t'.registration (by rw [snapshot_of_some ht'])

theorem keyed_rollBack (hs : s.Keyed) : s.rollBackLowestPriorityBlocked.Keyed :=
  keyed_of_moves hs fun _ => ⟨{}, moves_rollBack hs⟩

theorem moves_checkAndUpdateForBufn (hs : s.Keyed) (java : Option (ExtTreeSet Int)) :
    Moves r U (s.snapshot U) ((s.checkAndUpdateForBufn java).snapshot U) := by
  unfold checkAndUpdateForBufn
  dsimp only
  split_ifs
  · exact (moves_rollBack hs).trans (moves_split (keyed_rollBack hs))
  · exact moves_rollBack hs
  · exact Moves.refl _

end Adaptor

end SparkRapids.ResourceAdaptor
