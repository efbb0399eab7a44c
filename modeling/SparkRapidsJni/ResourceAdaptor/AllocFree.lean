import SparkRapidsJni.ResourceAdaptor.Frame

/-!
# No free is lost

While a thread allocates, between its `pre_alloc_core` and the matching `post_alloc_failed_core`, a
free by another thread marks it (`THREAD_ALLOC` becomes `THREAD_ALLOC_FREE`), and the mark is what
makes the failed allocation retry. The mark survives whatever the other threads do, and whatever
the thread itself does short of ending the allocation: `Snapshot.Allocating` and `Snapshot.Freed`
are kept by every move (`Moves.allocating`), so they hold along a whole run, and `no_lost_free`
reads off how the allocation ends.

The registration is named by its condition variable, which no later registration of the thread
shares, so to say that a thread has stayed registered it is enough to look at both ends of the run.
-/

namespace SparkRapids.ResourceAdaptor

open Std (ExtTreeMap ExtTreeSet)

/-- The registration that owns the condition variable `c`, if it is still there, is in the middle
of an allocation of the kind `k` and its state is among `states`. -/
def Snapshot.AllocatingIn (states : ThreadState → Prop) (c : Nat) (k : Bool) (x : Snapshot) : Prop :=
  ∀ e, x.entry = some e → e.condition = c → states e.state ∧ e.isCpuAlloc = k

/-- In the middle of an allocation. -/
def Snapshot.Allocating : Nat → Bool → Snapshot → Prop :=
  Snapshot.AllocatingIn fun st => st = .alloc ∨ st = .allocFree

/-- In the middle of an allocation during which another thread has freed memory. -/
def Snapshot.Freed : Nat → Bool → Snapshot → Prop :=
  Snapshot.AllocatingIn fun st => st = .allocFree

/-- Moves that do not end the allocation keep it in `states`, if these hold allocating states only
and the mark of a free stays in them. -/
theorem Moves.allocatingIn {r : Rights} {U : Int} {x y : Snapshot} {states : ThreadState → Prop}
    {c : Nat} {k : Bool} (hstates : ∀ st, states st → st = .alloc ∨ st = .allocFree)
    (hfreed : states .allocFree) (hmoves : Moves r U x y) (hfinish : ¬r.finish) (hself : U ≠ -1)
    (hfresh : c < r.fresh) (hx : x.AllocatingIn states c k) : y.AllocatingIn states c k := by
  refine Moves.preserves (P := fun x => x.AllocatingIn states c k) ?_ hmoves hx
  intro x y hx hmove e' he' hc
  have not_blocked : ∀ {e : Registration}, states e.state → isBlocked e.state = true → False := by
    intro e hst hb
    rcases hstates _ hst with h | h <;> rw [h] at hb <;> cases hb
  cases hmove with
  | notified o z => exact hx e' he' hc
  | sleep => exact hx e' he' hc
  | wake => exact hx e' he' hc
  | erase => cases he'
  | ownErase => cases he'
  | leave hb => cases he'; exact (not_blocked (hx _ rfl hc).1 hb).elim
  | mark _ hb => cases he'; exact (not_blocked (hx _ rfl hc).1 hb).elim
  | stray hU => exact absurd hU hself
  | restart hst =>
    cases he'
    have hst' := hstates _ (hx _ rfl hc).1
    rcases hst with h | h <;> rw [h] at hst' <;> rcases hst' with h' | h' <;> cases h'
  | free => cases he'; exact ⟨hfreed, (hx _ rfl hc).2⟩
  | register =>
    -- a new registration owns a condition variable that has not been used
    cases he'
    change r.fresh = c at hc
    omega
  | own _ _ _ halloc =>
    cases he'
    obtain ⟨hst, hk⟩ := hx _ rfl hc
    rcases halloc (hstates _ hst) with hf | ⟨rfl, rfl⟩
    · exact absurd hf hfinish
    · exact ⟨hst, hk⟩

namespace Adaptor

/-- The thread with the id `-1` runs no operation, so it is running or has been told to split. -/
theorem stray_invariant :
    system.Invariant fun s => (s.Keyed ∧ s.Fresh) ∧
      ∀ t, s.threads[(-1 : Int)]? = some t → t.state = .running ∨ t.state = .splitThrow := by
  refine fresh_invariant.strengthen ?_ ?_
  · intro s hs t hT
    have hnone : s.threads = ∅ := congrArg Adaptor.threads hs
    rw [hnone, ExtTreeMap.getElem?_empty] at hT
    cases hT
  · rintro s op s' ⟨hkeyed, -⟩ hs ⟨hen, -, rfl⟩ t' ht'
    have hown : ¬(op.rights s (-1)).own := fun ho => (hen (-1) ho).1 rfl
    have h : ∀ e, ((s.exec op).2.snapshot (-1)).entry = some e →
        e.state = .running ∨ e.state = .splitThrow := by
      refine Moves.preserves (P := fun x => ∀ e, x.entry = some e →
        e.state = .running ∨ e.state = .splitThrow) ?_ (exec_moves hkeyed hen (-1)) ?_
      · intro x y hx hmove e he
        have not_blocked : ∀ {e : Registration}, x.entry = some e → isBlocked e.state = true →
            False := by
          intro e he hb
          rcases hx e he with h | h <;> rw [h] at hb <;> cases hb
        -- no thread has the id -1, so none of its own moves is made
        cases hmove with
        | notified o z => exact hx e he
        | leave hb => exact (not_blocked rfl hb).elim
        | mark _ hb => exact (not_blocked rfl hb).elim
        | stray => cases he; exact .inr rfl
        | restart => cases he; exact .inl rfl
        | free hst =>
          rcases hx _ rfl with h | h <;> rw [h] at hst <;> cases hst
        | erase => cases he
        | register => cases he; exact .inl rfl
        | own ho => exact absurd ho hown
        | ownErase ho => exact absurd ho hown
        | sleep ho => exact absurd ho hown
        | wake ho => exact absurd ho hown
      · intro e he
        obtain ⟨t, ht, rfl⟩ := Option.map_eq_some_iff.1 he
        exact hs t ht
    exact h t'.registration (by rw [snapshot_of_some ht'])

variable {s : Adaptor} {T : Int} {c : Nat} {k : Bool}

/-- A free by another thread marks the allocation. -/
theorem freed_deallocCore (hs : s.Keyed) {V : Int} (hV : V ≠ T) (hself : T ≠ -1) (numBytes : Nat)
    (halloc : (s.snapshot T).Allocating c k) :
    ((s.deallocCore V k numBytes).snapshot T).Freed c k := by
  have mark : ∀ s₀ : Adaptor, (∀ t, s₀.threads[T]? = some t → t.threadId = T) →
      (s₀.snapshot T).Allocating c k →
      (({ s₀ with threads := s₀.threads.map fun _ t =>
        if t.threadId ≠ V ∧ t.state = .alloc ∧ k = t.isCpuAlloc then
          { t with state := .allocFree }
        else t } : Adaptor).wakeNextHighestPriorityBlocked k |>.snapshot T).Freed c k := by
    intro s₀ hid h
    refine Moves.allocatingIn (r := { fresh := c + 1 }) (fun st hst => .inr hst) rfl
      (moves_wakeNextHighestPriorityBlocked ..) not_false hself (Nat.lt_succ_self c) ?_
    intro e he hc
    obtain ⟨t', ht', rfl⟩ := Option.map_eq_some_iff.1 he
    dsimp only at ht'
    rw [ExtTreeMap.getElem?_map] at ht'
    obtain ⟨t, ht, rfl⟩ := Option.map_eq_some_iff.1 ht'
    have hne : t.threadId ≠ V := by
      rw [hid t ht]
      exact hV.symm
    have hcond : t.wakeCondition = c := by
      split_ifs at hc
      · exact hc
      · exact hc
    obtain ⟨hst, hk⟩ := h t.registration (by rw [snapshot_of_some ht]) hcond
    change (t.state = .alloc ∨ t.state = .allocFree) at hst
    change t.isCpuAlloc = k at hk
    rcases hst with hst | hst
    · rw [if_pos ⟨hne, hst, hk.symm⟩]
      exact ⟨rfl, hk⟩
    · rw [if_neg (by simp [hst])]
      exact ⟨hst, hk⟩
  unfold deallocCore
  dsimp only
  cases hTV : s.threads[V]? with
  | none => exact mark s (fun t ht => hs T t ht) halloc
  | some t =>
    -- the freeing thread's own metrics
    have other : ∀ t' : FullThreadState, ∀ b : Int,
        ({ s with gpuMemoryAllocatedBytes := b }.setThread V t').threads[T]? = s.threads[T]? :=
      fun t' b => by rw [threads_setThread, if_neg hV]
    dsimp only
    by_cases hk : k = true
    · rw [if_pos hk]
      exact mark s (fun t ht => hs T t ht) halloc
    · rw [if_neg hk]
      refine mark _ (fun t ht => hs T t (by rw [← other, ht])) ?_
      intro e he
      refine halloc e ?_
      rw [← he, snapshot, snapshot, other]

/-- What a step other than the end of the allocation keeps. -/
theorem allocating_step (hs : system.Reachable s) {op : Op} (hen : s.enabled op)
    (hfinish : ¬op.Finishes T) (hself : T ≠ -1) (hc : c < s.nextCondition) :
    ((s.snapshot T).Allocating c k → ((s.exec op).2.snapshot T).Allocating c k) ∧
      ((s.snapshot T).Freed c k → ((s.exec op).2.snapshot T).Freed c k) := by
  have hmoves := exec_moves (keyed_invariant.reachable hs) hen T
  exact ⟨hmoves.allocatingIn (fun _ h => h) (.inr rfl) hfinish hself hc,
    hmoves.allocatingIn (fun _ h => .inr h) rfl hfinish hself hc⟩

/-- Along a run that does not end the allocation of `T`, the allocation goes on, and from the first
free of another thread on it is marked. -/
theorem allocating_run {s₂ : Adaptor} {ops : List Op} (hs : system.Reachable s)
    (hrun : system.Run s ops s₂) (hself : T ≠ -1) (hfinish : ∀ op ∈ ops, ¬op.Finishes T)
    (hc : c < s.nextCondition) (halloc : (s.snapshot T).Allocating c k) :
    c < s₂.nextCondition ∧ (s₂.snapshot T).Allocating c k ∧
      ((∃ V n, V ≠ T ∧ Op.dealloc V k n ∈ ops) → (s₂.snapshot T).Freed c k) := by
  induction hrun with
  | nil => exact ⟨hc, halloc, fun ⟨_, _, _, h⟩ => by cases h⟩
  | @snoc s₁ s₂ ops op hrun hstep ih =>
    obtain ⟨hc1, halloc1, hfreed1⟩ := ih fun op hop => hfinish op (List.mem_append_left _ hop)
    obtain ⟨hen, -, rfl⟩ := hstep
    have hs1 := hs.run hrun
    have hop : ¬op.Finishes T := hfinish op (by simp)
    obtain ⟨hkeep, hmark⟩ := allocating_step (k := k) hs1 hen hop hself hc1
    refine ⟨lt_of_lt_of_le hc1 (counters_exec s₁ op).1, hkeep halloc1, ?_⟩
    rintro ⟨V, n, hV, hmem⟩
    rcases List.mem_append.1 hmem with hmem | hmem
    · exact hmark (hfreed1 ⟨V, n, hV, hmem⟩)
    · obtain rfl : Op.dealloc V k n = op := by simpa using hmem
      exact freed_deallocCore (keyed_invariant.reachable hs1) hV hself n halloc1

/-- **No free is lost.** `T` is in the middle of an allocation of the kind `k`; then come any
operations, none of which ends that allocation, and among which another thread frees memory of the
kind `k`. If `T` still has the registration it had, the failure of its allocation leaves it running
right after its own switch, and the allocation is retried. -/
theorem no_lost_free {s₁ s₂ : Adaptor} {ops : List Op} {t₁ t₂ : FullThreadState}
    (hs : system.Reachable s₁) (hT1 : s₁.threads[T]? = some t₁) (halloc : t₁.state = .alloc)
    (hrun : system.Run s₁ ops s₂) (hfinish : ∀ op ∈ ops, ¬op.Finishes T)
    (hfree : ∃ V n, V ≠ T ∧ Op.dealloc V t₁.isCpuAlloc n ∈ ops)
    (hT2 : s₂.threads[T]? = some t₂) (hsame : t₂.wakeCondition = t₁.wakeCondition)
    (blocking : Bool) :
    (∃ t₃, s₂.postAllocFailedSwitch T t₁.isCpuAlloc true blocking false =
        (.ok true, s₂.setThread T t₃) ∧ t₃.state = .running) ∧
      (s₂.exec (.postAllocFailed T t₁.isCpuAlloc true blocking false)).1 =
        .returned (.bool true) := by
  obtain ⟨⟨-, hfresh⟩, hstray⟩ := stray_invariant.reachable hs
  have hself : T ≠ -1 := by
    rintro rfl
    rcases hstray t₁ hT1 with h | h <;> rw [halloc] at h <;> cases h
  have hstart : (s₁.snapshot T).Allocating t₁.wakeCondition t₁.isCpuAlloc := by
    intro e he _
    rw [snapshot_of_some hT1] at he
    cases he
    exact ⟨.inl halloc, rfl⟩
  obtain ⟨-, -, hfreed⟩ := allocating_run hs hrun hself hfinish (hfresh T t₁ hT1) hstart
  obtain ⟨hst, hk⟩ := hfreed hfree t₂.registration (by rw [snapshot_of_some hT2]) hsame
  change t₂.state = .allocFree at hst
  change t₂.isCpuAlloc = t₁.isCpuAlloc at hk
  have hswitch : s₂.postAllocFailedSwitch T t₁.isCpuAlloc true blocking false =
      (.ok true, s₂.setThread T { t₂ with state := .running }) := by
    unfold postAllocFailedSwitch
    rw [hT2]
    simp [hst, hk]
  refine ⟨⟨_, hswitch, rfl⟩, ?_⟩
  change (s₂.postAllocFailedCore T t₁.isCpuAlloc true blocking false).1 = _
  rw [postAllocFailedCore, hswitch]

/-- Two tasks; the thread of the first starts an allocation. -/
def startAllocation : List Op := [
  .startDedicatedTaskThread 1 1, .startDedicatedTaskThread 2 2, .preAlloc 1 false true]

/-- The other thread frees some memory while the first one allocates recursively. -/
def freeMeanwhile : List Op := [
  .preAlloc 1 false true, .dealloc 2 false 1024, .postAllocSuccess 1 false true 64]

/-- The allocation of `startAllocation` is retried after `freeMeanwhile`. -/
theorem no_lost_free_freeMeanwhile :
    (((run {} startAllocation).run freeMeanwhile).exec
      (.postAllocFailed 1 false true true false)).1 = .returned (.bool true) := by
  obtain ⟨t₁, hT1⟩ : ∃ t, (run {} startAllocation).threads[(1 : Int)]? = some t :=
    Option.isSome_iff_exists.1 (by decide)
  obtain ⟨t₂, hT2⟩ :
      ∃ t, ((run {} startAllocation).run freeMeanwhile).threads[(1 : Int)]? = some t :=
    Option.isSome_iff_exists.1 (by decide)
  have h1 : (run {} startAllocation).threads[(1 : Int)]?.map
      (fun t => (t.state, t.isCpuAlloc, t.wakeCondition)) = some (.alloc, false, 0) := by decide
  have h2 : ((run {} startAllocation).run freeMeanwhile).threads[(1 : Int)]?.map
      (fun t => t.wakeCondition) = some 0 := by decide
  rw [hT1, Option.map_some, Option.some_inj, Prod.mk.injEq, Prod.mk.injEq] at h1
  rw [hT2, Option.map_some, Option.some_inj] at h2
  obtain ⟨hstate, hkind, hcondition⟩ := h1
  have hfree : ∃ V n, V ≠ 1 ∧ Op.dealloc V t₁.isCpuAlloc n ∈ freeMeanwhile :=
    ⟨2, 1024, by decide, by simp [freeMeanwhile, hkind]⟩
  have hretry := (no_lost_free (reachable_run reachable_new (by decide)) hT1 hstate
    (run_of_runs (by decide)) (by simp [freeMeanwhile, Op.Finishes]) hfree hT2
    (by rw [h2, hcondition]) true).2
  rwa [hkind] at hretry

end Adaptor

end SparkRapids.ResourceAdaptor
