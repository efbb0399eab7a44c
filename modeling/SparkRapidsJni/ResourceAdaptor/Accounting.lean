import SparkRapidsJni.ResourceAdaptor.Protocol

/-!
# The bytes allocated on the GPU

`gpu_memory_allocated_bytes` goes up when an allocation has succeeded and down when memory is freed.
`gpuMemory` is the adaptor together with the sizes of the allocations that are live, in runs in which
only registered threads allocate and free GPU memory.

The two sides are not symmetric. A free is always subtracted, while an allocation is added only when
it is not recursive and its thread is in the middle of an allocation of GPU memory (`Counts`). In
every run the allocated bytes and the bytes that were never added make up the live bytes
(`balance_invariant`), so the books are right exactly while no such allocation has had a size
(`accounted_iff`).
-/

namespace SparkRapids.ResourceAdaptor

open Std (ExtTreeMap ExtTreeSet)

namespace Adaptor

variable {s : Adaptor} {T : Int}

/-- `post_alloc_success` adds a GPU allocation of this thread to the allocated bytes. -/
def Counts (s : Adaptor) (T : Int) (wasRecursive : Bool) : Prop :=
  wasRecursive = false ∧ (s.threads[T]?.any fun t =>
    decide ((t.state = .alloc ∨ t.state = .allocFree) ∧ t.isCpuAlloc = false)) = true

instance (s : Adaptor) (T : Int) (wasRecursive : Bool) : Decidable (s.Counts T wasRecursive) :=
  inferInstanceAs (Decidable (_ ∧ _))

theorem gpuMemoryAllocatedBytes_wakeNext (s : Adaptor) (isForCpu : Bool) :
    (s.wakeNextHighestPriorityBlocked isForCpu).gpuMemoryAllocatedBytes =
      s.gpuMemoryAllocatedBytes :=
  congrArg Ledger.gpuMemoryAllocatedBytes (ledger_wakeNextHighestPriorityBlocked s isForCpu)

theorem counts_iff {t : FullThreadState} {wasRecursive : Bool} (hT : s.threads[T]? = some t) :
    s.Counts T wasRecursive ↔
      wasRecursive = false ∧ (t.state = .alloc ∨ t.state = .allocFree) ∧ t.isCpuAlloc = false := by
  unfold Counts
  rw [hT, Option.any_some, decide_eq_true_iff]

theorem not_counts_of_none {wasRecursive : Bool} (hT : s.threads[T]? = none) :
    ¬s.Counts T wasRecursive := by
  intro h
  have hany := h.2
  rw [hT] at hany
  cases hany

/-- CPU memory is not counted. -/
theorem gpuMemoryAllocatedBytes_postAllocSuccess_cpu (s : Adaptor) (T : Int) (wasRecursive : Bool)
    (numBytes : Nat) :
    (s.postAllocSuccessCore T true wasRecursive numBytes).2.gpuMemoryAllocatedBytes =
      s.gpuMemoryAllocatedBytes := by
  unfold postAllocSuccessCore
  by_cases hrec : wasRecursive = true
  · rw [if_pos hrec]
  · rw [if_neg hrec]
    cases s.threads[T]? with
    | none => rfl
    | some t =>
      dsimp only
      by_cases hst : t.state = .alloc ∨ t.state = .allocFree
      · rw [if_pos hst]
        by_cases hkind : t.isCpuAlloc ≠ true
        · rw [if_pos hkind]
          rfl
        · rw [if_neg hkind, if_pos rfl]
          exact gpuMemoryAllocatedBytes_wakeNext ..
      · rw [if_neg hst]
        exact gpuMemoryAllocatedBytes_wakeNext ..

/-- A GPU allocation is added where it counts. One that counts returns. -/
theorem gpuMemoryAllocatedBytes_postAllocSuccess (s : Adaptor) (T : Int) (wasRecursive : Bool)
    (numBytes : Nat) :
    let r := s.postAllocSuccessCore T false wasRecursive numBytes
    (s.Counts T wasRecursive → r.1 = .returned .unit ∧
      r.2.gpuMemoryAllocatedBytes = s.gpuMemoryAllocatedBytes + numBytes) ∧
    (¬s.Counts T wasRecursive → r.2.gpuMemoryAllocatedBytes = s.gpuMemoryAllocatedBytes) := by
  dsimp only
  cases wasRecursive with
  | true => exact ⟨fun h => absurd h.1 (by simp), fun _ => rfl⟩
  | false =>
    obtain hT | ⟨t, hT⟩ := Option.eq_none_or_eq_some s.threads[T]?
    · refine ⟨fun h => absurd h (not_counts_of_none hT), fun _ => ?_⟩
      unfold postAllocSuccessCore
      rw [hT]
      rfl
    · rw [counts_iff hT]
      unfold postAllocSuccessCore
      rw [hT]
      dsimp only
      by_cases hst : t.state = .alloc ∨ t.state = .allocFree
      · rw [if_neg (by simp), if_pos hst]
        by_cases hkind : t.isCpuAlloc = false
        · rw [if_neg (not_not.2 hkind), if_neg (by simp)]
          exact ⟨fun _ => ⟨rfl, gpuMemoryAllocatedBytes_wakeNext ..⟩,
            fun h => absurd ⟨rfl, hst, hkind⟩ h⟩
        · -- the kinds do not match, and the operation throws
          rw [if_pos hkind]
          exact ⟨fun h => absurd h.2.2 hkind, fun _ => rfl⟩
      · rw [if_neg (by simp), if_neg hst]
        exact ⟨fun h => absurd h.2.1 hst, fun _ => gpuMemoryAllocatedBytes_wakeNext ..⟩

/-- An allocation that ends in the middle of one of CPU memory is reported. -/
theorem postAllocSuccess_threw {t : FullThreadState} (hT : s.threads[T]? = some t)
    (hst : t.state = .alloc ∨ t.state = .allocFree) (hkind : t.isCpuAlloc ≠ false)
    (numBytes : Nat) : ∃ e, (s.postAllocSuccessCore T false false numBytes).1 = .threw e := by
  unfold postAllocSuccessCore
  rw [if_neg (by simp), hT]
  dsimp only
  rw [if_pos hst, if_pos hkind]
  exact ⟨_, rfl⟩

theorem postAllocSuccess_returned {t : FullThreadState} {wasRecursive : Bool}
    (hT : s.threads[T]? = some t)
    (h : ¬(wasRecursive = false ∧ (t.state = .alloc ∨ t.state = .allocFree))) (numBytes : Nat) :
    (s.postAllocSuccessCore T false wasRecursive numBytes).1 = .returned .unit := by
  unfold postAllocSuccessCore
  cases wasRecursive with
  | true => rfl
  | false =>
    rw [if_neg (by simp), hT]
    dsimp only
    rw [if_neg fun hst => h ⟨rfl, hst⟩]

theorem gpuMemoryAllocatedBytes_dealloc_cpu (s : Adaptor) (T : Int) (numBytes : Nat) :
    (s.deallocCore T true numBytes).gpuMemoryAllocatedBytes = s.gpuMemoryAllocatedBytes := by
  unfold deallocCore
  dsimp only
  rw [gpuMemoryAllocatedBytes_wakeNext]
  cases s.threads[T]? with
  | none => rfl
  | some t => rfl

/-- A free by a registered thread is always subtracted. -/
theorem gpuMemoryAllocatedBytes_dealloc (numBytes : Nat) (hT : (s.threads[T]?).isSome = true) :
    (s.deallocCore T false numBytes).gpuMemoryAllocatedBytes =
      s.gpuMemoryAllocatedBytes - numBytes := by
  obtain ⟨t, ht⟩ := Option.isSome_iff_exists.1 hT
  unfold deallocCore
  dsimp only
  rw [gpuMemoryAllocatedBytes_wakeNext, ht]
  rfl

end Adaptor

/-- The adaptor, and the sizes of GPU allocations. -/
structure GpuMemory where
  adaptor : Adaptor
  /-- The allocations that have not been freed. -/
  live : Multiset Nat
  /-- All allocations, freed or not, that were not added to the allocated bytes. -/
  uncounted : Multiset Nat

/-- A step: a critical section of the adaptor, or a free of nothing, which has none. -/
inductive Call where
  | op (op : Op)
  | freeEmpty

namespace GpuMemory

variable {x : GpuMemory}

/-- Registered threads allocate and free GPU memory, and free what is live. -/
def Permits (x : GpuMemory) : Call → Prop
  | .op (.postAllocSuccess T false _ _) => (x.adaptor.threads[T]?).isSome = true
  | .op (.dealloc T false numBytes) =>
    (x.adaptor.threads[T]?).isSome = true ∧ 0 < numBytes ∧ numBytes ∈ x.live
  | .op _ => True
  | .freeEmpty => 0 ∈ x.live

/-- The state after an operation has ended in `r`. An allocation is live once `post_alloc_success`
has returned. -/
def ended (x : GpuMemory) (op : Op) (r : Outcome × Adaptor) : GpuMemory :=
  match op, r with
  | .postAllocSuccess T false wasRecursive numBytes, (.returned _, adaptor) =>
    { adaptor
      live := numBytes ::ₘ x.live
      uncounted :=
        if x.adaptor.Counts T wasRecursive then x.uncounted else numBytes ::ₘ x.uncounted }
  | .dealloc _ false numBytes, (_, adaptor) => { x with adaptor, live := x.live.erase numBytes }
  | _, (_, adaptor) => { x with adaptor }

/-- The state after a step. -/
def after (x : GpuMemory) : Call → GpuMemory
  | .op op => x.ended op (x.adaptor.exec op)
  | .freeEmpty => { x with live := x.live.erase 0 }

/-- The adaptor with the GPU memory of registered threads. -/
def gpuMemory : Lts GpuMemory Call where
  init x := x.adaptor.isNew ∧ x.live = 0 ∧ x.uncounted = 0
  step x c y := x.Permits c ∧
    (∀ op, c = .op op → x.adaptor.enabled op ∧ (x.adaptor.exec op).1 ≠ .undefinedBehavior) ∧
    y = x.after c

/-- The allocated bytes are what is live. -/
structure Accounted (x : GpuMemory) : Prop where
  sum : x.adaptor.gpuMemoryAllocatedBytes = x.live.sum
  nonneg : 0 ≤ x.adaptor.gpuMemoryAllocatedBytes
  freed : x.live = 0 → x.adaptor.gpuMemoryAllocatedBytes = 0

/-- The allocated bytes fall short of what is live by what was not counted. -/
def Balanced (x : GpuMemory) : Prop :=
  x.adaptor.gpuMemoryAllocatedBytes + x.uncounted.sum = x.live.sum

theorem accounted_iff_sum :
    x.Accounted ↔ x.adaptor.gpuMemoryAllocatedBytes = x.live.sum := by
  refine ⟨Accounted.sum, fun h => ⟨h, ?_, fun hlive => ?_⟩⟩
  · rw [h]
    exact Int.natCast_nonneg _
  · rw [h, hlive]
    rfl

/-! ### One step -/

theorem ended_returned {T : Int} {wasRecursive : Bool} {numBytes : Nat} {v : Ret}
    {r : Outcome × Adaptor} (h : r.1 = .returned v) :
    x.ended (.postAllocSuccess T false wasRecursive numBytes) r =
      { adaptor := r.2
        live := numBytes ::ₘ x.live
        uncounted :=
          if x.adaptor.Counts T wasRecursive then x.uncounted else numBytes ::ₘ x.uncounted } := by
  obtain ⟨o, s⟩ := r
  cases h
  rfl

theorem ended_not_returned {T : Int} {wasRecursive : Bool} {numBytes : Nat}
    {r : Outcome × Adaptor} (h : ∀ v, r.1 ≠ .returned v) :
    x.ended (.postAllocSuccess T false wasRecursive numBytes) r = { x with adaptor := r.2 } := by
  obtain ⟨o, s⟩ := r
  cases o with
  | returned v => exact absurd rfl (h v)
  | threw e => rfl
  | waiting => rfl
  | undefinedBehavior => rfl

theorem balanced_postAllocSuccess (h : x.Balanced) (T : Int) (wasRecursive : Bool)
    (numBytes : Nat) :
    (x.after (.op (.postAllocSuccess T false wasRecursive numBytes))).Balanced := by
  obtain ⟨hcount, hskip⟩ := x.adaptor.gpuMemoryAllocatedBytes_postAllocSuccess T wasRecursive numBytes
  set r := x.adaptor.postAllocSuccessCore T false wasRecursive numBytes
  have hafter : x.after (.op (.postAllocSuccess T false wasRecursive numBytes)) =
      x.ended (.postAllocSuccess T false wasRecursive numBytes) r := rfl
  rw [hafter]
  unfold Balanced at h
  by_cases hcounts : x.adaptor.Counts T wasRecursive
  · obtain ⟨hret, hbytes⟩ := hcount hcounts
    rw [ended_returned hret, if_pos hcounts]
    calc r.2.gpuMemoryAllocatedBytes + (x.uncounted.sum : Int)
        = x.adaptor.gpuMemoryAllocatedBytes + numBytes + x.uncounted.sum := by rw [hbytes]
      _ = numBytes + (x.adaptor.gpuMemoryAllocatedBytes + x.uncounted.sum) := by ring
      _ = ((numBytes ::ₘ x.live).sum : Int) := by rw [h, Multiset.sum_cons, Nat.cast_add]
  · by_cases hret : ∃ v, r.1 = .returned v
    · obtain ⟨v, hret⟩ := hret
      rw [ended_returned hret, if_neg hcounts]
      -- the allocation is live, and uncounted
      calc r.2.gpuMemoryAllocatedBytes + ((numBytes ::ₘ x.uncounted).sum : Int)
          = numBytes + (x.adaptor.gpuMemoryAllocatedBytes + x.uncounted.sum) := by
            rw [hskip hcounts, Multiset.sum_cons, Nat.cast_add]
            ring
        _ = ((numBytes ::ₘ x.live).sum : Int) := by rw [h, Multiset.sum_cons, Nat.cast_add]
    · rw [ended_not_returned (not_exists.1 hret)]
      exact (congrArg (· + (x.uncounted.sum : Int)) (hskip hcounts)).trans h

theorem balanced_dealloc (h : x.Balanced) {T : Int} {numBytes : Nat}
    (hT : (x.adaptor.threads[T]?).isSome = true) (hlive : numBytes ∈ x.live) :
    (x.after (.op (.dealloc T false numBytes))).Balanced := by
  have hsum : (x.live.sum : Int) = numBytes + (x.live.erase numBytes).sum := by
    rw [← Nat.cast_add, Multiset.sum_erase hlive]
  unfold Balanced at h
  calc (x.adaptor.deallocCore T false numBytes).gpuMemoryAllocatedBytes + (x.uncounted.sum : Int)
      = x.adaptor.gpuMemoryAllocatedBytes + x.uncounted.sum - numBytes := by
        rw [Adaptor.gpuMemoryAllocatedBytes_dealloc numBytes hT]
        ring
    _ = ((x.live.erase numBytes).sum : Int) := by
        rw [h, hsum]
        ring

/-- An operation that neither allocates nor frees GPU memory. -/
theorem balanced_of_bytes {op : Op} (h : x.Balanced)
    (hafter : x.after (.op op) = { x with adaptor := (x.adaptor.exec op).2 })
    (hbytes : (x.adaptor.exec op).2.gpuMemoryAllocatedBytes = x.adaptor.gpuMemoryAllocatedBytes) :
    (x.after (.op op)).Balanced := by
  rw [hafter]
  exact (congrArg (· + (x.uncounted.sum : Int)) hbytes).trans h

/-- **The balance** is kept by every step of every run. -/
theorem balance_invariant : gpuMemory.Invariant Balanced where
  init x hx := by
    obtain ⟨hnew, hlive, huncounted⟩ := hx
    have hbytes : x.adaptor.gpuMemoryAllocatedBytes = 0 :=
      congrArg Adaptor.gpuMemoryAllocatedBytes hnew
    unfold Balanced
    rw [hbytes, hlive, huncounted]
    rfl
  step x c y h hstep := by
    obtain ⟨hpermits, -, rfl⟩ := hstep
    cases c with
    | freeEmpty =>
      -- freeing nothing leaves the sum of the sizes
      have hsum : (x.live.erase 0).sum = x.live.sum := by
        rw [← Multiset.sum_erase hpermits, Nat.zero_add]
      exact h.trans (congrArg Nat.cast hsum.symm)
    | op op =>
      have others : (∀ T isForCpu wasRecursive numBytes,
          op ≠ .postAllocSuccess T isForCpu wasRecursive numBytes) →
          (∀ T isForCpu numBytes, op ≠ .dealloc T isForCpu numBytes) →
          x.after (.op op) = { x with adaptor := (x.adaptor.exec op).2 } →
          (x.after (.op op)).Balanced := fun hsuccess hfree hafter =>
        balanced_of_bytes h hafter (x.adaptor.gpuMemoryAllocatedBytes_exec hsuccess hfree)
      cases op with
      | postAllocSuccess T isForCpu wasRecursive numBytes =>
        cases isForCpu with
        | false => exact balanced_postAllocSuccess h T wasRecursive numBytes
        | true =>
          exact balanced_of_bytes h rfl
            (x.adaptor.gpuMemoryAllocatedBytes_postAllocSuccess_cpu T wasRecursive numBytes)
      | dealloc T isForCpu numBytes =>
        cases isForCpu with
        | false => exact balanced_dealloc h hpermits.1 hpermits.2.2
        | true =>
          exact balanced_of_bytes h rfl (x.adaptor.gpuMemoryAllocatedBytes_dealloc_cpu T numBytes)
      | _ => exact others (by simp) (by simp) rfl

/-- In every run, the books are right exactly when no allocation that was not counted has had a
size. -/
theorem accounted_iff (hx : gpuMemory.Reachable x) : x.Accounted ↔ x.uncounted.sum = 0 := by
  have h : x.adaptor.gpuMemoryAllocatedBytes + x.uncounted.sum = x.live.sum :=
    balance_invariant.reachable hx
  rw [accounted_iff_sum, ← h]
  omega

/-! ### What is not counted -/

/-- The step loses no memory: a GPU allocation with a size that it ends is not recursive, and its
thread is in the middle of it. -/
def KeepsAccount (x : GpuMemory) : Call → Prop
  | .op (.postAllocSuccess T false wasRecursive numBytes) =>
    0 < numBytes → wasRecursive = false ∧ (x.adaptor.threads[T]?.any fun t =>
      decide (t.state = .alloc ∨ t.state = .allocFree)) = true
  | _ => True

theorem keepsAccount_iff {T : Int} {t : FullThreadState} (hT : x.adaptor.threads[T]? = some t)
    (wasRecursive : Bool) (numBytes : Nat) :
    x.KeepsAccount (.op (.postAllocSuccess T false wasRecursive numBytes)) ↔
      (0 < numBytes → wasRecursive = false ∧ (t.state = .alloc ∨ t.state = .allocFree)) := by
  unfold KeepsAccount
  dsimp only
  rw [hT, Option.any_some, decide_eq_true_iff]

theorem uncounted_postAllocSuccess {T : Int} {t : FullThreadState}
    (hT : x.adaptor.threads[T]? = some t) (wasRecursive : Bool) (numBytes : Nat) :
    (x.after (.op (.postAllocSuccess T false wasRecursive numBytes))).uncounted.sum =
      (if wasRecursive = false ∧ (t.state = .alloc ∨ t.state = .allocFree) then 0 else numBytes) +
        x.uncounted.sum := by
  change (x.ended _ (x.adaptor.postAllocSuccessCore T false wasRecursive
    numBytes)).uncounted.sum = _
  by_cases hmid : wasRecursive = false ∧ (t.state = .alloc ∨ t.state = .allocFree)
  · rw [if_pos hmid, Nat.zero_add]
    obtain ⟨rfl, hst⟩ := hmid
    by_cases hkind : t.isCpuAlloc = false
    · have hcounts := (Adaptor.counts_iff hT).2 ⟨rfl, hst, hkind⟩
      have hret := ((x.adaptor.gpuMemoryAllocatedBytes_postAllocSuccess T false
        numBytes).1 hcounts).1
      rw [ended_returned hret, if_pos hcounts]
    · obtain ⟨e, he⟩ := Adaptor.postAllocSuccess_threw hT hst hkind numBytes
      rw [ended_not_returned fun v hv => by rw [he] at hv; cases hv]
  · have hcounts : ¬x.adaptor.Counts T wasRecursive := fun h =>
      hmid ⟨h.1, ((Adaptor.counts_iff hT).1 h).2.1⟩
    rw [if_neg hmid, ended_returned (Adaptor.postAllocSuccess_returned hT hmid numBytes),
      if_neg hcounts, Multiset.sum_cons]

/-- A step adds to what is not counted exactly when it loses memory. -/
theorem uncounted_step {c : Call} {y : GpuMemory} (hstep : gpuMemory.step x c y) :
    (x.KeepsAccount c → y.uncounted.sum = x.uncounted.sum) ∧
      (¬x.KeepsAccount c → x.uncounted.sum < y.uncounted.sum) := by
  obtain ⟨hpermits, -, rfl⟩ := hstep
  have unchanged : (x.after c).uncounted = x.uncounted → x.KeepsAccount c →
      (x.KeepsAccount c → (x.after c).uncounted.sum = x.uncounted.sum) ∧
        (¬x.KeepsAccount c → x.uncounted.sum < (x.after c).uncounted.sum) :=
    fun h hkeep => ⟨fun _ => by rw [h], fun hlost => absurd hkeep hlost⟩
  cases c with
  | freeEmpty => exact unchanged rfl trivial
  | op op =>
    cases op with
    | postAllocSuccess T isForCpu wasRecursive numBytes =>
      cases isForCpu with
      | true => exact unchanged rfl trivial
      | false =>
        obtain ⟨t, hT⟩ := Option.isSome_iff_exists.1 hpermits
        rw [keepsAccount_iff hT, uncounted_postAllocSuccess hT]
        by_cases hmid : wasRecursive = false ∧ (t.state = .alloc ∨ t.state = .allocFree)
        · rw [if_pos hmid, Nat.zero_add]
          exact ⟨fun _ => rfl, fun hlost => absurd (fun _ => hmid) hlost⟩
        · rw [if_neg hmid]
          refine ⟨fun hkeep => ?_, fun hlost => ?_⟩
          · -- the allocation is empty
            have hzero : numBytes = 0 := Nat.eq_zero_of_not_pos fun hpos => hmid (hkeep hpos)
            rw [hzero, Nat.zero_add]
          · exact Nat.lt_add_of_pos_left (Classical.not_imp.1 hlost).1
    | dealloc T isForCpu numBytes => cases isForCpu <;> exact unchanged rfl trivial
    | _ => exact unchanged rfl trivial

/-- **The bytes allocated on the GPU** are the bytes of the live allocations, in every run whose
steps lose no memory. -/
theorem gpu_accounting (hx : (gpuMemory.restrict KeepsAccount).Reachable x) : x.Accounted := by
  have hlost : (gpuMemory.restrict KeepsAccount).Invariant fun x => x.uncounted.sum = 0 := {
    init := fun x hx => by rw [hx.2.2]; rfl
    step := fun x c y h hstep => ((uncounted_step hstep.2).1 hstep.1).trans h }
  exact (accounted_iff hx.of_restrict).2 (hlost.reachable hx)

/-- After a step that loses memory the books are never right again. -/
theorem not_accounted_of_lost {c : Call} {y z : GpuMemory} {cs : List Call}
    (hx : gpuMemory.Reachable x) (hlost : ¬x.KeepsAccount c) (hstep : gpuMemory.step x c y)
    (hrun : gpuMemory.Run y cs z) : ¬z.Accounted := by
  have hy : 0 < y.uncounted.sum := Nat.zero_lt_of_lt ((uncounted_step hstep).2 hlost)
  have hz : 0 < z.uncounted.sum := by
    refine hrun.preserves (I := fun z => 0 < z.uncounted.sum) (fun x c y hpos hstep => ?_) hy
    by_cases hkeep : x.KeepsAccount c
    · rwa [(uncounted_step hstep).1 hkeep]
    · exact hpos.trans ((uncounted_step hstep).2 hkeep)
  have hreach : gpuMemory.Reachable z := (Lts.Reachable.step hx hstep).run hrun
  rw [accounted_iff hreach]
  exact hz.ne'

/-! ### Allocating while spilling -/

theorem step_after (op : Op) (hpermits : x.Permits (.op op)) (hen : x.adaptor.enabled op)
    (hub : (x.adaptor.exec op).1 ≠ .undefinedBehavior) :
    gpuMemory.step x (.op op) (x.after (.op op)) := by
  refine ⟨hpermits, fun op' h => ?_, rfl⟩
  cases h
  exact ⟨hen, hub⟩

theorem reachable_after {ok : GpuMemory → Call → Prop} (op : Op)
    (hx : (gpuMemory.restrict ok).Reachable x) (hok : ok x (.op op)) (hpermits : x.Permits (.op op))
    (hen : x.adaptor.enabled op) (hub : (x.adaptor.exec op).1 ≠ .undefinedBehavior) :
    (gpuMemory.restrict ok).Reachable (x.after (.op op)) :=
  .step hx ⟨hok, step_after op hpermits hen hub⟩

/-- The state after operations that run one after another on a new adaptor. -/
def runOps (ops : List Op) : GpuMemory :=
  (ops.map Call.op).foldl after { adaptor := {}, live := 0, uncounted := 0 }

/-- A thread allocates 100 bytes on the GPU. -/
def allocate : List Op :=
  [.startDedicatedTaskThread 1 1, .preAlloc 1 false true, .postAllocSuccess 1 false false 100]

theorem gpu_accounting_allocate : (runOps allocate).Accounted := by
  refine gpu_accounting ?_
  have hnew : (gpuMemory.restrict KeepsAccount).Reachable (runOps []) := .init ⟨rfl, rfl, rfl⟩
  have hstart := reachable_after (.startDedicatedTaskThread 1 1) hnew trivial trivial
    (by decide) (by decide)
  have hbegun := reachable_after (.preAlloc 1 false true) hstart trivial trivial
    (by decide) (by decide)
  exact reachable_after (.postAllocSuccess 1 false false 100) hbegun
    (fun _ => ⟨rfl, by decide⟩) rfl (by decide) (by decide)

/-- While a thread allocates 10 bytes it allocates another 100, which it frees in the end. -/
def allocateInside : List Op := [
  .startDedicatedTaskThread 1 1, .preAlloc 1 false true, .preAlloc 1 false true,
  .postAllocSuccess 1 false true 100, .postAllocSuccess 1 false false 10, .dealloc 1 false 100]

/-- The free of the inner allocation is subtracted, but the allocation was never added. -/
theorem recursive_allocation_not_counted :
    ∃ x, gpuMemory.Reachable x ∧ ¬x.Accounted ∧ x.adaptor.gpuMemoryAllocatedBytes < 0 := by
  have hnew : (gpuMemory.restrict fun _ _ => True).Reachable (runOps []) := .init ⟨rfl, rfl, rfl⟩
  have h1 := reachable_after (.startDedicatedTaskThread 1 1) hnew trivial trivial
    (by decide) (by decide)
  have h2 := reachable_after (.preAlloc 1 false true) h1 trivial trivial
    (by decide) (by decide)
  have h3 := reachable_after (.preAlloc 1 false true) h2 trivial trivial
    (by decide) (by decide)
  have h4 := reachable_after (.postAllocSuccess 1 false true 100) h3 trivial rfl (by decide)
    (by decide)
  have h5 := reachable_after (.postAllocSuccess 1 false false 10) h4 trivial rfl (by decide)
    (by decide)
  have h6 := reachable_after (.dealloc 1 false 100) h5 trivial
    ⟨rfl, by decide, by decide⟩ (by decide) (by decide)
  have hbytes : (runOps allocateInside).adaptor.gpuMemoryAllocatedBytes < 0 := by decide
  exact ⟨runOps allocateInside, h6.of_restrict, fun h => absurd h.nonneg (not_le.2 hbytes), hbytes⟩

/-- A recursive allocation inside of none, and behind it one that is counted and the free of the first. -/
theorem not_accounted_of_lost_started :
    ¬(runOps [.startDedicatedTaskThread 1 1, .postAllocSuccess 1 false true 100, .preAlloc 1 false true,
      .postAllocSuccess 1 false false 10, .dealloc 1 false 100]).Accounted := by
  have hnew : (gpuMemory.restrict fun _ _ => True).Reachable (runOps []) := .init ⟨rfl, rfl, rfl⟩
  have hstart := reachable_after (.startDedicatedTaskThread 1 1) hnew trivial trivial
    (by decide) (by decide)
  refine not_accounted_of_lost (c := .op (.postAllocSuccess 1 false true 100)) hstart.of_restrict
    (fun h => ?_) (step_after _ rfl (by decide) (by decide)) (.snoc (.snoc (.snoc (.nil _)
      (step_after (.preAlloc 1 false true) trivial (by decide) (by decide)))
      (step_after (.postAllocSuccess 1 false false 10) rfl (by decide) (by decide)))
      (step_after (.dealloc 1 false 100) ⟨rfl, by decide, by decide⟩ (by decide) (by decide)))
  cases (h (by decide)).1

end GpuMemory

end SparkRapids.ResourceAdaptor
