import SparkRapidsJni.Lib.Lts

/-!
# Threads that apply atomic operations

Threads share a memory and apply their operations to it one at a time, in any interleaving. An
operation that has no result (`none`) stops its thread.

What a state of such a run has in memory is what the operations that were applied make of the memory
at the start, in some order (`Threads.Reachable.exists_perm`): so what all orders agree about holds
whatever the interleaving was.
-/

namespace SparkRapids

/-- A memory and the operations that each thread still has to apply. -/
structure Threads (σ ο : Type*) where
  memory : σ
  pending : List (List ο)

namespace Threads

variable {σ ο : Type*} {apply : σ → ο → Option σ} {start s s' : Threads σ ο}

/-- The thread `i` applies its next operation. -/
def Step (apply : σ → ο → Option σ) (s : Threads σ ο) (i : ℕ) (s' : Threads σ ο) : Prop :=
  ∃ op ops memory, s.pending[i]? = some (op :: ops) ∧ apply s.memory op = some memory ∧
    s' = ⟨memory, s.pending.set i ops⟩

/-- The runs from a state on. -/
def lts (apply : σ → ο → Option σ) (start : Threads σ ο) : Lts (Threads σ ο) ℕ where
  init s := s = start
  step := Step apply

/-- No thread has an operation left. -/
def Done (s : Threads σ ο) : Prop := ∀ ops ∈ s.pending, ops = []

theorem Done.flatten (h : s.Done) : s.pending.flatten = [] :=
  List.flatten_eq_nil_iff.2 h

/-- One operation is taken from the ones of its thread. -/
theorem perm_flatten_set {l : List (List ο)} {i : ℕ} {op : ο} {ops : List ο}
    (h : l[i]? = some (op :: ops)) : (op :: (l.set i ops).flatten).Perm l.flatten := by
  induction l generalizing i with
  | nil => simp at h
  | cons x l ih =>
    cases i with
    | zero =>
      rw [List.getElem?_cons_zero, Option.some.injEq] at h
      subst h
      exact List.Perm.refl _
    | succ i =>
      rw [List.getElem?_cons_succ] at h
      rw [List.set_cons_succ, List.flatten_cons, List.flatten_cons]
      -- the operation is moved over the ones of the first thread
      exact (List.perm_middle.symm).trans ((ih h).append_left x)

/-- The operations that were applied, in their order, are those of the start without the pending
ones. -/
theorem exists_perm (h : (lts apply start).Reachable s) : ∃ applied : List ο,
    (applied ++ s.pending.flatten).Perm start.pending.flatten ∧
      applied.foldlM apply start.memory = some s.memory := by
  induction h with
  | init h0 =>
    obtain rfl := h0
    exact ⟨[], List.Perm.refl _, rfl⟩
  | step _ hstep ih =>
    obtain ⟨applied, hperm, hmemory⟩ := ih
    obtain ⟨op, ops, memory, hop, happly, rfl⟩ := hstep
    refine ⟨applied ++ [op], ?_, ?_⟩
    · rw [List.append_assoc, List.singleton_append]
      exact ((perm_flatten_set hop).append_left applied).trans hperm
    · rw [List.foldlM_append, hmemory]
      simpa using happly

/-! ### Runs to the end -/

theorem length_flatten_set {l : List (List ο)} {i : ℕ} {op : ο} {ops : List ο}
    (h : l[i]? = some (op :: ops)) : (l.set i ops).flatten.length + 1 = l.flatten.length :=
  (perm_flatten_set h).length_eq

theorem exists_pending (h : ¬s.Done) : ∃ (i : ℕ) (op : ο) (ops : List ο),
    s.pending[i]? = some (op :: ops) := by
  unfold Done at h
  push Not at h
  obtain ⟨ops, hmem, hne⟩ := h
  obtain ⟨i, hi⟩ := List.getElem?_of_mem hmem
  obtain ⟨op, ops', rfl⟩ := List.exists_cons_of_ne_nil hne
  exact ⟨i, op, ops', hi⟩

/-- Where no operation gets stuck, a run ends with nothing pending. -/
theorem exists_done (hstuck : ∀ s, (lts apply start).Reachable s → ∀ (i : ℕ) op ops,
    s.pending[i]? = some (op :: ops) → ∃ memory, apply s.memory op = some memory)
    (h : (lts apply start).Reachable s) :
    ∃ s', (lts apply start).Reachable s' ∧ s'.Done := by
  -- by induction on how many operations are left
  induction hn : s.pending.flatten.length generalizing s with
  | zero =>
    refine ⟨s, h, fun ops hops => ?_⟩
    exact List.flatten_eq_nil_iff.1 (List.eq_nil_of_length_eq_zero hn) ops hops
  | succ n ih =>
    by_cases hdone : s.Done
    · exact ⟨s, h, hdone⟩
    obtain ⟨i, op, ops, hop⟩ := exists_pending hdone
    obtain ⟨memory, hmemory⟩ := hstuck s h i op ops hop
    have hlen := length_flatten_set hop
    exact ih (.step h ⟨op, ops, memory, hop, hmemory, rfl⟩) (by
      show (s.pending.set i ops).flatten.length = n
      omega)

/-! ### Operations that always have a result -/

/-- A run of operations that have a result goes on to its end. -/
theorem exists_done_of_total (start : Threads σ ο)
    (htotal : ∀ memory op, ∃ memory', apply memory op = some memory') :
    ∃ s, (lts apply start).Reachable s ∧ s.Done :=
  exists_done (fun s _ _ op _ _ => htotal s.memory op) (.init rfl)

/-- At the end, all operations were applied, in some order. -/
theorem Done.exists_perm (hdone : s.Done) (h : (lts apply start).Reachable s) : ∃ applied : List ο,
    applied.Perm start.pending.flatten ∧ applied.foldlM apply start.memory = some s.memory := by
  obtain ⟨applied, hperm, hmemory⟩ := Threads.exists_perm h
  rw [hdone.flatten, List.append_nil] at hperm
  exact ⟨applied, hperm, hmemory⟩

section Write

variable {κ ν : Type*} [DecidableEq κ] {k : κ} {v : ν}

/-- A place of the memory is written. -/
def write (memory : κ → ν) (op : κ × ν) : Option (κ → ν) := some (Function.update memory op.1 op.2)

theorem foldlM_write {ops : List (κ × ν)} {memory memory' : κ → ν}
    (h : ops.foldlM write memory = some memory') (huniq : ∀ v', (k, v') ∈ ops → v' = v)
    (hmem : (k, v) ∈ ops ∨ memory k = v) : memory' k = v := by
  induction ops generalizing memory with
  | nil =>
    obtain rfl := Option.some.inj h
    exact hmem.resolve_left List.not_mem_nil
  | cons op ops ih =>
    refine @ih (Function.update memory op.1 op.2) h
      (fun v' hv' => huniq v' (List.mem_cons_of_mem _ hv')) ?_
    by_cases hk : op.1 = k
    · -- the place is written now
      right
      obtain rfl := hk
      rw [Function.update_self]
      exact huniq _ (List.mem_cons_self ..)
    · rcases hmem with hmem | hmemory
      · rcases List.mem_cons.1 hmem with rfl | hmem
        · exact absurd rfl hk
        · exact .inl hmem
      · right
        rwa [Function.update_of_ne (Ne.symm hk)]

/-- A place that is written with one value only has it at the end. -/
theorem Done.memory_eq {start s : Threads (κ → ν) (κ × ν)} (hdone : s.Done)
    (h : (lts write start).Reachable s) (hmem : (k, v) ∈ start.pending.flatten)
    (huniq : ∀ v', (k, v') ∈ start.pending.flatten → v' = v) : s.memory k = v := by
  obtain ⟨applied, hperm, hmemory⟩ := hdone.exists_perm h
  exact foldlM_write hmemory (fun v' hv' => huniq v' (hperm.mem_iff.1 hv'))
    (.inl (hperm.mem_iff.2 hmem))

/-- A place that is not written stays as it was. -/
theorem Done.memory_of_not_mem {start s : Threads (κ → ν) (κ × ν)} (hdone : s.Done)
    (h : (lts write start).Reachable s) (hnot : ∀ v, (k, v) ∉ start.pending.flatten) :
    s.memory k = start.memory k := by
  obtain ⟨applied, hperm, hmemory⟩ := hdone.exists_perm h
  exact foldlM_write hmemory (fun v hv => absurd (hperm.mem_iff.1 hv) (hnot v)) (.inr rfl)

end Write

end Threads

end SparkRapids
