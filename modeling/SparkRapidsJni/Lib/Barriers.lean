import SparkRapidsJni.Lib.Threads

/-!
# Threads with barriers

The threads of a block run in phases. In a phase they apply their operations in any interleaving, and
no thread goes on to the next phase before all of them have come to its barrier.

Where the operations of different threads of a phase commute, the interleaving does not matter: what
a run has in memory at its end is what the phases leave if their threads run one behind the other
(`Barriers.Done.memory_eq`).
-/

namespace SparkRapids

namespace Threads

variable {σ ο : Type*} {f : σ → ο → σ}

/-- An operation that always has a result. -/
def total (f : σ → ο → σ) (memory : σ) (op : ο) : Option σ := some (f memory op)

/-- Operations of different threads commute. -/
def Commute (f : σ → ο → σ) (pending : List (List ο)) : Prop :=
  pending.Pairwise fun ops ops' => ∀ a ∈ ops, ∀ b ∈ ops', ∀ m, f (f m a) b = f (f m b) a

/-- An operation moves over the ones it commutes with. -/
theorem foldl_commute {ops : List ο} {op : ο} (h : ∀ a ∈ ops, ∀ m, f (f m a) op = f (f m op) a)
    (m : σ) : ops.foldl f (f m op) = f (ops.foldl f m) op := by
  induction ops generalizing m with
  | nil => rfl
  | cons a ops ih =>
    rw [List.foldl_cons, List.foldl_cons, ← h a (List.mem_cons_self ..) m]
    exact ih (fun a ha => h a (List.mem_cons_of_mem _ ha)) (f m a)

/-- The operation of a thread is taken out of the ones that are pending. -/
theorem Commute.set {l : List (List ο)} (hc : Commute f l) {i : ℕ} {op : ο} {ops : List ο}
    (h : l[i]? = some (op :: ops)) (m : σ) :
    Commute f (l.set i ops) ∧ (l.set i ops).flatten.foldl f (f m op) = l.flatten.foldl f m := by
  induction l generalizing i m with
  | nil => simp at h
  | cons x l ih =>
    obtain ⟨hx, hl⟩ := List.pairwise_cons.1 hc
    cases i with
    | zero =>
      rw [List.getElem?_cons_zero, Option.some.injEq] at h
      subst h
      exact ⟨List.pairwise_cons.2 ⟨fun y hy a ha => hx y hy a (List.mem_cons_of_mem _ ha), hl⟩, rfl⟩
    | succ i =>
      rw [List.getElem?_cons_succ] at h
      have hmem : op :: ops ∈ l := List.mem_of_getElem? h
      rw [List.set_cons_succ, List.flatten_cons, List.flatten_cons, List.foldl_append,
        List.foldl_append]
      constructor
      · refine List.pairwise_cons.2 ⟨fun y hy a ha b hb => ?_, (ih hl h m).1⟩
        -- a thread has no operations that it had not before
        rcases List.mem_or_eq_of_mem_set hy with hy | rfl
        · exact hx y hy a ha b hb
        · exact hx _ hmem a ha b (List.mem_cons_of_mem _ hb)
      · rw [foldl_commute fun a ha m => hx _ hmem a ha op (List.mem_cons_self ..) m]
        exact (ih hl h _).2

end Threads

/-- The threads in their phase, and the phases behind the next barriers. -/
structure Barriers (σ ο : Type*) where
  current : Threads σ ο
  later : List (List (List ο))

namespace Barriers

variable {σ ο : Type*} {f : σ → ο → σ} {memory : σ} {phases : List (List (List ο))}
  {s s' : Barriers σ ο}

/-- A thread applies its next operation, or all of them have come to the barrier. -/
inductive Step (f : σ → ο → σ) : Barriers σ ο → Option ℕ → Barriers σ ο → Prop where
  | thread {current current' : Threads σ ο} {later : List (List (List ο))} {i : ℕ}
    (h : Threads.Step (Threads.total f) current i current') :
    Step f ⟨current, later⟩ (some i) ⟨current', later⟩
  | barrier {current : Threads σ ο} {phase : List (List ο)} {later : List (List (List ο))}
    (h : current.Done) : Step f ⟨current, phase :: later⟩ none ⟨⟨current.memory, phase⟩, later⟩

/-- The runs of a block through its phases. -/
def lts (f : σ → ο → σ) (memory : σ) (phases : List (List (List ο))) :
    Lts (Barriers σ ο) (Option ℕ) where
  init s := s = ⟨⟨memory, []⟩, phases⟩
  step := Step f

/-- No thread has an operation left, and there is no barrier left. -/
def Done (s : Barriers σ ο) : Prop := s.current.Done ∧ s.later = []

/-- What the threads of a phase leave one behind the other. -/
def runPhase (f : σ → ο → σ) (memory : σ) (phase : List (List ο)) : σ := phase.flatten.foldl f memory

/-- What the phases leave one behind the other. -/
def runPhases (f : σ → ο → σ) (memory : σ) (phases : List (List (List ο))) : σ :=
  phases.foldl (runPhase f) memory

/-- The last thread runs behind the other ones. -/
theorem runPhase_range_succ (memory : σ) (thread : ℕ → List ο) (n : ℕ) :
    runPhase f memory ((List.range (n + 1)).map thread) =
      (thread n).foldl f (runPhase f memory ((List.range n).map thread)) := by
  unfold runPhase
  rw [List.range_succ, List.map_append, List.flatten_append, List.foldl_append]
  exact congrArg (List.foldl f _) (List.append_nil _)

theorem runPhases_append (memory : σ) (phases phases' : List (List (List ο))) :
    runPhases f memory (phases ++ phases') = runPhases f (runPhases f memory phases) phases' :=
  List.foldl_append

/-- Along a run, the operations that are left lead to the same memory. -/
theorem runPhases_eq (hcommute : ∀ phase ∈ phases, Threads.Commute f phase)
    (h : (lts f memory phases).Reachable s) :
    Threads.Commute f s.current.pending ∧ (∀ phase ∈ s.later, Threads.Commute f phase) ∧
      runPhases f (runPhase f s.current.memory s.current.pending) s.later =
        runPhases f memory phases := by
  induction h with
  | init h0 =>
    obtain rfl := h0
    exact ⟨List.Pairwise.nil, hcommute, rfl⟩
  | step _ hstep ih =>
    obtain ⟨hcurrent, hlater, heq⟩ := ih
    cases hstep with
    | thread h =>
      obtain ⟨op, ops, m, hop, happly, rfl⟩ := h
      obtain rfl := Option.some.inj happly
      obtain ⟨hset, hfold⟩ := hcurrent.set hop _
      refine ⟨hset, hlater, ?_⟩
      rw [← heq]
      exact congrArg (runPhases f · _) hfold
    | @barrier current phase later h =>
      refine ⟨hlater _ (List.mem_cons_self ..),
        fun phase hphase => hlater phase (List.mem_cons_of_mem _ hphase), ?_⟩
      rw [← heq]
      show _ = runPhases f (runPhase f (runPhase f current.memory current.pending) phase) later
      unfold runPhase
      rw [h.flatten]
      rfl

/-- Whatever the interleaving was, the memory at the end is that of the phases. -/
theorem Done.memory_eq (hdone : s.Done) (hcommute : ∀ phase ∈ phases, Threads.Commute f phase)
    (h : (lts f memory phases).Reachable s) : s.current.memory = runPhases f memory phases := by
  obtain ⟨-, -, heq⟩ := runPhases_eq hcommute h
  rw [hdone.2] at heq
  unfold runPhase at heq
  rwa [hdone.1.flatten] at heq

/-- The operations of a run are those of its phases. -/
theorem mem_pending (h : (lts f memory phases).Reachable s) :
    (∀ op ∈ s.current.pending.flatten, ∃ phase ∈ phases, op ∈ phase.flatten) ∧
      ∀ phase ∈ s.later, phase ∈ phases := by
  induction h with
  | init h0 =>
    obtain rfl := h0
    exact ⟨fun op hop => absurd hop List.not_mem_nil, fun phase hphase => hphase⟩
  | step _ hstep ih =>
    obtain ⟨hcurrent, hlater⟩ := ih
    cases hstep with
    | thread h =>
      obtain ⟨op, ops, m, hop, -, rfl⟩ := h
      refine ⟨fun op' hop' => hcurrent op' ?_, hlater⟩
      exact (Threads.perm_flatten_set hop).subset (List.mem_cons_of_mem _ hop')
    | barrier h =>
      exact ⟨fun op hop => ⟨_, hlater _ (List.mem_cons_self ..), hop⟩,
        fun phase hphase => hlater phase (List.mem_cons_of_mem _ hphase)⟩

/-- One thread has applied the first ones of its operations. -/
theorem single_thread {ops rest : List ο} {op : ο} {i : ℕ}
    (h : (lts f memory [[ops]]).Reachable s) (hop : s.current.pending[i]? = some (op :: rest)) :
    ∃ before, ops = before ++ op :: rest ∧ s.current.memory = before.foldl f memory := by
  have hstate : s = ⟨⟨memory, []⟩, [[ops]]⟩ ∨ ∃ before rest, ops = before ++ rest ∧
      s = ⟨⟨before.foldl f memory, [rest]⟩, []⟩ := by
    clear hop
    induction h with
    | init h0 => exact .inl h0
    | step _ hstep ih =>
      rcases ih with rfl | ⟨before, rest, rfl, rfl⟩
      · cases hstep with
        | thread h =>
          obtain ⟨op, ops, m, hop, -⟩ := h
          simp at hop
        | barrier h => exact .inr ⟨[], ops, rfl, rfl⟩
      · cases hstep with
        | thread h =>
          obtain ⟨op, ops, m, hop, happly, rfl⟩ := h
          obtain rfl := Option.some.inj happly
          rename_i i
          cases i with
          | zero =>
            obtain rfl := Option.some.inj hop
            refine .inr ⟨before ++ [op], ops, ?_, ?_⟩
            · rw [List.append_assoc, List.singleton_append]
            · rw [List.foldl_append]
              rfl
          | succ i => simp at hop
  rcases hstate with rfl | ⟨before, rest', rfl, rfl⟩
  · simp at hop
  · cases i with
    | zero =>
      obtain rfl := Option.some.inj hop
      exact ⟨before, rfl, rfl⟩
    | succ i => simp at hop

/-- The threads of a phase come to its barrier. -/
theorem exists_phase_done {current : Threads σ ο} {later : List (List (List ο))}
    (h : (lts f memory phases).Reachable ⟨current, later⟩) :
    ∃ current', (lts f memory phases).Reachable ⟨current', later⟩ ∧ current'.Done := by
  -- by induction on how many operations are left
  induction hn : current.pending.flatten.length generalizing current with
  | zero =>
    exact ⟨current, h, List.flatten_eq_nil_iff.1 (List.eq_nil_of_length_eq_zero hn)⟩
  | succ n ih =>
    by_cases hdone : current.Done
    · exact ⟨current, h, hdone⟩
    obtain ⟨i, op, ops, hop⟩ := Threads.exists_pending hdone
    have hlen := Threads.length_flatten_set hop
    refine @ih ⟨f current.memory op, current.pending.set i ops⟩
      (.step h (.thread ⟨op, ops, _, hop, rfl, rfl⟩)) ?_
    show (current.pending.set i ops).flatten.length = n
    omega

/-- Every run goes on to its end. -/
theorem exists_done (h : (lts f memory phases).Reachable s) :
    ∃ s', (lts f memory phases).Reachable s' ∧ s'.Done := by
  obtain ⟨current, later⟩ := s
  induction later generalizing current with
  | nil =>
    obtain ⟨current', hreach, hdone⟩ := exists_phase_done h
    exact ⟨_, hreach, hdone, rfl⟩
  | cons phase later ih =>
    obtain ⟨current', hreach, hdone⟩ := exists_phase_done h
    exact ih _ (.step hreach (.barrier hdone))

end Barriers

end SparkRapids
