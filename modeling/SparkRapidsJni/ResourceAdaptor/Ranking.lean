import Mathlib.Data.Prod.Lex
import SparkRapidsJni.ResourceAdaptor.Priority

/-!
# Ranking threads

Asking for a priority may give one out, so the rank of a thread is a value and a new table. What
makes ranks comparable all the same is that a priority, once asked for, stays (`Knows.asked`): after
a loop over the threads, each of the candidates it asked has one rank, the one the final table
says. `pickThread_best` is the result: the loop picks a candidate of extreme rank.
-/

namespace SparkRapids.ResourceAdaptor

open Std (ExtTreeMap ExtTreeSet)
open Relation (ReflTransGen)

namespace TaskPriority

variable {p p' : TaskPriority} {id id' v : Int}

/-- `p'` comes from `p` by asking for priorities. -/
def Asked : TaskPriority → TaskPriority → Prop :=
  ReflTransGen fun p p' => ∃ id, p' = (p.getTaskPriority id).2

theorem Asked.refl (p : TaskPriority) : p.Asked p := ReflTransGen.refl

theorem Asked.ask (p : TaskPriority) (id : Int) : p.Asked (p.getTaskPriority id).2 :=
  ReflTransGen.single ⟨id, rfl⟩

theorem Asked.trans {p'' : TaskPriority} (h : p.Asked p') (h' : p'.Asked p'') : p.Asked p'' :=
  ReflTransGen.trans h h'

/-- The table has the priority `v` for the task. -/
def Knows (p : TaskPriority) (id v : Int) : Prop :=
  if id = -1 then v = 2 ^ 63 - 1 else p.attemptPriorities[id]? = some v

/-- Asking for a known priority returns it and leaves the table alone. -/
theorem Knows.getTaskPriority (h : p.Knows id v) : p.getTaskPriority id = (v, p) := by
  unfold Knows at h
  unfold TaskPriority.getTaskPriority
  by_cases hid : id = -1
  · rw [if_pos hid] at h ⊢
    rw [h]
  · rw [if_neg hid] at h ⊢
    simp only [h]

/-- What is returned is known from then on. -/
theorem knows_getTaskPriority (p : TaskPriority) (id : Int) :
    (p.getTaskPriority id).2.Knows id (p.getTaskPriority id).1 := by
  unfold Knows TaskPriority.getTaskPriority
  by_cases hid : id = -1
  · rw [if_pos hid, if_pos hid]
  · rw [if_neg hid, if_neg hid]
    cases hp : p.attemptPriorities[id]? with
    | some v => exact hp
    | none => exact ExtTreeMap.getElem?_insert_self

/-- A task that is not known gets the next priority. -/
theorem getTaskPriority_of_none (hid : id ≠ -1) (h : p.attemptPriorities[id]? = none) :
    p.getTaskPriority id = (p.nextTaskPriority, {
      nextTaskPriority := p.nextTaskPriority - 1
      attemptPriorities := p.attemptPriorities.insert id p.nextTaskPriority }) := by
  unfold TaskPriority.getTaskPriority
  rw [if_neg hid, h]

theorem Knows.ask (h : p.Knows id v) (id' : Int) : (p.getTaskPriority id').2.Knows id v := by
  unfold Knows at h ⊢
  by_cases hid : id = -1
  · rw [if_pos hid] at h ⊢
    exact h
  · rw [if_neg hid] at h ⊢
    unfold TaskPriority.getTaskPriority
    by_cases hid' : id' = -1
    · rw [if_pos hid']
      exact h
    · rw [if_neg hid']
      cases hp : p.attemptPriorities[id']? with
      | some v' => exact h
      | none =>
        -- the task that gets a priority is not the one that has one
        have hne : id' ≠ id := by
          rintro rfl
          rw [hp] at h
          cases h
        exact (ExtTreeMap.getElem?_insert_eq ..).trans (by rw [if_neg hne, h])

theorem Knows.asked (h : p.Knows id v) (hp : p.Asked p') : p'.Knows id v := by
  induction hp with
  | refl => exact h
  | tail _ hask ih =>
    obtain ⟨id', rfl⟩ := hask
    exact ih.ask id'

end TaskPriority

namespace ThreadPriority

/-- The order of `operator<`: by the priority of the task, then by the thread id. -/
def rank (a : ThreadPriority) : ℤ ×ₗ ℤ := toLex (a.taskPriority, a.threadId)

theorem lt_iff_rank {a b : ThreadPriority} : a.lt b = true ↔ a.rank < b.rank := by
  unfold lt rank
  rw [Prod.Lex.toLex_lt_toLex]
  split_ifs with h1 h2
  · exact iff_of_true rfl (.inl h1)
  · simp [h2]
  · exact iff_of_false (by simp) (by rintro (h | h); exacts [h1 h, h2 h.1])

theorem rank_injective {a b : ThreadPriority} (h : a.rank = b.rank) : a = b := by
  have h' : (a.taskPriority, a.threadId) = (b.taskPriority, b.threadId) := toLex.injective h
  cases a
  cases b
  cases h'
  rfl

end ThreadPriority

namespace FullThreadState

variable {t : FullThreadState} {p p' : TaskPriority}

/-- A thread that has been asked has the same rank ever after. -/
theorem priority_asked (h : (t.priority p).2.Asked p') :
    t.priority p' = ((t.priority p).1, p') := by
  have hknows := (p.knows_getTaskPriority t.priorityTaskId).asked h
  unfold priority
  rw [hknows.getTaskPriority]

theorem asked_priority (t : FullThreadState) (p : TaskPriority) : p.Asked (t.priority p).2 :=
  .ask p t.priorityTaskId

end FullThreadState

/-! ### The picked thread -/

section PickThread

variable {prefers : ThreadPriority → ThreadPriority → Bool} {cand : FullThreadState → Bool}
  {ts : List (Int × FullThreadState)} {best : Option (Int × ThreadPriority)} {p : TaskPriority}

/-- One turn of the loop, on a candidate. -/
def keepBest (prefers : ThreadPriority → ThreadPriority → Bool) (key : Int)
    (current : ThreadPriority) : Option (Int × ThreadPriority) → Int × ThreadPriority
  | none => (key, current)
  | some (k, b) => if prefers b current then (key, current) else (k, b)

theorem pickThread_cons_candidate {key : Int} {t : FullThreadState} (h : cand t = true) :
    pickThread prefers cand ((key, t) :: ts) best p =
      pickThread prefers cand ts (some (keepBest prefers key (t.priority p).1 best))
        (t.priority p).2 := by
  rw [pickThread, if_pos h]
  dsimp only
  cases best with
  | none => rfl
  | some kb =>
    obtain ⟨k, b⟩ := kb
    dsimp only [keepBest]
    split_ifs
    · rfl
    · rfl

theorem pickThread_cons_other {key : Int} {t : FullThreadState} (h : ¬cand t = true) :
    pickThread prefers cand ((key, t) :: ts) best p =
      pickThread prefers cand ts best p := by
  rw [pickThread, if_neg h]

/-- The loop only asks for priorities. -/
theorem asked_pickThread : p.Asked (pickThread prefers cand ts best p).2 := by
  induction ts generalizing best p with
  | nil => exact .refl p
  | cons kt rest ih =>
    obtain ⟨key, t⟩ := kt
    by_cases h : cand t = true
    · rw [pickThread_cons_candidate h]
      exact (t.asked_priority p).trans ih
    · rw [pickThread_cons_other h]
      exact ih

theorem asked_of_pickThread {r : Option (Int × ThreadPriority)} {p' : TaskPriority}
    (h : pickThread prefers cand ts best p = (r, p')) : p.Asked p' := by
  rw [show p' = (pickThread prefers cand ts best p).2 by rw [h]]
  exact asked_pickThread

variable {α : Type*} [LinearOrder α] (score : ThreadPriority → α)

theorem score_keepBest (hscore : ∀ b c, prefers b c = true ↔ score b < score c) (key : Int)
    (current : ThreadPriority) (best : Option (Int × ThreadPriority)) :
    score current ≤ score (keepBest prefers key current best).2 ∧
      ∀ kb, best = some kb → score kb.2 ≤ score (keepBest prefers key current best).2 := by
  cases best with
  | none => exact ⟨le_rfl, fun kb hkb => by cases hkb⟩
  | some kb0 =>
    obtain ⟨k, b⟩ := kb0
    dsimp only [keepBest]
    by_cases h : prefers b current = true
    · rw [if_pos h]
      refine ⟨le_rfl, ?_⟩
      rintro _ ⟨⟩
      exact ((hscore b current).1 h).le
    · rw [if_neg h]
      refine ⟨not_lt.1 (mt (hscore b current).2 h), ?_⟩
      rintro _ ⟨⟩
      exact le_rfl

/-- No candidate ranks above the picked thread, and neither does what the loop started with. -/
theorem pickThread_best (hscore : ∀ b c, prefers b c = true ↔ score b < score c) {key : Int}
    {prio : ThreadPriority} {p' : TaskPriority}
    (h : pickThread prefers cand ts best p = (some (key, prio), p')) :
    (∀ kt ∈ ts, cand kt.2 = true → score (kt.2.priority p').1 ≤ score prio) ∧
      ∀ kb, best = some kb → score kb.2 ≤ score prio := by
  induction ts generalizing best p with
  | nil =>
    obtain ⟨rfl, rfl⟩ := Prod.mk.inj h
    refine ⟨fun kt hkt => absurd hkt List.not_mem_nil, ?_⟩
    rintro _ ⟨⟩
    exact le_rfl
  | cons kt rest ih =>
    obtain ⟨k, t⟩ := kt
    by_cases hc : cand t = true
    · rw [pickThread_cons_candidate hc] at h
      obtain ⟨hrest, hbest⟩ := ih h
      obtain ⟨hcurrent, hold⟩ := score_keepBest score hscore k (t.priority p).1 best
      have hkept := hbest _ rfl
      refine ⟨fun kt' hmem hc' => ?_, fun kb hkb => (hold kb hkb).trans hkept⟩
      rcases List.mem_cons.1 hmem with rfl | hmem
      · -- the table the loop ends with still has the priority this turn asked for
        rw [FullThreadState.priority_asked (asked_of_pickThread h)]
        exact hcurrent.trans hkept
      · exact hrest kt' hmem hc'
    · rw [pickThread_cons_other hc] at h
      obtain ⟨hrest, hbest⟩ := ih h
      refine ⟨fun kt' hmem hc' => ?_, hbest⟩
      rcases List.mem_cons.1 hmem with rfl | hmem
      · exact absurd hc' hc
      · exact hrest kt' hmem hc'

/-- The picked thread is a candidate, with the rank the final table gives it. -/
theorem pickThread_candidate {key : Int} {prio : ThreadPriority} {p' : TaskPriority}
    (h : pickThread prefers cand ts none p = (some (key, prio), p')) :
    ∃ t, (key, t) ∈ ts ∧ cand t = true ∧ prio = (t.priority p').1 := by
  -- the best is the one at the start, or a thread of the list
  have main : ∀ {best : Option (Int × ThreadPriority)} {p : TaskPriority},
      pickThread prefers cand ts best p = (some (key, prio), p') →
      best = some (key, prio) ∨
        ∃ t, (key, t) ∈ ts ∧ cand t = true ∧ prio = (t.priority p').1 := by
    clear h
    induction ts with
    | nil => exact fun h => .inl (congrArg Prod.fst h)
    | cons kt rest ih =>
      obtain ⟨k, t⟩ := kt
      intro best p h
      by_cases hc : cand t = true
      · rw [pickThread_cons_candidate hc] at h
        rcases ih h with heq | ⟨u, hmem, hu, hprio⟩
        · have hcurrent : (k, (t.priority p).1) = (key, prio) →
              ∃ u, (key, u) ∈ (k, t) :: rest ∧ cand u = true ∧ prio = (u.priority p').1 := by
            rintro ⟨⟩
            exact ⟨t, .head _, hc, by rw [FullThreadState.priority_asked (asked_of_pickThread h)]⟩
          cases best with
          | none => exact .inr (hcurrent (Option.some_injective _ heq))
          | some kb =>
            obtain ⟨k0, b⟩ := kb
            dsimp only [keepBest] at heq
            split_ifs at heq
            · exact .inr (hcurrent (Option.some_injective _ heq))
            · exact .inl heq
        · exact .inr ⟨u, .tail _ hmem, hu, hprio⟩
      · rw [pickThread_cons_other hc] at h
        rcases ih h with heq | ⟨u, hmem, hu, hprio⟩
        · exact .inl heq
        · exact .inr ⟨u, .tail _ hmem, hu, hprio⟩
  rcases main h with hnone | hsome
  · cases hnone
  · exact hsome

end PickThread

end SparkRapids.ResourceAdaptor
