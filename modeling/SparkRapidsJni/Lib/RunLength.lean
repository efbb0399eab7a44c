import Mathlib

/-!
# Lists of runs

A list of values, each with how often it occurs, stands for a list in which the value is written so many
times (`decode`). An entry of that list is found by the sums of the numbers: it comes from the first run up
to which there are more entries than before it (`getElem?_decode`).
-/

namespace SparkRapids.RunLength

variable {α : Type*} {l l' : List (α × ℕ)} {k r : ℕ} {run : α × ℕ}

/-- The list that a list of runs stands for. -/
def decode (l : List (α × ℕ)) : List α := l.flatMap fun run => List.replicate run.2 run.1

/-- How many entries there are before a run. -/
def before (l : List (α × ℕ)) (k : ℕ) : ℕ := ((l.map Prod.snd).take k).sum

@[simp] theorem decode_cons (run : α × ℕ) (l : List (α × ℕ)) :
    decode (run :: l) = List.replicate run.2 run.1 ++ decode l := rfl

theorem length_decode (l : List (α × ℕ)) : (decode l).length = (l.map Prod.snd).sum := by
  induction l with
  | nil => rfl
  | cons run l ih => rw [decode_cons, List.length_append, List.length_replicate, ih, List.map_cons,
      List.sum_cons]

@[simp] theorem before_zero (l : List (α × ℕ)) : before l 0 = 0 := rfl

theorem before_cons_succ (run : α × ℕ) (l : List (α × ℕ)) (k : ℕ) :
    before (run :: l) (k + 1) = run.2 + before l k := by
  unfold before
  rw [List.map_cons, List.take_succ_cons, List.sum_cons]

theorem before_succ (hk : l[k]? = some run) : before l (k + 1) = before l k + run.2 := by
  unfold before
  rw [List.take_add_one, List.sum_append, List.getElem?_map, hk]
  simp

theorem before_mono (l : List (α × ℕ)) : Monotone (before l) := by
  refine monotone_nat_of_le_succ fun k => ?_
  unfold before
  rw [List.take_add_one, List.sum_append]
  exact Nat.le_add_right ..

/-- The runs behind do not matter. -/
theorem before_append (hk : k ≤ l.length) : before (l ++ l') k = before l k := by
  unfold before
  rw [List.map_append, List.take_append_of_le_length (by rwa [List.length_map])]

theorem before_length (l : List (α × ℕ)) : before l l.length = (decode l).length := by
  rw [length_decode]
  unfold before
  rw [List.take_of_length_le (by rw [List.length_map])]

/-- The entries from the sum before a run on, up to the sum behind it, are its value. -/
theorem getElem?_decode (hk : l[k]? = some run) (hle : before l k ≤ r)
    (hlt : r < before l (k + 1)) : (decode l)[r]? = some run.1 := by
  induction l generalizing k r with
  | nil => cases hk
  | cons head l ih =>
    rw [decode_cons]
    cases k with
    | zero =>
      obtain rfl := Option.some.inj hk
      rw [before_succ hk, before_zero, Nat.zero_add] at hlt
      rw [List.getElem?_append_left (by rwa [List.length_replicate]), List.getElem?_replicate,
        if_pos hlt]
    | succ k =>
      rw [before_cons_succ] at hle hlt
      rw [List.getElem?_append_right (by rw [List.length_replicate]; omega), List.length_replicate]
      exact ih hk (by omega) (by omega)

/-- Every entry comes from a run. -/
theorem exists_run (hr : r < (decode l).length) :
    ∃ k run, l[k]? = some run ∧ before l k ≤ r ∧ r < before l (k + 1) := by
  induction l generalizing r with
  | nil => exact absurd hr (Nat.not_lt_zero r)
  | cons head l ih =>
    rw [decode_cons, List.length_append, List.length_replicate] at hr
    rcases Nat.lt_or_ge r head.2 with hlt | hge
    · exact ⟨0, head, rfl, Nat.zero_le r, by rwa [before_cons_succ, before_zero, Nat.add_zero]⟩
    · obtain ⟨k, run, hk, hle, hlt⟩ := ih (show r - head.2 < (decode l).length by omega)
      refine ⟨k + 1, run, hk, ?_, ?_⟩
      · rw [before_cons_succ]
        omega
      · rw [before_cons_succ]
        omega

theorem decode_perm (h : l.Perm l') : (decode l).Perm (decode l') := h.flatMap_right _

theorem mem_decode {a : α} : a ∈ decode l ↔ ∃ run ∈ l, run.2 ≠ 0 ∧ a = run.1 := by
  unfold decode
  simp only [List.mem_flatMap, List.mem_replicate]

/-- Runs in order stand for a list in order. -/
theorem pairwise_decode [Preorder α] (h : l.Pairwise fun run run' => run.1 ≤ run'.1) :
    (decode l).Pairwise (· ≤ ·) := by
  induction l with
  | nil => exact List.Pairwise.nil
  | cons run l ih =>
    obtain ⟨hrun, hl⟩ := List.pairwise_cons.1 h
    rw [decode_cons, List.pairwise_append]
    refine ⟨List.pairwise_replicate.2 (.inr le_rfl), ih hl, ?_⟩
    intro a ha b hb
    obtain ⟨run', hmem, -, rfl⟩ := mem_decode.1 hb
    rw [List.eq_of_mem_replicate ha]
    exact hrun run' hmem

end SparkRapids.RunLength
