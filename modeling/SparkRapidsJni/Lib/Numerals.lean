import Mathlib

/-!
# Numerals

Numbers written in a base, the most significant digit first, as text has them. `readDigits` is the number
of a list of digits, by Horner's rule, so that it is what a scanner has accumulated; it is `Nat.ofDigits` of
the list from its other end (`readDigits_eq_ofDigits`). `writeDigits` is the numeral of a number without
leading zeros, from which the number is read back (`readDigits_writeDigits`).
-/

namespace SparkRapids.Numerals

variable {base n d : ℕ} {ds ds' : List ℕ}

/-- The number of a list of digits. -/
def readDigits (base : ℕ) (ds : List ℕ) : ℕ := ds.foldl (fun n d => n * base + d) 0

/-- The digits of a number, `[0]` for zero. -/
def writeDigits (base n : ℕ) : List ℕ := if n = 0 then [0] else (Nat.digits base n).reverse

/-! ### Reading -/

@[simp] theorem readDigits_nil : readDigits base [] = 0 := rfl

/-- One more digit. -/
theorem readDigits_concat (ds : List ℕ) (d : ℕ) :
    readDigits base (ds ++ [d]) = readDigits base ds * base + d := by
  unfold readDigits
  rw [List.foldl_append]
  rfl

theorem readDigits_eq_ofDigits (ds : List ℕ) : readDigits base ds = Nat.ofDigits base ds.reverse := by
  induction ds using List.reverseRecOn with
  | nil => rfl
  | append_singleton ds d ih =>
    rw [readDigits_concat, ih, List.reverse_append, List.reverse_singleton, List.singleton_append,
      Nat.ofDigits_cons]
    ring

theorem readDigits_append (ds ds' : List ℕ) :
    readDigits base (ds ++ ds') = readDigits base ds * base ^ ds'.length + readDigits base ds' := by
  induction ds' using List.reverseRecOn with
  | nil => simp
  | append_singleton ds' d ih =>
    rw [← List.append_assoc, readDigits_concat, ih, readDigits_concat, List.length_append,
      List.length_singleton, pow_succ]
    ring

theorem readDigits_cons (d : ℕ) (ds : List ℕ) :
    readDigits base (d :: ds) = d * base ^ ds.length + readDigits base ds := by
  have h := @readDigits_append base [d] ds
  rwa [List.singleton_append, show readDigits base [d] = d by simp [readDigits]] at h

/-- Scanning on from a number. -/
theorem foldl_eq (n : ℕ) (ds : List ℕ) :
    ds.foldl (fun n d => n * base + d) n = n * base ^ ds.length + readDigits base ds := by
  induction ds generalizing n with
  | nil => simp
  | cons d ds ih =>
    rw [List.foldl_cons, ih, readDigits_cons, List.length_cons, pow_succ]
    ring

theorem readDigits_lt (h : ∀ d ∈ ds, d < base) : readDigits base ds < base ^ ds.length := by
  induction ds using List.reverseRecOn with
  | nil => exact Nat.one_pos
  | append_singleton ds d ih =>
    have hd : d < base := h d (by simp)
    have hds := ih fun d hd => h d (List.mem_append_left _ hd)
    rw [readDigits_concat, List.length_append, List.length_singleton, pow_succ]
    calc readDigits base ds * base + d < (readDigits base ds + 1) * base := by
          rw [add_mul, one_mul]
          omega
      _ ≤ base ^ ds.length * base := Nat.mul_le_mul_right base hds

/-! ### Writing -/

theorem writeDigits_zero : writeDigits base 0 = [0] := if_pos rfl

theorem writeDigits_of_pos (h : n ≠ 0) : writeDigits base n = (Nat.digits base n).reverse := if_neg h

theorem writeDigits_ne_nil (base n : ℕ) : writeDigits base n ≠ [] := by
  unfold writeDigits
  split_ifs with h
  · simp
  · rw [Ne, List.reverse_eq_nil_iff, Nat.digits_eq_nil_iff_eq_zero]
    exact h

/-- The last digit is the remainder, before it is the numeral of the quotient. -/
theorem digits_reverse_eq (hbase : 2 ≤ base) (h : n ≠ 0) :
    (Nat.digits base n).reverse = (Nat.digits base (n / base)).reverse ++ [n % base] := by
  rw [Nat.digits_def' hbase (Nat.pos_of_ne_zero h), List.reverse_cons]

theorem writeDigits_lt (hbase : 2 ≤ base) (hd : d ∈ writeDigits base n) : d < base := by
  unfold writeDigits at hd
  split_ifs at hd
  · obtain rfl := List.mem_singleton.1 hd
    omega
  · exact Nat.digits_lt_base hbase (List.mem_reverse.1 hd)

/-- A numeral is read back. -/
theorem readDigits_writeDigits (base n : ℕ) : readDigits base (writeDigits base n) = n := by
  unfold writeDigits
  split_ifs with h
  · rw [h]
    simp [readDigits]
  · rw [readDigits_eq_ofDigits, List.reverse_reverse, Nat.ofDigits_digits]

end SparkRapids.Numerals
