import SparkRapidsJni.Lib.Limbs

/-!
# Signed numbers in words

A signed number in two's complement is a list of words, the most significant word first. Its first
word can be left out when it only continues the sign of the second one (`signWord`). A list without
such a word (`Minimal`) is the shortest one of its number: `n` words reach from `-(2 ^ (w * n - 1))`
to below `2 ^ (w * n - 1)` (`signed_bounds`), and a minimal list of one more word is beyond that
(`Minimal.beyond`).
-/

namespace SparkRapids.TwosComplement

open Limbs

variable {w : ℕ}

/-! ### Unsigned numbers -/

/-- The `n` lowest words of a number, the least significant word first. -/
@[grind] def words : ℕ → ℕ → List (BitVec w)
  | 0, _ => []
  | n + 1, v => BitVec.ofNat w v :: words n (v / 2 ^ w)

@[simp] theorem length_words (n v : ℕ) : (words n v : List (BitVec w)).length = n := by
  induction n generalizing v with
  | zero => rfl
  | succ n ih => exact congrArg (· + 1) (ih _)

theorem value_words (n v : ℕ) : value (words n v : List (BitVec w)) = v % 2 ^ (w * n) := by
  induction n generalizing v with
  | zero => exact (Nat.mod_one v).symm
  | succ n ih =>
    calc value (words (n + 1) v : List (BitVec w))
        = v % 2 ^ w + 2 ^ w * (v / 2 ^ w % 2 ^ (w * n)) := by
          rw [words, value_cons, ih, BitVec.toNat_ofNat]
      _ = v % (2 ^ w * 2 ^ (w * n)) := Nat.mod_mul.symm
      _ = v % 2 ^ (w * (n + 1)) := by rw [← pow_add, Nat.mul_succ, Nat.add_comm]

theorem words_value (xs : List (BitVec w)) : words xs.length (value xs) = xs := by
  induction xs with
  | nil => rfl
  | cons x xs ih =>
    have hdiv : value (x :: xs) / 2 ^ w = value xs := by
      rw [value_cons, Nat.add_mul_div_left _ _ (Nat.two_pow_pos w), Nat.div_eq_of_lt x.isLt,
        Nat.zero_add]
    have hlow : BitVec.ofNat w (value (x :: xs)) = x := by
      apply BitVec.eq_of_toNat_eq
      rw [BitVec.toNat_ofNat, value_cons, Nat.add_mul_mod_self_left, Nat.mod_eq_of_lt x.isLt]
    rw [List.length_cons, words, hdiv, ih, hlow]

/-! ### Signed numbers -/

/-- The signed number that words spell, the most significant word first. -/
def signed : List (BitVec w) → ℤ
  | [] => 0
  | x :: xs => x.toInt * 2 ^ (w * xs.length) + value xs.reverse

/-- The word that continues a sign. -/
def signWord (negative : Bool) : BitVec w := if negative then BitVec.allOnes w else 0

/-- The first word is not the sign of the second one. -/
def Minimal : List (BitVec w) → Prop
  | [] => False
  | [_] => True
  | x :: y :: _ => x ≠ signWord y.msb

/-- No other words that spell the number are fewer. -/
structure IsShortest (xs : List (BitVec w)) (z : ℤ) : Prop where
  ne_nil : xs ≠ []
  signed_eq : signed xs = z
  length_le : ∀ ys : List (BitVec w), ys ≠ [] → signed ys = z → xs.length ≤ ys.length

theorem value_reverse_cons (x : BitVec w) (xs : List (BitVec w)) :
    value (x :: xs).reverse = value xs.reverse + 2 ^ (w * xs.length) * x.toNat := by
  rw [List.reverse_cons, value_append, List.length_reverse, value_cons, value_nil, Nat.mul_zero,
    Nat.add_zero]

theorem value_reverse_lt (xs : List (BitVec w)) : value xs.reverse < 2 ^ (w * xs.length) := by
  have hlt := value_lt xs.reverse
  rwa [List.length_reverse] at hlt

theorem two_pow_succ_words (w n : ℕ) : (2 : ℤ) ^ (w * (n + 1)) = 2 ^ w * 2 ^ (w * n) := by
  rw [← pow_add, Nat.mul_succ, Nat.add_comm]

/-- The sign of a number is that of its first word. -/
theorem signed_neg_iff (x : BitVec w) (xs : List (BitVec w)) :
    signed (x :: xs) < 0 ↔ x.msb = true := by
  have hvalue : (value xs.reverse : ℤ) < 2 ^ (w * xs.length) := by
    exact_mod_cast value_reverse_lt xs
  have hnonneg : (0 : ℤ) ≤ value xs.reverse := Int.natCast_nonneg _
  have hpos : (0 : ℤ) < 2 ^ (w * xs.length) := hnonneg.trans_lt hvalue
  rw [BitVec.msb_eq_toInt, decide_eq_true_iff, signed]
  constructor
  · intro h
    by_contra! hx
    have hmul := mul_nonneg hx hpos.le
    linarith
  · intro h
    have hx : x.toInt ≤ -1 := by omega
    have hmul := mul_le_mul_of_nonneg_right hx hpos.le
    linarith

/-! #### The word of a sign -/

section

variable (hw : 0 < w)
include hw

theorem toInt_signWord (negative : Bool) :
    (signWord negative : BitVec w).toInt = if negative then -1 else 0 := by
  cases negative with
  | true => exact BitVec.toInt_allOnes.trans (if_pos hw)
  | false => exact BitVec.toInt_zero

@[simp] theorem msb_signWord (negative : Bool) : (signWord negative : BitVec w).msb = negative := by
  cases negative with
  | true => exact BitVec.msb_allOnes hw
  | false => exact BitVec.msb_zero

theorem signed_signWord_cons (x : BitVec w) (xs : List (BitVec w)) :
    signed (signWord x.msb :: x :: xs) = signed (x :: xs) := by
  have hx := BitVec.toInt_eq_msb_cond x
  rw [signed, signed, value_reverse_cons, toInt_signWord hw, List.length_cons, two_pow_succ_words, hx]
  push_cast
  cases x.msb with
  | true =>
    rw [if_pos rfl, if_pos rfl]
    ring
  | false =>
    rw [if_neg Bool.false_ne_true, if_neg Bool.false_ne_true]
    ring

/-- The words of the sign before a number do not change it. -/
theorem signed_replicate_append (n : ℕ) (x : BitVec w) (xs : List (BitVec w)) :
    signed (List.replicate n (signWord x.msb) ++ x :: xs) = signed (x :: xs) := by
  induction n with
  | zero => rfl
  | succ n ih =>
    rw [← ih]
    cases n with
    | zero => exact signed_signWord_cons hw x xs
    | succ n =>
      -- the word behind the first one is the sign itself
      have hcons := signed_signWord_cons hw (signWord x.msb : BitVec w)
        (List.replicate n (signWord x.msb) ++ x :: xs)
      rwa [msb_signWord hw] at hcons

/-! #### The range of some words -/

theorem signed_bounds (x : BitVec w) (xs : List (BitVec w)) :
    -2 ^ (w * (xs.length + 1)) ≤ 2 * signed (x :: xs) ∧
      2 * signed (x :: xs) < 2 ^ (w * (xs.length + 1)) := by
  obtain ⟨v, rfl⟩ := Nat.exists_eq_succ_of_ne_zero hw.ne'
  have hlow : (-2 ^ (v + 1) : ℤ) ≤ 2 * x.toInt := BitVec.le_two_mul_toInt
  have hhigh : 2 * x.toInt < (2 ^ (v + 1) : ℤ) := BitVec.two_mul_toInt_lt
  have hvalue : (value xs.reverse : ℤ) < 2 ^ ((v + 1) * xs.length) := by
    exact_mod_cast value_reverse_lt xs
  have hnonneg : (0 : ℤ) ≤ value xs.reverse := Int.natCast_nonneg _
  rw [two_pow_succ_words, signed]
  rw [pow_succ] at hlow hhigh ⊢
  -- one more than the first word is still at most half of its range
  have hlow' : -2 ^ v ≤ x.toInt := by linarith
  have hhigh' : x.toInt + 1 ≤ 2 ^ v := by linarith
  generalize (2 : ℤ) ^ ((v + 1) * xs.length) = b at hvalue ⊢
  have hb : 0 < b := hnonneg.trans_lt hvalue
  constructor
  · have hmul := mul_le_mul_of_nonneg_right hlow' hb.le
    linarith
  · have hmul := mul_le_mul_of_nonneg_right hhigh' hb.le
    linarith

/-- A minimal list spells a number that one word less does not reach. -/
theorem Minimal.beyond {x y : BitVec w} {xs : List (BitVec w)} (h : Minimal (x :: y :: xs)) :
    2 * signed (x :: y :: xs) < -2 ^ (w * (xs.length + 1)) ∨
      2 ^ (w * (xs.length + 1)) ≤ 2 * signed (x :: y :: xs) := by
  have hvalue : (value (y :: xs).reverse : ℤ) < 2 ^ (w * (xs.length + 1)) := by
    exact_mod_cast value_reverse_lt (y :: xs)
  have hnonneg : (0 : ℤ) ≤ value (y :: xs).reverse := Int.natCast_nonneg _
  have hsigned : signed (x :: y :: xs) =
      x.toInt * 2 ^ (w * (xs.length + 1)) + value (y :: xs).reverse := rfl
  rw [hsigned]
  -- a first word of its own sign is beyond the range whatever follows
  rcases lt_trichotomy x.toInt 0 with hneg | hzero | hpos
  · by_cases hone : x.toInt = -1
    · have hy : y.msb = false := by
        by_contra hmsb
        rw [Bool.not_eq_false] at hmsb
        refine h (BitVec.eq_of_toInt_eq ?_)
        rw [toInt_signWord hw, hmsb, if_pos rfl, hone]
      have hbounds := (signed_bounds hw y xs).2
      have hunsigned : signed (y :: xs) = value (y :: xs).reverse := by
        rw [← signed_signWord_cons hw, hy, signed, toInt_signWord hw, if_neg Bool.false_ne_true,
          zero_mul, zero_add]
      left
      rw [hunsigned] at hbounds
      rw [hone]
      linarith
    · have hle : x.toInt ≤ -2 := by omega
      have hmul := mul_le_mul_of_nonneg_right hle (hnonneg.trans_lt hvalue).le
      left
      linarith
  · have hy : y.msb = true := by
      by_contra hmsb
      rw [Bool.not_eq_true] at hmsb
      refine h (BitVec.eq_of_toInt_eq ?_)
      rw [toInt_signWord hw, hmsb, if_neg Bool.false_ne_true, hzero]
    have hbounds := (signed_bounds hw y xs).1
    have hunsigned : signed (y :: xs) =
        value (y :: xs).reverse - 2 ^ (w * (xs.length + 1)) := by
      rw [← signed_signWord_cons hw, hy, signed, toInt_signWord hw, if_pos rfl]
      rw [List.length_cons]
      ring
    right
    rw [hunsigned] at hbounds
    rw [hzero]
    linarith
  · have hle : 1 ≤ x.toInt := hpos
    have hmul := mul_le_mul_of_nonneg_right hle (hnonneg.trans_lt hvalue).le
    right
    linarith

/-- A minimal list is the shortest one of its number. -/
theorem Minimal.isShortest {xs : List (BitVec w)} (h : Minimal xs) : IsShortest xs (signed xs) where
  ne_nil := by
    rintro rfl
    exact h
  signed_eq := rfl
  length_le := by
    intro ys hys heq
    obtain ⟨y, ys, rfl⟩ := List.exists_cons_of_ne_nil hys
    by_contra! hlt
    match xs, h with
    | [_], _ => exact absurd hlt (by simp)
    | x :: x' :: xs, h =>
      -- fewer words reach no further than one word less
      have hpow : (2 : ℤ) ^ (w * (ys.length + 1)) ≤ 2 ^ (w * (xs.length + 1)) := by
        apply pow_le_pow_right₀ one_le_two
        apply Nat.mul_le_mul_left
        exact Nat.le_of_lt_succ hlt
      obtain ⟨hlow, hhigh⟩ := signed_bounds hw y ys
      rcases h.beyond hw with hbeyond | hbeyond
      · linarith
      · linarith

end

/-! #### The words of a number -/

/-- The words of a two's-complement number. -/
theorem signed_reverse_words (hw : 0 < w) {n : ℕ} (hn : n ≠ 0) (v : BitVec (w * n)) :
    signed (words n v.toNat : List (BitVec w)).reverse = v.toInt := by
  obtain ⟨x, xs, hxs⟩ : ∃ x xs, (words n v.toNat : List (BitVec w)).reverse = x :: xs := by
    apply List.exists_cons_of_ne_nil
    intro hnil
    have hlen := congrArg List.length hnil
    rw [List.length_reverse, length_words] at hlen
    exact hn hlen
  have hlen : xs.length + 1 = n := by
    rw [← List.length_cons (a := x), ← hxs, List.length_reverse, length_words]
  have hvalue : value (x :: xs).reverse = v.toNat := by
    rw [← hxs, List.reverse_reverse, value_words, Nat.mod_eq_of_lt v.isLt]
  have hx := BitVec.toInt_eq_msb_cond x
  have hbounds := signed_bounds hw x xs
  rw [hlen] at hbounds
  -- the words differ from the unsigned number by a multiple of the modulus, and are in its range
  have hsigned : signed (x :: xs) =
      v.toNat + (2 ^ (w * n) : ℕ) * (if x.msb = true then -1 else 0 : ℤ) := by
    rw [← hvalue, value_reverse_cons, signed, hx, ← hlen]
    push_cast
    rw [two_pow_succ_words]
    split_ifs <;> ring
  rw [hxs, BitVec.toInt_eq_toNat_bmod]
  calc signed (x :: xs)
      = (signed (x :: xs)).bmod (2 ^ (w * n)) := by
        rw [Int.bmod_eq_of_le_mul_two]
        · push_cast
          linarith
        · push_cast
          linarith
    _ = (v.toNat : ℤ).bmod (2 ^ (w * n)) := by rw [hsigned, Int.add_mul_bmod_self_left]

end SparkRapids.TwosComplement
