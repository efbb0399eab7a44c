import Mathlib

/-!
# Numbers in limbs

A number of `n * w` bits is a list of `n` words of `w` bits, the least significant word first. The
school-book operations on such lists (`add`, `mulWord`, `mulAdd`, `mulRows`, `ltFromTop`) are written
word by word, with the carry in one word or in a double word. What they compute is stated for the
number the words spell (`value`).

The word that leaves a list at its top is lost, and so each operation is right modulo
`2 ^ (w * n)`. Every proof has one step: a double word is its low word and `2 ^ w` times its high
word (`low_add_high`), so that the words written so far and the carry account for the words read.
-/

namespace SparkRapids.Limbs

variable {w : ℕ}

/-- The number that a list of words spells. -/
def value : List (BitVec w) → ℕ
  | [] => 0
  | x :: xs => x.toNat + 2 ^ w * value xs

@[simp] theorem value_nil : value ([] : List (BitVec w)) = 0 := rfl

@[simp] theorem value_cons (x : BitVec w) (xs : List (BitVec w)) :
    value (x :: xs) = x.toNat + 2 ^ w * value xs := rfl

theorem value_lt (xs : List (BitVec w)) : value xs < 2 ^ (w * xs.length) := by
  induction xs with
  | nil => exact Nat.one_pos
  | cons x xs ih =>
    have hx := x.isLt
    calc x.toNat + 2 ^ w * value xs
        < 2 ^ w * (value xs + 1) := by rw [Nat.mul_add]; omega
      _ ≤ 2 ^ w * 2 ^ (w * xs.length) := Nat.mul_le_mul_left _ ih
      _ = 2 ^ (w * (xs.length + 1)) := by rw [← pow_add, Nat.mul_add, Nat.mul_one, Nat.add_comm]

theorem value_append (xs ys : List (BitVec w)) :
    value (xs ++ ys) = value xs + 2 ^ (w * xs.length) * value ys := by
  induction xs with
  | nil => simp
  | cons x xs ih =>
    rw [List.cons_append, value_cons, ih, value_cons, List.length_cons, Nat.mul_add w, Nat.mul_one,
      pow_add]
    ring

/-- A double word is its low word and its high word. -/
theorem low_add_high (x : BitVec (2 * w)) :
    (x.truncate w).toNat + 2 ^ w * (x >>> w).toNat = x.toNat := by
  rw [BitVec.truncate_eq_setWidth, BitVec.toNat_setWidth, BitVec.toNat_ushiftRight,
    Nat.shiftRight_eq_div_pow]
  exact Nat.mod_add_div x.toNat (2 ^ w)

/-- The high word of a double word fits into a word. -/
theorem toNat_high (x : BitVec (2 * w)) : ((x >>> w).truncate w).toNat = (x >>> w).toNat := by
  have hx := x.isLt
  rw [BitVec.truncate_eq_setWidth, BitVec.toNat_setWidth, BitVec.toNat_ushiftRight,
    Nat.shiftRight_eq_div_pow]
  apply Nat.mod_eq_of_lt
  apply Nat.div_lt_of_lt_mul
  rwa [← pow_add, ← two_mul]

/-- A result that loses only what is carried out of its top word. -/
theorem eq_mod_of_carry {x y k n : ℕ} (h : x + 2 ^ n * k = y) (hx : x < 2 ^ n) : x = y % 2 ^ n := by
  rw [← h, Nat.add_mul_mod_self_left, Nat.mod_eq_of_lt hx]

/-! ### Addition -/

/-- The sum of two numbers of as many words and of a carry. -/
@[grind] def add (carry : BitVec (2 * w)) : List (BitVec w) → List (BitVec w) → List (BitVec w)
  | x :: xs, y :: ys =>
    let sum := carry + (x.zeroExtend (2 * w) + y.zeroExtend (2 * w))
    sum.truncate w :: add (sum >>> w) xs ys
  | _, _ => []

theorem length_add (carry : BitVec (2 * w)) (xs ys : List (BitVec w))
    (h : xs.length = ys.length) : (add carry xs ys).length = xs.length := by
  induction xs generalizing carry ys with
  | nil => cases ys <;> rfl
  | cons x xs ih =>
    obtain _ | ⟨y, ys⟩ := ys
    · exact absurd h (by simp)
    · rw [add, List.length_cons, List.length_cons, ih _ _ (by simpa using h)]

/-- Two words and a carry of one bit do not leave the double word. -/
theorem toNat_sum (hw : 0 < w) {carry : BitVec (2 * w)} (hc : carry.toNat ≤ 1) (x y : BitVec w) :
    (carry + (x.zeroExtend (2 * w) + y.zeroExtend (2 * w))).toNat =
      carry.toNat + (x.toNat + y.toNat) := by
  have hx := x.isLt
  have hy := y.isLt
  have hpow : 2 * 2 ^ w ≤ 2 ^ (2 * w) := by
    rw [← pow_succ']
    exact Nat.pow_le_pow_right (by omega) (by omega)
  have hle : w ≤ 2 * w := by omega
  simp only [BitVec.toNat_add, BitVec.truncate_eq_setWidth, BitVec.toNat_setWidth_of_le hle]
  have hlt : carry.toNat + (x.toNat + y.toNat) < 2 ^ (2 * w) := by omega
  have hlt' : x.toNat + y.toNat < 2 ^ (2 * w) := by omega
  rw [Nat.mod_eq_of_lt hlt', Nat.mod_eq_of_lt hlt]

/-- The sum and what is carried out of it are the numbers added. -/
theorem exists_value_add (hw : 0 < w) {carry : BitVec (2 * w)} (hc : carry.toNat ≤ 1)
    (xs ys : List (BitVec w)) (h : xs.length = ys.length) :
    ∃ k, value (add carry xs ys) + 2 ^ (w * xs.length) * k =
      carry.toNat + value xs + value ys := by
  induction xs generalizing carry ys with
  | nil =>
    obtain rfl : ys = [] := List.eq_nil_of_length_eq_zero h.symm
    exact ⟨carry.toNat, by simp [add]⟩
  | cons x xs ih =>
    obtain _ | ⟨y, ys⟩ := ys
    · exact absurd h (by simp)
    · have hsum := toNat_sum hw hc x y
      have hsplit := low_add_high (carry + (x.zeroExtend (2 * w) + y.zeroExtend (2 * w)))
      rw [add]
      generalize carry + (x.zeroExtend (2 * w) + y.zeroExtend (2 * w)) = sum at hsum hsplit ⊢
      -- the carry is one bit again, since two words are less than two times `2 ^ w`
      have hc' : (sum >>> w).toNat ≤ 1 := by
        have hx := x.isLt
        have hy := y.isLt
        by_contra hlt
        have h2 : 2 ^ w * 2 ≤ 2 ^ w * (sum >>> w).toNat := Nat.mul_le_mul_left _ (by omega)
        omega
      obtain ⟨k, hk⟩ := ih hc' ys (by simpa using h)
      refine ⟨k, ?_⟩
      show (sum.truncate w).toNat + 2 ^ w * value (add (sum >>> w) xs ys) +
        2 ^ (w * (xs.length + 1)) * k = _
      rw [Nat.mul_add w, Nat.mul_one, pow_add, value_cons, value_cons]
      linear_combination (2 ^ w) * hk + hsplit + hsum

theorem value_add (hw : 0 < w) (xs ys : List (BitVec w)) (h : xs.length = ys.length) :
    value (add 0 xs ys) = (value xs + value ys) % 2 ^ (w * xs.length) := by
  have hzero : (0 : BitVec (2 * w)).toNat ≤ 1 := by simp
  obtain ⟨k, hk⟩ := exists_value_add hw hzero xs ys h
  have hlt := value_lt (add 0 xs ys)
  rw [length_add 0 xs ys h] at hlt
  refine eq_mod_of_carry (k := k) ?_ hlt
  simpa using hk

/-- The complement of every word is the number that is missing to the largest one. -/
theorem value_map_not (xs : List (BitVec w)) :
    value (xs.map (~~~ ·)) + value xs + 1 = 2 ^ (w * xs.length) := by
  induction xs with
  | nil => rfl
  | cons x xs ih =>
    have hx := x.isLt
    have hnot : (~~~x).toNat + x.toNat + 1 = 2 ^ w := by
      rw [BitVec.toNat_not]
      omega
    rw [List.map_cons, value_cons, value_cons, List.length_cons, Nat.mul_add w, Nat.mul_one,
      pow_add, ← ih]
    linear_combination hnot

/-! ### Multiplication -/

/-- A number times the word `b`, and a carry. -/
@[grind] def mulWord (b carry : BitVec w) : List (BitVec w) → List (BitVec w)
  | [] => []
  | x :: xs =>
    let mul := x.zeroExtend (2 * w) * b.zeroExtend (2 * w) + carry.zeroExtend (2 * w)
    mul.truncate w :: mulWord b ((mul >>> w).truncate w) xs

/-- The words `rs`, a number times the word `b`, and a carry, as far as `rs` reaches. -/
@[grind] def mulAdd (b carry : BitVec w) : List (BitVec w) → List (BitVec w) → List (BitVec w)
  | x :: xs, r :: rs =>
    let mul := x.zeroExtend (2 * w) * b.zeroExtend (2 * w) + r.zeroExtend (2 * w) +
      carry.zeroExtend (2 * w)
    mul.truncate w :: mulAdd b ((mul >>> w).truncate w) xs rs
  | _, _ => []

/-- Row by row: the word at the place `i` of the second factor adds to the words from there on. -/
@[grind] def mulRows (xs : List (BitVec w)) (i : ℕ) : List (BitVec w) → List (BitVec w) → List (BitVec w)
  | [], rs => rs
  | b :: bs, rs => mulRows xs (i + 1) bs (rs.take i ++ mulAdd b 0 xs (rs.drop i))

/-- A product of words and two further words do not leave the double word. -/
theorem toNat_mul (x b r carry : BitVec w) :
    (x.zeroExtend (2 * w) * b.zeroExtend (2 * w) + r.zeroExtend (2 * w) +
      carry.zeroExtend (2 * w)).toNat = x.toNat * b.toNat + r.toNat + carry.toNat := by
  have hx := x.isLt
  have hb := b.isLt
  have hr := r.isLt
  have hc := carry.isLt
  have hpow : (2 : ℕ) ^ (2 * w) = 2 ^ w * 2 ^ w := by rw [two_mul, pow_add]
  obtain ⟨m, hm⟩ : ∃ m, 2 ^ w = m + 1 := ⟨2 ^ w - 1, by omega⟩
  have hmul : x.toNat * b.toNat ≤ m * m := Nat.mul_le_mul (by omega) (by omega)
  have hsq : (2 : ℕ) ^ (2 * w) = m * m + 2 * m + 1 := by
    rw [hpow, hm]
    ring
  have hle : w ≤ 2 * w := by omega
  simp only [BitVec.toNat_add, BitVec.toNat_mul, BitVec.truncate_eq_setWidth,
    BitVec.toNat_setWidth_of_le hle]
  have hlt : x.toNat * b.toNat + r.toNat + carry.toNat < 2 ^ (2 * w) := by omega
  have hlt' : x.toNat * b.toNat + r.toNat < 2 ^ (2 * w) := by omega
  have hlt'' : x.toNat * b.toNat < 2 ^ (2 * w) := by omega
  rw [Nat.mod_eq_of_lt hlt'', Nat.mod_eq_of_lt hlt', Nat.mod_eq_of_lt hlt]

theorem mulWord_eq_mulAdd (b carry : BitVec w) (xs : List (BitVec w)) :
    mulWord b carry xs = mulAdd b carry xs (List.replicate xs.length 0) := by
  induction xs generalizing carry with
  | nil => rfl
  | cons x xs ih =>
    rw [mulWord, ih, List.length_cons, List.replicate_succ, mulAdd]
    simp

theorem length_mulAdd (b carry : BitVec w) (xs rs : List (BitVec w))
    (h : rs.length ≤ xs.length) : (mulAdd b carry xs rs).length = rs.length := by
  induction rs generalizing carry xs with
  | nil => cases xs <;> rfl
  | cons r rs ih =>
    obtain _ | ⟨x, xs⟩ := xs
    · exact absurd h (by simp)
    · rw [mulAdd, List.length_cons, List.length_cons, ih _ _ (by simpa using h)]

theorem length_mulWord (b carry : BitVec w) (xs : List (BitVec w)) :
    (mulWord b carry xs).length = xs.length := by
  rw [mulWord_eq_mulAdd, length_mulAdd _ _ _ _ (by simp), List.length_replicate]

/-- A row and what is carried out of it are the words added: also the words of the factor that lie
above the row are carried out of it. -/
theorem exists_value_mulAdd (b carry : BitVec w) (xs rs : List (BitVec w))
    (h : rs.length ≤ xs.length) :
    ∃ k, value (mulAdd b carry xs rs) + 2 ^ (w * rs.length) * k =
      value rs + b.toNat * value xs + carry.toNat := by
  induction rs generalizing carry xs with
  | nil => exact ⟨b.toNat * value xs + carry.toNat, by cases xs <;> simp [mulAdd]⟩
  | cons r rs ih =>
    obtain _ | ⟨x, xs⟩ := xs
    · exact absurd h (by simp)
    · have hmul := toNat_mul x b r carry
      have hsplit := low_add_high (x.zeroExtend (2 * w) * b.zeroExtend (2 * w) +
        r.zeroExtend (2 * w) + carry.zeroExtend (2 * w))
      rw [mulAdd]
      generalize x.zeroExtend (2 * w) * b.zeroExtend (2 * w) + r.zeroExtend (2 * w) +
        carry.zeroExtend (2 * w) = mul at hmul hsplit ⊢
      obtain ⟨k, hk⟩ := ih ((mul >>> w).truncate w) xs (by simpa using h)
      rw [toNat_high] at hk
      refine ⟨k, ?_⟩
      show (mul.truncate w).toNat + 2 ^ w * value (mulAdd b ((mul >>> w).truncate w) xs rs) +
        2 ^ (w * (rs.length + 1)) * k = _
      rw [Nat.mul_add w, Nat.mul_one, pow_add, value_cons, value_cons]
      linear_combination (2 ^ w) * hk + hsplit + hmul

/-- One row of the product, for the words from the place `i` on. -/
theorem value_mulRow (b : BitVec w) (xs rs : List (BitVec w)) (i : ℕ) (hi : i ≤ rs.length)
    (h : rs.length ≤ xs.length) :
    value (rs.take i ++ mulAdd b 0 xs (rs.drop i)) % 2 ^ (w * rs.length) =
      (value rs + 2 ^ (w * i) * (b.toNat * value xs)) % 2 ^ (w * rs.length) := by
  obtain ⟨k, hk⟩ := exists_value_mulAdd b 0 xs (rs.drop i) (by rw [List.length_drop]; omega)
  have htake : (rs.take i).length = i := by rw [List.length_take, Nat.min_eq_left hi]
  have hrs : value rs = value (rs.take i) + 2 ^ (w * i) * value (rs.drop i) := by
    conv_lhs => rw [← List.take_append_drop i rs, value_append, htake]
  have hpow : 2 ^ (w * rs.length) = 2 ^ (w * i) * 2 ^ (w * (rs.drop i).length) := by
    rw [← pow_add, ← Nat.mul_add, List.length_drop, Nat.add_sub_cancel' hi]
  have heq : value (rs.take i ++ mulAdd b 0 xs (rs.drop i)) + 2 ^ (w * rs.length) * k =
      value rs + 2 ^ (w * i) * (b.toNat * value xs) := by
    rw [value_append, htake, hrs, hpow]
    rw [BitVec.ofNat_eq_ofNat, BitVec.toNat_ofNat, Nat.zero_mod, Nat.add_zero] at hk
    linear_combination (2 ^ (w * i)) * hk
  rw [← heq, Nat.add_mul_mod_self_left]

theorem length_mulRow (b : BitVec w) (xs rs : List (BitVec w)) (i : ℕ) (hi : i ≤ rs.length)
    (h : rs.length ≤ xs.length) :
    (rs.take i ++ mulAdd b 0 xs (rs.drop i)).length = rs.length := by
  rw [List.length_append, List.length_take, Nat.min_eq_left hi,
    length_mulAdd b 0 xs (rs.drop i) (by rw [List.length_drop]; omega), List.length_drop,
    Nat.add_sub_cancel' hi]

theorem length_mulRows (xs bs rs : List (BitVec w)) (i : ℕ) (hi : i + bs.length ≤ rs.length)
    (h : rs.length ≤ xs.length) : (mulRows xs i bs rs).length = rs.length := by
  induction bs generalizing i rs with
  | nil => rfl
  | cons b bs ih =>
    rw [List.length_cons] at hi
    have hrow := length_mulRow b xs rs i (by omega) h
    rw [mulRows, ih _ _ (by omega) (by omega), hrow]

/-- The rows of the words `bs`, of which the first one stands at the place `i`. -/
theorem value_mulRows (xs bs rs : List (BitVec w)) (i : ℕ) (hi : i + bs.length ≤ rs.length)
    (h : rs.length ≤ xs.length) :
    value (mulRows xs i bs rs) % 2 ^ (w * rs.length) =
      (value rs + 2 ^ (w * i) * (value bs * value xs)) % 2 ^ (w * rs.length) := by
  induction bs generalizing i rs with
  | nil => simp [mulRows]
  | cons b bs ih =>
    rw [List.length_cons] at hi
    have hrow := length_mulRow b xs rs i (by omega) h
    have hval := value_mulRow b xs rs i (by omega) h
    have hrest := ih (rs.take i ++ mulAdd b 0 xs (rs.drop i)) (i + 1) (by omega) (by omega)
    rw [hrow] at hrest
    rw [mulRows, hrest, Nat.add_mod, hval, ← Nat.add_mod, value_cons, Nat.mul_add w, Nat.mul_one,
      pow_add]
    congr 1
    ring

/-- The product of two numbers: the first row writes the result, and the further ones add to it. -/
def mul (xs : List (BitVec w)) : List (BitVec w) → List (BitVec w)
  | [] => []
  | y :: ys => mulRows xs 1 ys (mulWord y 0 xs)

theorem length_mul (xs ys : List (BitVec w)) (h : xs.length = ys.length) :
    (mul xs ys).length = xs.length := by
  obtain _ | ⟨y, ys⟩ := ys
  · exact h.symm
  · rw [List.length_cons] at h
    have hrow := length_mulWord y 0 xs
    rw [mul, length_mulRows xs ys _ 1 (by omega) hrow.le, hrow]

theorem value_replicate_zero (n : ℕ) : value (List.replicate n (0 : BitVec w)) = 0 := by
  induction n with
  | zero => rfl
  | succ n ih => rw [List.replicate_succ, value_cons, ih]; simp

theorem value_mulWord (b : BitVec w) (xs : List (BitVec w)) :
    value (mulWord b 0 xs) % 2 ^ (w * xs.length) =
      (b.toNat * value xs) % 2 ^ (w * xs.length) := by
  have hrow := value_mulRow b xs (List.replicate xs.length 0) 0 (Nat.zero_le _) (by simp)
  rw [List.take_zero, List.drop_zero, List.nil_append, ← mulWord_eq_mulAdd, List.length_replicate,
    value_replicate_zero] at hrow
  rw [hrow]
  simp

theorem value_mul (xs ys : List (BitVec w)) (h : xs.length = ys.length) :
    value (mul xs ys) % 2 ^ (w * xs.length) = (value xs * value ys) % 2 ^ (w * xs.length) := by
  obtain _ | ⟨y, ys⟩ := ys
  · rfl
  · rw [List.length_cons] at h
    have hlen := length_mulWord y 0 xs
    have hrow := value_mulWord y xs
    have hrows := value_mulRows xs ys (mulWord y 0 xs) 1 (by omega) hlen.le
    rw [hlen] at hrows
    rw [mul, hrows, Nat.add_mod, hrow, ← Nat.add_mod, value_cons, Nat.mul_one]
    congr 1
    ring

/-! ### Comparison -/

/-- The order of two numbers whose words are given from the top one down. -/
@[grind] def ltFromTop : List (BitVec w) → List (BitVec w) → Bool
  | x :: xs, y :: ys => if x < y then true else if y < x then false else ltFromTop xs ys
  | _, _ => false

theorem ltFromTop_iff (xs ys : List (BitVec w)) (h : xs.length = ys.length) :
    ltFromTop xs ys = true ↔ value xs.reverse < value ys.reverse := by
  induction xs generalizing ys with
  | nil =>
    obtain rfl : ys = [] := List.eq_nil_of_length_eq_zero h.symm
    simp [ltFromTop]
  | cons x xs ih =>
    obtain _ | ⟨y, ys⟩ := ys
    · exact absurd h (by simp)
    · have hlen : xs.length = ys.length := by simpa using h
      have hxs := value_lt xs.reverse
      have hys := value_lt ys.reverse
      rw [List.length_reverse] at hxs hys
      -- different top words decide, whatever the words below them are
      have hdecide : ∀ {a b : BitVec w} {m n : ℕ}, a < b → m < 2 ^ (w * xs.length) →
          m + 2 ^ (w * xs.length) * a.toNat < n + 2 ^ (w * xs.length) * b.toNat := by
        intro a b m n hab hm
        have hab' : a.toNat + 1 ≤ b.toNat := hab
        calc m + 2 ^ (w * xs.length) * a.toNat
            < 2 ^ (w * xs.length) * (a.toNat + 1) := by rw [Nat.mul_add]; omega
          _ ≤ 2 ^ (w * xs.length) * b.toNat := Nat.mul_le_mul_left _ hab'
          _ ≤ n + 2 ^ (w * xs.length) * b.toNat := Nat.le_add_left _ _
      rw [ltFromTop, List.reverse_cons, List.reverse_cons, value_append, value_append,
        List.length_reverse, List.length_reverse, ← hlen]
      simp only [value_cons, value_nil, Nat.mul_zero, Nat.add_zero]
      rcases lt_trichotomy x.toNat y.toNat with hxy | hxy | hxy
      · rw [if_pos (BitVec.lt_def.2 hxy)]
        exact iff_of_true rfl (hdecide hxy hxs)
      · obtain rfl := BitVec.eq_of_toNat_eq hxy
        have hirrefl : ¬x < x := by rw [BitVec.lt_def]; exact lt_irrefl _
        rw [if_neg hirrefl, if_neg hirrefl, ih ys hlen]
        omega
      · have hlt := hdecide (n := value xs.reverse) hxy (hlen ▸ hys)
        have hnot : ¬x < y := by rw [BitVec.lt_def]; exact lt_asymm hxy
        rw [if_neg hnot, if_pos (BitVec.lt_def.2 hxy)]
        exact iff_of_false (by simp) (lt_asymm hlt)

/-! ### Bits -/

theorem testBit_value (xs : List (BitVec w)) (i : ℕ) (hi : i < w * xs.length) :
    (value xs).testBit i = (xs.getD (i / w) 0).getLsbD (i % w) := by
  induction xs generalizing i with
  | nil => exact absurd hi (by simp)
  | cons x xs ih =>
    have hw : 0 < w := Nat.pos_of_mul_pos_right (Nat.zero_lt_of_lt hi)
    rw [value_cons, Nat.add_comm, Nat.testBit_two_pow_mul_add _ x.isLt]
    split
    · next hlt => rw [Nat.div_eq_of_lt hlt, Nat.mod_eq_of_lt hlt]; rfl
    · next hge =>
      have hge' : w ≤ i := Nat.le_of_not_lt hge
      rw [ih (i - w) (by rw [List.length_cons, Nat.mul_add] at hi; omega), Nat.div_eq_sub_div hw hge',
        Nat.mod_eq_sub_mod hge', List.getD_cons_succ]

/-- The words with the bit `i` set. -/
def setBit (xs : List (BitVec w)) (i : ℕ) : List (BitVec w) :=
  xs.set (i / w) (xs.getD (i / w) 0 ||| (1 : BitVec w) <<< (i % w))

@[simp] theorem length_setBit (xs : List (BitVec w)) (i : ℕ) :
    (setBit xs i).length = xs.length := List.length_set

/-- A bit is set by addition where it and the bits below it are clear. -/
theorem value_setBit (xs : List (BitVec w)) (i : ℕ) (hi : i < w * xs.length)
    (hclear : 2 ^ (i + 1) ∣ value xs) : value (setBit xs i) = value xs + 2 ^ i := by
  induction xs generalizing i with
  | nil => exact absurd hi (by simp)
  | cons x xs ih =>
    have hw : 0 < w := Nat.pos_of_mul_pos_right (Nat.zero_lt_of_lt hi)
    rw [value_cons] at hclear
    rcases Nat.lt_or_ge i w with hlt | hge
    · -- the bit is in this word, and so are the clear bits
      have hx : 2 ^ (i + 1) ∣ x.toNat := by
        refine (Nat.dvd_add_left ?_).1 hclear
        exact Dvd.dvd.mul_right (Nat.pow_dvd_pow 2 hlt) _
      obtain ⟨a, ha⟩ := hx
      have hone : ((1 : BitVec w) <<< i).toNat = 2 ^ i := by
        rw [BitVec.ofNat_eq_ofNat, BitVec.toNat_shiftLeft, BitVec.toNat_ofNat, Nat.shiftLeft_eq,
          Nat.mod_eq_of_lt (Nat.one_lt_two_pow hw.ne'), Nat.one_mul]
        exact Nat.mod_eq_of_lt (Nat.pow_lt_pow_right (by omega) hlt)
      have hor : (x ||| (1 : BitVec w) <<< i).toNat = x.toNat + 2 ^ i := by
        rw [BitVec.toNat_or, hone, ha, ← Nat.two_pow_add_eq_or_of_lt (Nat.pow_lt_pow_succ (by omega))]
      rw [setBit, Nat.div_eq_of_lt hlt, Nat.mod_eq_of_lt hlt, List.getD_cons_zero, List.set_cons_zero,
        value_cons, hor, value_cons]
      omega
    · -- the bit is above this word, which is zero
      have hx : x.toNat = 0 := by
        have hdvd : 2 ^ w ∣ x.toNat := by
          refine (Nat.dvd_add_left (Dvd.intro _ rfl)).1 (dvd_trans ?_ hclear)
          exact Nat.pow_dvd_pow 2 (by omega)
        exact Nat.eq_zero_of_dvd_of_lt hdvd x.isLt
      have hrest : 2 ^ (i - w + 1) ∣ value xs := by
        rw [hx, Nat.zero_add, show i + 1 = w + (i - w + 1) by omega, pow_add] at hclear
        exact Nat.dvd_of_mul_dvd_mul_left (Nat.two_pow_pos w) hclear
      have hval := ih (i - w) (by rw [List.length_cons, Nat.mul_add] at hi; omega) hrest
      have hset : setBit (x :: xs) i = x :: setBit xs (i - w) := by
        rw [setBit, Nat.div_eq_sub_div hw hge, Nat.mod_eq_sub_mod hge, List.getD_cons_succ,
          List.set_cons_succ]
        rfl
      rw [hset, value_cons, hval, value_cons, Nat.mul_add, ← pow_add, Nat.add_sub_cancel' hge]
      omega

end SparkRapids.Limbs
