import Mathlib

/-!
# Byte buffers, their bits and their 32-bit words

A buffer is a list of bytes. It is read in three ways: byte by byte, bit by bit (bit `i` is bit
`i % 8` of byte `i / 8`, as in a validity mask), and as 32-bit words, little endian in memory and
big endian on the wire. The lemmas reduce the words to the bits, and the bits of what an operation
leaves to the bits before it.
-/

namespace SparkRapids

/-- A byte of memory. -/
abbrev Byte := BitVec 8

namespace Bytes

/-! ### Reading and writing -/

/-- The `n` bytes from `o` on. -/
def slice (buf : List Byte) (o n : Nat) : List Byte := (buf.drop o).take n

/-- `bs` written over the buffer, from `o` on. -/
def overwrite (buf : List Byte) (o : Nat) (bs : List Byte) : List Byte :=
  buf.take o ++ bs ++ buf.drop (o + bs.length)

/-- Bit `i` of the buffer. -/
def bit (buf : List Byte) (i : Nat) : Bool := (buf.getD (i / 8) 0).getLsbD (i % 8)

/-- The `n` bits from `i` on. -/
def bits (buf : List Byte) (i n : Nat) : List Bool := (List.range n).map fun k => bit buf (i + k)

/-- The four bytes of a word, the least significant one first. -/
def wordBytes (v : BitVec 32) : List Byte :=
  [v.extractLsb' 0 8, v.extractLsb' 8 8, v.extractLsb' 16 8, v.extractLsb' 24 8]

/-- The word of the four bytes from `o` on, the least significant one first. -/
def word (buf : List Byte) (o : Nat) : BitVec 32 :=
  buf.getD (o + 3) 0 ++ buf.getD (o + 2) 0 ++ buf.getD (o + 1) 0 ++ buf.getD o 0

/-- The four bytes of a word, the most significant one first. -/
def wordBytesBE (v : BitVec 32) : List Byte := (wordBytes v).reverse

/-- The word of four bytes, the most significant one first. -/
def wordBE (buf : List Byte) (o : Nat) : BitVec 32 :=
  buf.getD o 0 ++ buf.getD (o + 1) 0 ++ buf.getD (o + 2) 0 ++ buf.getD (o + 3) 0

variable {buf bs : List Byte} {o n i : Nat}

/-! ### Bytes -/

@[simp] theorem length_slice : (slice buf o n).length = min n (buf.length - o) := by
  simp [slice]

theorem length_slice_of_le (h : o + n ≤ buf.length) : (slice buf o n).length = n := by
  rw [length_slice]
  omega

theorem getD_slice : (slice buf o n).getD i 0 = if i < n then buf.getD (o + i) 0 else 0 := by
  unfold slice
  rw [List.getD_eq_getElem?_getD, List.getElem?_take]
  split_ifs
  · rw [List.getElem?_drop, List.getD_eq_getElem?_getD]
  · rfl

theorem slice_zero : slice buf o 0 = [] := by
  simp [slice]

theorem slice_append_left (h : o + n ≤ buf.length) : slice (buf ++ bs) o n = slice buf o n := by
  unfold slice
  rw [List.drop_append_of_le_length (by omega), List.take_append_of_le_length]
  rw [List.length_drop]
  omega

theorem slice_append_right (h : buf.length ≤ o) :
    slice (buf ++ bs) o n = slice bs (o - buf.length) n := by
  unfold slice
  rw [List.drop_append, List.drop_eq_nil_of_le h, List.nil_append]

theorem slice_self : slice buf 0 buf.length = buf := by
  simp [slice]

@[simp] theorem length_overwrite (h : o + bs.length ≤ buf.length) :
    (overwrite buf o bs).length = buf.length := by
  simp only [overwrite, List.length_append, List.length_take, List.length_drop]
  omega

theorem getD_overwrite (h : o + bs.length ≤ buf.length) :
    (overwrite buf o bs).getD i 0 =
      if o ≤ i ∧ i < o + bs.length then bs.getD (i - o) 0 else buf.getD i 0 := by
  have htake : (buf.take o).length = o := by
    rw [List.length_take]
    omega
  unfold overwrite
  simp only [List.getD_eq_getElem?_getD, List.append_assoc]
  by_cases h1 : i < o
  · rw [List.getElem?_append_left (by omega), List.getElem?_take_of_lt h1, if_neg (by omega)]
  · rw [List.getElem?_append_right (by omega), htake]
    by_cases h2 : i < o + bs.length
    · rw [List.getElem?_append_left (by omega), if_pos ⟨by omega, h2⟩]
    · rw [List.getElem?_append_right (by omega), List.getElem?_drop, if_neg (by omega)]
      congr 2
      omega

/-- Two buffers of one length with the same bytes are the same. -/
theorem ext_getD {buf' : List Byte} (hlen : buf.length = buf'.length)
    (h : ∀ i, i < buf.length → buf.getD i 0 = buf'.getD i 0) : buf = buf' := by
  refine List.ext_getElem hlen fun i hi hi' => ?_
  have hi2 := h i hi
  rwa [List.getD_eq_getElem _ _ hi, List.getD_eq_getElem _ _ hi'] at hi2

/-! ### Buffers of one size, one after another -/

theorem length_flatten_of_size {buffers : List (List Byte)} (h : ∀ b ∈ buffers, b.length = n) :
    buffers.flatten.length = n * buffers.length := by
  induction buffers with
  | nil => rfl
  | cons b buffers ih =>
    rw [List.flatten_cons, List.length_append, h b (List.mem_cons_self ..),
      ih fun b hb => h b (List.mem_cons_of_mem _ hb), List.length_cons, Nat.mul_succ, Nat.add_comm]

theorem slice_flatten {buffers : List (List Byte)} (h : ∀ b ∈ buffers, b.length = n) {b : List Byte}
    {k : Nat} (hk : buffers[k]? = some b) : slice buffers.flatten (n * k) n = b := by
  induction buffers generalizing k with
  | nil => simp at hk
  | cons b' buffers ih =>
    have hb' := h b' (List.mem_cons_self ..)
    rw [List.flatten_cons]
    cases k with
    | zero =>
      obtain rfl : b' = b := by simpa using hk
      rw [Nat.mul_zero, slice_append_left (by omega), ← hb', slice_self]
    | succ k =>
      rw [List.getElem?_cons_succ] at hk
      rw [Nat.mul_succ, slice_append_right (by omega), hb', Nat.add_sub_cancel]
      exact ih (fun b hb => h b (List.mem_cons_of_mem _ hb)) hk

/-! ### Bits -/

@[simp] theorem length_bits : (bits buf i n).length = n := by
  simp [bits]

theorem bits_congr {buf' : List Byte} {i' : Nat}
    (h : ∀ k < n, bit buf (i + k) = bit buf' (i' + k)) : bits buf i n = bits buf' i' n := by
  refine List.map_congr_left fun k hk => h k (List.mem_range.1 hk)

theorem bits_add {m : Nat} : bits buf i (n + m) = bits buf i n ++ bits buf (i + n) m := by
  unfold bits
  rw [List.range_add, List.map_append, List.map_map]
  refine congrArg _ (List.map_congr_left fun k _ => ?_)
  rw [Function.comp_apply, Nat.add_assoc]

/-- Two buffers of one length with the same bits are the same. -/
theorem ext_bit {buf' : List Byte} (hlen : buf.length = buf'.length)
    (h : ∀ i, i < 8 * buf.length → bit buf i = bit buf' i) : buf = buf' := by
  refine ext_getD hlen fun i hi => BitVec.eq_of_getLsbD_eq fun j hj => ?_
  have hbit := h (8 * i + j) (by omega)
  unfold bit at hbit
  rwa [show (8 * i + j) / 8 = i by omega, show (8 * i + j) % 8 = j by omega] at hbit

theorem bit_slice : bit (slice buf o n) i = (decide (i < 8 * n) && bit buf (8 * o + i)) := by
  unfold bit
  rw [getD_slice]
  have hdiv : (8 * o + i) / 8 = o + i / 8 := by omega
  have hmod : (8 * o + i) % 8 = i % 8 := by omega
  rw [hdiv, hmod]
  by_cases h : i < 8 * n
  · rw [if_pos (by omega), decide_eq_true h, Bool.true_and]
  · rw [if_neg (by omega), decide_eq_false h, Bool.false_and]
    simp

theorem bit_overwrite (h : o + bs.length ≤ buf.length) :
    bit (overwrite buf o bs) i =
      if 8 * o ≤ i ∧ i < 8 * (o + bs.length) then bit bs (i - 8 * o) else bit buf i := by
  unfold bit
  rw [getD_overwrite h]
  have hdiv : (i - 8 * o) / 8 = i / 8 - o := by omega
  by_cases hi : 8 * o ≤ i ∧ i < 8 * (o + bs.length)
  · have hmod : (i - 8 * o) % 8 = i % 8 := by omega
    rw [if_pos hi, if_pos (by omega), hdiv, hmod]
  · rw [if_neg hi, if_neg (by omega)]

/-! ### Words -/

@[simp] theorem length_wordBytes (v : BitVec 32) : (wordBytes v).length = 4 := rfl

@[simp] theorem length_wordBytesBE (v : BitVec 32) : (wordBytesBE v).length = 4 := rfl

/-- The bits of a word are those of its bytes. -/
theorem getLsbD_word {j : Nat} (hj : j < 32) : (word buf o).getLsbD j = bit buf (8 * o + j) := by
  have hmod : (8 * o + j) % 8 = j % 8 := by omega
  unfold word bit
  rw [hmod]
  simp only [BitVec.getLsbD_append]
  by_cases h1 : j < 8
  · have hdiv : (8 * o + j) / 8 = o := by omega
    have hj' : j % 8 = j := by omega
    rw [if_pos h1, hdiv, hj']
  by_cases h2 : j < 16
  · have hdiv : (8 * o + j) / 8 = o + 1 := by omega
    have hj' : j % 8 = j - 8 := by omega
    rw [if_neg h1, if_pos (by omega), hdiv, hj']
  by_cases h3 : j < 24
  · have hdiv : (8 * o + j) / 8 = o + 2 := by omega
    have hj' : j % 8 = j - 8 - 8 := by omega
    rw [if_neg h1, if_neg (by omega), if_pos (by omega), hdiv, hj']
  · have hdiv : (8 * o + j) / 8 = o + 3 := by omega
    have hj' : j % 8 = j - 8 - 8 - 8 := by omega
    rw [if_neg h1, if_neg (by omega), if_neg (by omega), hdiv, hj']

theorem bit_wordBytes (v : BitVec 32) {j : Nat} (hj : j < 32) :
    bit (wordBytes v) j = v.getLsbD j := by
  unfold bit wordBytes
  have hcases : j / 8 = 0 ∨ j / 8 = 1 ∨ j / 8 = 2 ∨ j / 8 = 3 := by omega
  rcases hcases with h | h | h | h <;> rw [h] <;>
    simp only [List.getD_cons_zero, List.getD_cons_succ, BitVec.getLsbD_extractLsb'] <;>
    rw [decide_eq_true (by omega), Bool.true_and] <;> congr 1 <;> omega

/-- The bytes of words, one after another. -/
def wordsBytes (vs : List (BitVec 32)) : List Byte := vs.flatMap wordBytes

@[simp] theorem length_wordsBytes (vs : List (BitVec 32)) :
    (wordsBytes vs).length = 4 * vs.length := by
  induction vs with
  | nil => rfl
  | cons v vs ih =>
    have hcons : wordsBytes (v :: vs) = wordBytes v ++ wordsBytes vs := rfl
    rw [hcons, List.length_append, ih, length_wordBytes, List.length_cons]
    omega

theorem bit_append_left {j : Nat} (hj : j < 8 * buf.length) : bit (buf ++ bs) j = bit buf j := by
  unfold bit
  rw [List.getD_append _ _ _ _ (by omega)]

theorem bit_append_right {j : Nat} (hj : 8 * buf.length ≤ j) :
    bit (buf ++ bs) j = bit bs (j - 8 * buf.length) := by
  have hdiv : (j - 8 * buf.length) / 8 = j / 8 - buf.length := by omega
  have hmod : (j - 8 * buf.length) % 8 = j % 8 := by omega
  unfold bit
  rw [List.getD_append_right _ _ _ _ (by omega), hdiv, hmod]

theorem bit_wordsBytes (vs : List (BitVec 32)) {j : Nat} (hj : j < 32 * vs.length) :
    bit (wordsBytes vs) j = (vs.getD (j / 32) 0).getLsbD (j % 32) := by
  induction vs generalizing j with
  | nil => simp at hj
  | cons v vs ih =>
    have hcons : wordsBytes (v :: vs) = wordBytes v ++ wordsBytes vs := rfl
    rw [List.length_cons] at hj
    rw [hcons]
    by_cases h : j < 32
    · have hdiv : j / 32 = 0 := by omega
      have hmod : j % 32 = j := by omega
      rw [bit_append_left (by rw [length_wordBytes]; omega), bit_wordBytes v h, hdiv, hmod]
      rfl
    · have hdiv : j / 32 = (j - 32) / 32 + 1 := by omega
      have hmod : (j - 32) % 32 = j % 32 := by omega
      rw [bit_append_right (by rw [length_wordBytes]; omega), length_wordBytes, ih (by omega), hdiv,
        List.getD_cons_succ, hmod]

/-- A word is determined by its bits. -/
theorem word_eq_of_bits {v : BitVec 32} (h : ∀ j < 32, bit buf (8 * o + j) = v.getLsbD j) :
    word buf o = v := by
  refine BitVec.eq_of_getLsbD_eq fun j hj => ?_
  rw [getLsbD_word hj, h j hj]

/-- A word that was written reads back. -/
theorem word_wordBytes (v : BitVec 32) : word (wordBytes v) 0 = v :=
  word_eq_of_bits fun j hj => by rw [Nat.mul_zero, Nat.zero_add, bit_wordBytes v hj]

/-- A word only depends on its four bytes. -/
theorem word_congr {buf' : List Byte} {o' : Nat}
    (h : ∀ k < 4, buf.getD (o + k) 0 = buf'.getD (o' + k) 0) : word buf o = word buf' o' := by
  unfold word
  rw [show buf.getD o 0 = buf'.getD o' 0 from h 0 (by decide), h 1 (by decide), h 2 (by decide),
    h 3 (by decide)]

theorem wordBE_wordBytesBE (v : BitVec 32) : wordBE (wordBytesBE v) 0 = v :=
  word_wordBytes v

/-- Four bytes are the bytes of their word. -/
theorem wordBytes_word (h : bs.length = 4) : wordBytes (word bs 0) = bs := by
  refine ext_bit (by rw [length_wordBytes, h]) fun i hi => ?_
  rw [length_wordBytes] at hi
  rw [bit_wordBytes _ (by omega), getLsbD_word (by omega), Nat.mul_zero, Nat.zero_add]

/-! ### Longs -/

/-- The long of eight bytes, the most significant one first. -/
def longBE (buf : List Byte) (o : Nat) : BitVec 64 := wordBE buf o ++ wordBE buf (o + 4)

theorem wordBE_eq (buf : List Byte) (o : Nat) :
    wordBE buf o = word [buf.getD (o + 3) 0, buf.getD (o + 2) 0, buf.getD (o + 1) 0, buf.getD o 0] 0 :=
  rfl

theorem getLsbD_wordBE {j : Nat} (hj : j < 32) :
    (wordBE buf o).getLsbD j = bit buf (8 * (o + (3 - j / 8)) + j % 8) := by
  have hdiv : (8 * (o + (3 - j / 8)) + j % 8) / 8 = o + (3 - j / 8) := by omega
  have hmod : (8 * (o + (3 - j / 8)) + j % 8) % 8 = j % 8 := by omega
  rw [wordBE_eq, getLsbD_word hj, Nat.mul_zero, Nat.zero_add]
  unfold bit
  rw [hdiv, hmod]
  have hcases : j / 8 = 0 ∨ j / 8 = 1 ∨ j / 8 = 2 ∨ j / 8 = 3 := by omega
  rcases hcases with h | h | h | h
  · rw [h]
    rfl
  · rw [h]
    rfl
  · rw [h]
    rfl
  · rw [h]
    rfl

/-- The bits of a big-endian long, in the order of its bytes in memory. -/
theorem getLsbD_longBE {j : Nat} (hj : j < 64) :
    (longBE buf o).getLsbD j = bit buf (8 * o + (8 * (7 - j / 8) + j % 8)) := by
  unfold longBE
  rw [BitVec.getLsbD_append]
  split_ifs with h
  · rw [getLsbD_wordBE h]
    congr 1
    omega
  · rw [getLsbD_wordBE (by omega)]
    congr 1
    omega

/-! ### Windows of bits and their counts -/

/-- The values of `f` on the `n` positions from `a` on. -/
def window (f : Nat → Bool) (a n : Nat) : List Bool := (List.range n).map fun k => f (a + k)

/-- The unset bits of a window. -/
def zeros (f : Nat → Bool) (a n : Nat) : Nat := (window f a n).count false

/-- The set bits of a word. -/
def bitCount (v : BitVec 32) : Nat := (window v.getLsbD 0 32).count true

section Windows

variable {f g : Nat → Bool} {a b n m : Nat}

@[simp] theorem length_window : (window f a n).length = n := by
  simp [window]

theorem window_congr (h : ∀ k < n, f (a + k) = g (b + k)) : window f a n = window g b n :=
  List.map_congr_left fun k hk => h k (List.mem_range.1 hk)

theorem window_add : window f a (n + m) = window f a n ++ window f (a + n) m := by
  unfold window
  rw [List.range_add, List.map_append, List.map_map]
  refine congrArg _ (List.map_congr_left fun k _ => ?_)
  rw [Function.comp_apply, Nat.add_assoc]

theorem window_const {v : Bool} (h : ∀ k < n, f (a + k) = v) :
    window f a n = List.replicate n v := by
  refine List.eq_replicate_iff.2 ⟨length_window, fun w hw => ?_⟩
  obtain ⟨k, hk, rfl⟩ := List.mem_map.1 hw
  exact h k (List.mem_range.1 hk)

@[simp] theorem zeros_zero : zeros f a 0 = 0 := rfl

theorem zeros_congr (h : ∀ k < n, f (a + k) = g (b + k)) : zeros f a n = zeros g b n := by
  unfold zeros
  rw [window_congr h]

theorem zeros_add : zeros f a (n + m) = zeros f a n + zeros f (a + n) m := by
  unfold zeros
  rw [window_add, List.count_append]

theorem zeros_le : zeros f a n ≤ n := by
  have h : zeros f a n ≤ (window f a n).length := List.count_le_length
  rwa [length_window] at h

/-- A word whose set bits all lie in one window counts that window's set bits. -/
theorem bitCount_add_zeros {v : BitVec 32} {j : Nat} (hj : j + n ≤ 32)
    (hin : ∀ k < n, v.getLsbD (j + k) = f (a + k))
    (hout : ∀ k < 32, k < j ∨ j + n ≤ k → v.getLsbD k = false) : bitCount v + zeros f a n = n := by
  have hlow : window v.getLsbD 0 j = List.replicate j false :=
    window_const fun k hk => hout _ (by omega) (Or.inl (by omega))
  have hhigh : window v.getLsbD (0 + j + n) (32 - (j + n)) = List.replicate (32 - (j + n)) false :=
    window_const fun k hk => hout _ (by omega) (Or.inr (by omega))
  have hmid : window v.getLsbD (0 + j) n = window f a n :=
    window_congr fun k hk => by rw [Nat.zero_add, hin k hk]
  have hsplit : window v.getLsbD 0 32 =
      window v.getLsbD 0 j ++ window v.getLsbD (0 + j) n ++
        window v.getLsbD (0 + j + n) (32 - (j + n)) := by
    rw [← window_add, Nat.add_assoc, ← window_add]
    congr 1
    omega
  unfold bitCount zeros
  rw [hsplit, hlow, hhigh, hmid]
  simp only [List.count_append, List.count_replicate]
  have hcount := List.count_true_add_count_false (window f a n)
  rw [length_window] at hcount
  have hfalse : (false == true) = false := rfl
  rw [hfalse, if_neg Bool.false_ne_true, if_neg Bool.false_ne_true, Nat.zero_add, Nat.add_zero]
  exact hcount

end Windows

end Bytes

end SparkRapids
