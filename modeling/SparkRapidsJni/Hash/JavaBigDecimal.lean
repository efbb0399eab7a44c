import SparkRapidsJni.Lib.Bytes
import SparkRapidsJni.Lib.TwosComplement

/-!
# The bytes of a `BigDecimal`

Spark hashes a decimal of more than 18 digits through `BigInteger.toByteArray`, the shortest
big-endian two's complement of its unscaled value. `to_java_bigdecimal` finds these bytes in the
little-endian bytes of an `__int128_t`: it leaves out the most significant bytes that are the sign,
keeps one byte at least, and takes one byte back when the sign bit has changed.
-/

namespace SparkRapids.Hash

open Limbs TwosComplement

/-- `sizeof(__int128_t)` -/
def keySize : ℕ := 16

/-- An `__int128_t` as `std::byte const*`. -/
def toBytes (val : BitVec 128) : List Byte := words keySize val.toNat

/-- The `__int128_t` of some bytes. -/
def ofBytes (bytes : List Byte) : BitVec 128 := BitVec.ofNat 128 (value bytes)

/-- `to_java_bigdecimal` -/
def toJavaBigdecimal (key : BitVec 128) : BitVec 128 × ℕ :=
  let data := toBytes key
  let isNegative := key.slt 0
  let zeroValue : Byte := if isNegative then 0xff else 0x00
  -- `find_if_not` goes from the most significant byte down
  let firstNonzeroByte := (data.rdropWhile (· == zeroValue)).length
  -- 0 and -1 would shorten to no byte
  let length := max 1 firstNonzeroByte
  -- preserve the sign bit
  let length :=
    if length < keySize ∧ (isNegative ^^ (data.getD (length - 1) 0 &&& 0x80 != 0)) then length + 1
    else length
  -- `reverse_copy` into a zero
  let bigEndianValue := ofBytes (Bytes.overwrite (toBytes 0) 0 (data.take length).reverse)
  (bigEndianValue, length)

/-- The bytes that are hashed. -/
def javaBytes (key : BitVec 128) : List Byte :=
  (toBytes (toJavaBigdecimal key).1).take (toJavaBigdecimal key).2

@[simp] theorem length_toBytes (val : BitVec 128) : (toBytes val).length = 16 := length_words ..

theorem toBytes_ofBytes {bytes : List Byte} (h : bytes.length = 16) :
    toBytes (ofBytes bytes) = bytes := by
  have hlt : value bytes < 2 ^ 128 := by
    have hvalue := value_lt bytes
    rwa [h] at hvalue
  unfold toBytes ofBytes
  rw [BitVec.toNat_ofNat, Nat.mod_eq_of_lt hlt, show keySize = bytes.length from h.symm,
    words_value]

/-- The most significant byte comes first. -/
theorem signed_reverse_toBytes (val : BitVec 128) :
    TwosComplement.signed (toBytes val).reverse = val.toInt :=
  signed_reverse_words (w := 8) (n := 16) (by decide) (by decide) val

theorem and_0x80_ne_zero (b : Byte) : (b &&& 0x80 != 0) = b.msb := by
  revert b
  decide

/-- The bytes of the sign, and the others. -/
theorem exists_replicate_append (z : Byte) (bytes : List Byte) : ∃ n,
    bytes = List.replicate n z ++ bytes.dropWhile (· == z) := by
  refine ⟨(bytes.takeWhile (· == z)).length, ?_⟩
  have hsign : bytes.takeWhile (· == z) =
      List.replicate (bytes.takeWhile (· == z)).length z := by
    rw [List.eq_replicate_iff]
    exact ⟨rfl, fun b hb => beq_iff_eq.1 (List.mem_takeWhile_imp (p := (· == z)) hb)⟩
  rw [← hsign, List.takeWhile_append_dropWhile]

theorem zeroValue_eq (key : BitVec 128) :
    (if key.slt 0 then 0xff else 0x00 : Byte) = signWord (key.slt 0) := by
  cases key.slt 0 <;> rfl

/-- The bytes are the last ones of the big-endian number. -/
theorem javaBytes_eq {key : BitVec 128} (h : (toJavaBigdecimal key).2 ≤ 16) :
    javaBytes key = (toBytes key).reverse.drop (16 - (toJavaBigdecimal key).2) := by
  have hlen : ((toBytes key).take (toJavaBigdecimal key).2).reverse.length =
      (toJavaBigdecimal key).2 := by
    rw [List.length_reverse, List.length_take, length_toBytes, min_eq_left h]
  have hvalue : (toJavaBigdecimal key).1 = ofBytes
      (Bytes.overwrite (toBytes 0) 0 ((toBytes key).take (toJavaBigdecimal key).2).reverse) := rfl
  have hroom : 0 + ((toBytes key).take (toJavaBigdecimal key).2).reverse.length ≤
      (toBytes 0).length := by
    rw [hlen, length_toBytes]
    omega
  unfold javaBytes
  rw [hvalue, toBytes_ofBytes (by rw [Bytes.length_overwrite hroom, length_toBytes])]
  unfold Bytes.overwrite
  rw [List.take_zero, List.nil_append, List.take_append_of_le_length hlen.ge,
    List.take_of_length_le hlen.le, List.reverse_take, length_toBytes]

/-- The most significant byte has the sign. -/
theorem msb_eq_of_reverse_eq {key : BitVec 128} {b : Byte} {bytes : List Byte}
    (h : (toBytes key).reverse = b :: bytes) : b.msb = key.slt 0 := by
  rw [Bool.eq_iff_iff, ← signed_neg_iff b bytes, ← h, signed_reverse_toBytes, BitVec.slt_iff_toInt_lt]
  rfl

/-- The length in terms of the bytes that are left without those of the sign. -/
theorem toJavaBigdecimal_snd {key : BitVec 128} {rest : List Byte}
    (h : (toBytes key).reverse.dropWhile (· == signWord (key.slt 0)) = rest) :
    (toJavaBigdecimal key).2 =
      if max 1 rest.length < 16 ∧
        (key.slt 0 ^^ ((toBytes key).getD (max 1 rest.length - 1) 0).msb) then
        max 1 rest.length + 1
      else max 1 rest.length := by
  have hstripped : ((toBytes key).rdropWhile
      (· == (if key.slt 0 then 0xff else 0x00 : Byte))).length = rest.length := by
    rw [zeroValue_eq, List.rdropWhile, List.length_reverse, h]
  rw [← hstripped]
  simp only [← and_0x80_ne_zero]
  rfl

section

variable {key : BitVec 128} {n : ℕ} {b : Byte} {rest : List Byte}

/-- All bytes are the sign. -/
theorem javaBytes_of_nil (h : (toBytes key).reverse.dropWhile (· == signWord (key.slt 0)) = [])
    (hbytes : (toBytes key).reverse = List.replicate n (signWord (key.slt 0))) :
    (toJavaBigdecimal key).2 = 1 ∧ javaBytes key = [signWord (key.slt 0)] := by
  have hn : n = 16 := by
    rw [← length_toBytes key, ← List.length_reverse, hbytes, List.length_replicate]
  have hdata : toBytes key = List.replicate n (signWord (key.slt 0)) := by
    rw [← List.reverse_reverse (toBytes key), hbytes, List.reverse_replicate]
  have hlen : (toJavaBigdecimal key).2 = 1 := by
    have hfirst : (toBytes key).getD 0 0 = signWord (key.slt 0) := by
      rw [hdata, hn]
      rfl
    rw [toJavaBigdecimal_snd h, List.length_nil, max_eq_left (Nat.zero_le 1), Nat.sub_self, hfirst,
      msb_signWord (by decide), Bool.xor_self]
    exact if_neg fun h => Bool.false_ne_true h.2
  have hlast : javaBytes key = List.replicate (16 - (16 - 1)) (signWord (key.slt 0)) := by
    rw [javaBytes_eq (hlen.trans_le (by decide)), hlen, hbytes, hn, List.drop_replicate]
  exact ⟨hlen, hlast⟩

/-- The first byte that is left, in the order of the memory. -/
theorem getD_toBytes
    (hbytes : (toBytes key).reverse = List.replicate n (signWord (key.slt 0)) ++ b :: rest) :
    (toBytes key).getD rest.length 0 = b := by
  have hdata : toBytes key =
      rest.reverse ++ b :: List.replicate n (signWord (key.slt 0)) := by
    rw [← List.reverse_reverse (toBytes key), hbytes, List.reverse_append, List.reverse_replicate,
      List.reverse_cons, List.append_assoc, List.singleton_append]
  rw [hdata, List.getD_append_right _ _ _ _ (List.length_reverse ..).le, List.length_reverse,
    Nat.sub_self, List.getD_cons_zero]

theorem length_of_reverse_eq
    (hbytes : (toBytes key).reverse = List.replicate n (signWord (key.slt 0)) ++ b :: rest) :
    n + (rest.length + 1) = 16 := by
  have hlen := congrArg List.length hbytes
  rwa [List.length_reverse, length_toBytes, List.length_append, List.length_replicate,
    List.length_cons, eq_comm] at hlen

/-- The first byte that is left has the sign bit. -/
theorem javaBytes_of_msb_eq
    (h : (toBytes key).reverse.dropWhile (· == signWord (key.slt 0)) = b :: rest)
    (hbytes : (toBytes key).reverse = List.replicate n (signWord (key.slt 0)) ++ b :: rest)
    (hb : b.msb = key.slt 0) :
    (toJavaBigdecimal key).2 = rest.length + 1 ∧ javaBytes key = b :: rest := by
  have hn := length_of_reverse_eq hbytes
  have hlen : (toJavaBigdecimal key).2 = rest.length + 1 := by
    rw [toJavaBigdecimal_snd h, List.length_cons, max_eq_right (Nat.le_add_left ..),
      Nat.add_sub_cancel, getD_toBytes hbytes, hb, Bool.xor_self]
    exact if_neg fun h => Bool.false_ne_true h.2
  refine ⟨hlen, ?_⟩
  rw [javaBytes_eq (hlen.trans_le (hn ▸ Nat.le_add_left ..)), hlen, hbytes, ← hn,
    Nat.add_sub_cancel]
  exact List.drop_left' (List.length_replicate ..)

/-- It has not, and a byte of the sign comes back. -/
theorem javaBytes_of_msb_ne
    (h : (toBytes key).reverse.dropWhile (· == signWord (key.slt 0)) = b :: rest)
    (hbytes : (toBytes key).reverse = List.replicate n (signWord (key.slt 0)) ++ b :: rest)
    (hb : b.msb ≠ key.slt 0) :
    (toJavaBigdecimal key).2 = rest.length + 2 ∧
      javaBytes key = signWord (key.slt 0) :: b :: rest := by
  have hn := length_of_reverse_eq hbytes
  -- the most significant byte would have the sign bit
  obtain ⟨m, rfl⟩ : ∃ m, n = m + 1 := by
    apply Nat.exists_eq_succ_of_ne_zero
    rintro rfl
    exact hb (msb_eq_of_reverse_eq hbytes)
  have hlen : (toJavaBigdecimal key).2 = rest.length + 2 := by
    have hxor : (key.slt 0 ^^ b.msb) = true := by
      rw [Bool.xor_comm]
      exact bne_iff_ne.2 hb
    rw [toJavaBigdecimal_snd h, List.length_cons, max_eq_right (Nat.le_add_left ..),
      Nat.add_sub_cancel, getD_toBytes hbytes, if_pos ⟨by omega, hxor⟩]
  refine ⟨hlen, ?_⟩
  have hdrop : 16 - (rest.length + 2) = m := by omega
  have hsplit : List.replicate (m + 1) (signWord (key.slt 0) : Byte) ++ b :: rest =
      List.replicate m (signWord (key.slt 0)) ++ signWord (key.slt 0) :: b :: rest := by
    rw [List.replicate_succ', List.append_assoc, List.singleton_append]
  rw [javaBytes_eq (by omega), hlen, hbytes, hdrop, hsplit]
  exact List.drop_left' (List.length_replicate ..)

end

/-- The bytes are minimal, and spell the number. -/
theorem javaBytes_minimal (key : BitVec 128) :
    1 ≤ (toJavaBigdecimal key).2 ∧ (toJavaBigdecimal key).2 ≤ 16 ∧
      (javaBytes key).length = (toJavaBigdecimal key).2 ∧ Minimal (javaBytes key) ∧
      TwosComplement.signed (javaBytes key) = key.toInt := by
  have hw : 0 < 8 := by decide
  obtain ⟨n, hbytes⟩ := exists_replicate_append (signWord (key.slt 0)) (toBytes key).reverse
  have hsigned := signed_reverse_toBytes key
  rcases h : (toBytes key).reverse.dropWhile (· == signWord (key.slt 0)) with _ | ⟨b, rest⟩
  · rw [h, List.append_nil] at hbytes
    obtain ⟨hlen, hjava⟩ := javaBytes_of_nil h hbytes
    rw [hlen, hjava, ← hsigned, hbytes]
    refine ⟨le_rfl, by decide, rfl, trivial, ?_⟩
    have hn : n = 15 + 1 := by
      have hcount := congrArg List.length hbytes
      rwa [List.length_reverse, length_toBytes, List.length_replicate, eq_comm] at hcount
    have hone := signed_replicate_append hw 15 (signWord (key.slt 0)) []
    rw [msb_signWord hw] at hone
    rw [hn, List.replicate_succ', hone]
  · rw [h] at hbytes
    have hn := length_of_reverse_eq hbytes
    have hne : b ≠ signWord (key.slt 0) := by
      have hhead := List.head?_dropWhile_not (· == signWord (key.slt 0)) (toBytes key).reverse
      rw [h] at hhead
      simpa using hhead
    by_cases hb : b.msb = key.slt 0
    · obtain ⟨hlen, hjava⟩ := javaBytes_of_msb_eq h hbytes hb
      rw [hlen, hjava, ← hsigned, hbytes]
      refine ⟨Nat.le_add_left .., by omega, rfl, ?_, ?_⟩
      · -- a byte of the sign would have been left out
        cases rest with
        | nil => trivial
        | cons c rest =>
          intro hc
          rw [hc, msb_signWord hw] at hb
          exact hne (by rw [hc, hb])
      · rw [← hb, signed_replicate_append hw]
    · obtain ⟨hlen, hjava⟩ := javaBytes_of_msb_ne h hbytes hb
      obtain ⟨m, rfl⟩ : ∃ m, n = m + 1 := by
        apply Nat.exists_eq_succ_of_ne_zero
        rintro rfl
        exact hb (msb_eq_of_reverse_eq hbytes)
      rw [hlen, hjava, ← hsigned, hbytes]
      refine ⟨by omega, by omega, rfl, ?_, ?_⟩
      · intro hsame
        have hmsb := congrArg BitVec.msb hsame
        rw [msb_signWord hw, msb_signWord hw] at hmsb
        exact hb hmsb.symm
      · have hmany := signed_replicate_append hw m (signWord (key.slt 0)) (b :: rest)
        rw [msb_signWord hw] at hmany
        rw [List.replicate_succ', List.append_assoc, List.singleton_append, hmany]

/-- **The bytes of Java**: for every 128-bit integer, `to_java_bigdecimal` returns between 1 and 16
bytes, which are the shortest big-endian two's complement of the integer; read back, they are the
integer. So neither the pairs nor the bytes of two integers are the same. -/
theorem toJavaBigdecimal_shortest :
    (∀ key, 1 ≤ (toJavaBigdecimal key).2 ∧ (toJavaBigdecimal key).2 ≤ 16 ∧
      (javaBytes key).length = (toJavaBigdecimal key).2 ∧
      IsShortest (javaBytes key) key.toInt ∧ TwosComplement.signed (javaBytes key) = key.toInt) ∧
    Function.Injective toJavaBigdecimal ∧ Function.Injective javaBytes := by
  have hminimal : ∀ key, 1 ≤ (toJavaBigdecimal key).2 ∧ (toJavaBigdecimal key).2 ≤ 16 ∧
      (javaBytes key).length = (toJavaBigdecimal key).2 ∧ Minimal (javaBytes key) ∧
      TwosComplement.signed (javaBytes key) = key.toInt := fun key => javaBytes_minimal key
  have hinj : Function.Injective javaBytes := by
    intro key key' h
    apply BitVec.eq_of_toInt_eq
    rw [← (hminimal key).2.2.2.2, ← (hminimal key').2.2.2.2, h]
  refine ⟨fun key => ?_, fun key key' h => hinj ?_, hinj⟩
  · obtain ⟨hpos, hle, hlen, hshort, hsigned⟩ := hminimal key
    refine ⟨hpos, hle, hlen, ?_, hsigned⟩
    rw [← hsigned]
    exact hshort.isShortest (by decide)
  · unfold javaBytes
    rw [h]

example : javaBytes 128 = [0x00, 0x80] := by decide

example : javaBytes (-1) = [0xff] := by decide

end SparkRapids.Hash
