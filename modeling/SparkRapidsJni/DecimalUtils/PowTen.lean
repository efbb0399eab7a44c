import SparkRapidsJni.DecimalUtils.Chunked256

/-!
# Powers of ten

`pow_ten` reads a table of the powers of ten that a signed 256-bit integer can hold. On top of it are
the two questions the kernels ask about a value: how many digits it has (`precision10`, with one
digit less for a power of ten than its decimal numeral has) and whether it has left the 38 digits of
a `DECIMAL128` (`is_greater_than_decimal_38`).
-/

namespace SparkRapids

open Chunked256

/-- The cases of `pow_ten`. -/
def powTenTable : List Chunked256 := [
  ofChunks 0x0 0x0 0x0 0x1,
  ofChunks 0x0 0x0 0x0 0xa,
  ofChunks 0x0 0x0 0x0 0x64,
  ofChunks 0x0 0x0 0x0 0x3e8,
  ofChunks 0x0 0x0 0x0 0x2710,
  ofChunks 0x0 0x0 0x0 0x186a0,
  ofChunks 0x0 0x0 0x0 0xf4240,
  ofChunks 0x0 0x0 0x0 0x989680,
  ofChunks 0x0 0x0 0x0 0x5f5e100,
  ofChunks 0x0 0x0 0x0 0x3b9aca00,
  ofChunks 0x0 0x0 0x0 0x2540be400,
  ofChunks 0x0 0x0 0x0 0x174876e800,
  ofChunks 0x0 0x0 0x0 0xe8d4a51000,
  ofChunks 0x0 0x0 0x0 0x9184e72a000,
  ofChunks 0x0 0x0 0x0 0x5af3107a4000,
  ofChunks 0x0 0x0 0x0 0x38d7ea4c68000,
  ofChunks 0x0 0x0 0x0 0x2386f26fc10000,
  ofChunks 0x0 0x0 0x0 0x16345785d8a0000,
  ofChunks 0x0 0x0 0x0 0xde0b6b3a7640000,
  ofChunks 0x0 0x0 0x0 0x8ac7230489e80000,
  ofChunks 0x0 0x0 0x5 0x6bc75e2d63100000,
  ofChunks 0x0 0x0 0x36 0x35c9adc5dea00000,
  ofChunks 0x0 0x0 0x21e 0x19e0c9bab2400000,
  ofChunks 0x0 0x0 0x152d 0x2c7e14af6800000,
  ofChunks 0x0 0x0 0xd3c2 0x1bcecceda1000000,
  ofChunks 0x0 0x0 0x84595 0x161401484a000000,
  ofChunks 0x0 0x0 0x52b7d2 0xdcc80cd2e4000000,
  ofChunks 0x0 0x0 0x33b2e3c 0x9fd0803ce8000000,
  ofChunks 0x0 0x0 0x204fce5e 0x3e25026110000000,
  ofChunks 0x0 0x0 0x1431e0fae 0x6d7217caa0000000,
  ofChunks 0x0 0x0 0xc9f2c9cd0 0x4674edea40000000,
  ofChunks 0x0 0x0 0x7e37be2022 0xc0914b2680000000,
  ofChunks 0x0 0x0 0x4ee2d6d415b 0x85acef8100000000,
  ofChunks 0x0 0x0 0x314dc6448d93 0x38c15b0a00000000,
  ofChunks 0x0 0x0 0x1ed09bead87c0 0x378d8e6400000000,
  ofChunks 0x0 0x0 0x13426172c74d82 0x2b878fe800000000,
  ofChunks 0x0 0x0 0xc097ce7bc90715 0xb34b9f1000000000,
  ofChunks 0x0 0x0 0x785ee10d5da46d9 0xf436a000000000,
  ofChunks 0x0 0x0 0x4b3b4ca85a86c47a 0x98a224000000000,
  ofChunks 0x0 0x2 0xf050fe938943acc4 0x5f65568000000000,
  ofChunks 0x0 0x1d 0x6329f1c35ca4bfab 0xb9f5610000000000,
  ofChunks 0x0 0x125 0xdfa371a19e6f7cb5 0x4395ca0000000000,
  ofChunks 0x0 0xb7a 0xbc627050305adf14 0xa3d9e40000000000,
  ofChunks 0x0 0x72cb 0x5bd86321e38cb6ce 0x6682e80000000000,
  ofChunks 0x0 0x47bf1 0x9673df52e37f2410 0x11d100000000000,
  ofChunks 0x0 0x2cd76f 0xe086b93ce2f768a0 0xb22a00000000000,
  ofChunks 0x0 0x1c06a5e 0xc5433c60ddaa1640 0x6f5a400000000000,
  ofChunks 0x0 0x118427b3 0xb4a05bc8a8a4de84 0x5986800000000000,
  ofChunks 0x0 0xaf298d05 0xe4395d69670b12b 0x7f41000000000000,
  ofChunks 0x0 0x6d79f8232 0x8ea3da61e066ebb2 0xf88a000000000000,
  ofChunks 0x0 0x446c3b15f9 0x926687d2c40534fd 0xb564000000000000,
  ofChunks 0x0 0x2ac3a4edbbf 0xb8014e3ba83411e9 0x15e8000000000000,
  ofChunks 0x0 0x1aba4714957d 0x300d0e549208b31a 0xdb10000000000000,
  ofChunks 0x0 0x10b46c6cdd6e3 0xe0828f4db456ff0c 0x8ea0000000000000,
  ofChunks 0x0 0xa70c3c40a64e6 0xc51999090b65f67d 0x9240000000000000,
  ofChunks 0x0 0x6867a5a867f103 0xb2fffa5a71fba0e7 0xb680000000000000,
  ofChunks 0x0 0x4140c78940f6a24 0xfdffc78873d4490d 0x2100000000000000,
  ofChunks 0x0 0x28c87cb5c89a2571 0xebfdcb54864ada83 0x4a00000000000000,
  ofChunks 0x1 0x97d4df19d6057673 0x37e9f14d3eec8920 0xe400000000000000,
  ofChunks 0xf 0xee50b7025c36a080 0x2f236d04753d5b48 0xe800000000000000,
  ofChunks 0x9f 0x4f2726179a224501 0xd762422c946590d9 0x1000000000000000,
  ofChunks 0x639 0x17877cec0556b212 0x69d695bdcbf7a87a 0xa000000000000000,
  ofChunks 0x3e3a 0xeb4ae1383562f4b8 0x2261d969f7ac94ca 0x4000000000000000,
  ofChunks 0x26e4d 0x30eccc3215dd8f31 0x57d27e23acbdcfe6 0x8000000000000000,
  ofChunks 0x184f03 0xe93ff9f4daa797ed 0x6e38ed64bf6a1f01 0x0,
  ofChunks 0xf31627 0x1c7fc3908a8bef46 0x4e3945ef7a25360a 0x0,
  ofChunks 0x97edd87 0x1cfda3a5697758bf 0xe3cbb5ac5741c64 0x0,
  ofChunks 0x5ef4a747 0x21e864761ea97776 0x8e5f518bb6891be8 0x0,
  ofChunks 0x3b58e88c7 0x5313ec9d329eaaa1 0x8fb92f75215b1710 0x0,
  ofChunks 0x25179157c9 0x3ec73e23fa32aa4f 0x9d3bda934d8ee6a0 0x0,
  ofChunks 0x172ebad6ddc 0x73c86d67c5faa71c 0x245689c107950240 0x0,
  ofChunks 0xe7d34c64a9c 0x85d4460dbbca8719 0x6b61618a4bd21680 0x0,
  ofChunks 0x90e40fbeea1d 0x3a4abc8955e946fe 0x31cdcf66f634e100 0x0,
  ofChunks 0x5a8e89d752524 0x46eb5d5d5b1cc5ed 0xf20a1a059e10ca00 0x0,
  ofChunks 0x3899162693736a 0xc531a5a58f1fbb4b 0x746504382ca7e400 0x0,
  ofChunks 0x235fadd81c2822b 0xb3f07877973d50f2 0x8bf22a31be8ee800 0x0,
  ofChunks 0x161bcca7119915b5 0x764b4abe8652979 0x7775a5f171951000 0x0]

/-- `pow_ten`. A larger exponent is `CUDF_UNREACHABLE`. -/
def powTen (exp : ℕ) : Chunked256 := powTenTable.getD exp (ofChunks 0 0 0 0)

/-- `precision10`: the first power of ten that is not less than the absolute value, and -1 if there
is none. -/
def precision10 (value : Chunked256) : ℤ :=
  let value := if value.sign.slt 0 then value.negate else value
  match (List.range 77).find? (fun i => (powTen i).gteUnsigned value) with
  | some i => i
  | none => -1

/-- `is_greater_than_decimal_38` -/
def isGreaterThanDecimal38 (a : Chunked256) : Bool :=
  let maxNumberForPrecision := powTen 38
  let a := if a.sign ≠ 0 then a.negate else a
  a.gteUnsigned maxNumberForPrecision

/-- `check_scale_divisor`: what it does not throw on. -/
def checkScaleDivisor (sourceScale targetScale : ℤ) : Bool := targetScale - sourceScale ≤ 38

variable {x : Chunked256} {i : ℕ}

/-! ### The table -/

theorem powTenTable_eq : powTenTable.map toNat = (List.range 77).map (10 ^ ·) := rfl

theorem toNat_powTen (hi : i ≤ 76) : (powTen i).toNat = 10 ^ i := by
  have hlen : i < powTenTable.length := Nat.lt_succ_of_le hi
  have hget : (powTenTable.map toNat)[i]? = ((List.range 77).map (10 ^ ·))[i]? :=
    congrArg (fun powers => powers[i]?) powTenTable_eq
  rw [List.getElem?_map, List.getElem?_map, List.getElem?_range (by omega),
    List.getElem?_eq_getElem hlen] at hget
  have hpow : powTen i = powTenTable[i] := by
    rw [powTen, List.getD_eq_getElem _ _ hlen]
  rw [hpow]
  exact Option.some.inj hget

theorem pow_ten_lt (hi : i ≤ 76) : 10 ^ i < 2 ^ 255 :=
  calc 10 ^ i ≤ 10 ^ 76 := Nat.pow_le_pow_right (by norm_num) hi
    _ < 2 ^ 255 := by norm_num

theorem toInt_powTen (hi : i ≤ 76) : (powTen i).toInt = 10 ^ i := by
  have hlt := pow_ten_lt hi
  rw [toInt_eq_cond, toNat_powTen hi, if_pos hlt]
  push_cast
  rfl

/-- The powers up to the 38th one also fit into 128 bits. -/
theorem toInt_as128Bits_powTen (hi : i ≤ 38) : (powTen i).as128Bits.toInt = 10 ^ i := by
  have hpow : (10 : ℤ) ^ i ≤ 10 ^ 38 := pow_le_pow_right₀ (by norm_num) hi
  have hpos : (0 : ℤ) < 10 ^ i := by positivity
  have hint := toInt_powTen (i := i) (by omega)
  rw [toInt_as128Bits (by rw [hint]; linarith) (by rw [hint]; linarith), hint]

/-! ### Absolute values and digits -/

/-- Negating a negative value gives its absolute value as an unsigned number, also for the least
value, whose absolute value is not in the signed range. -/
theorem toNat_negate (h : x.toInt < 0) : x.negate.toNat = x.toInt.natAbs := by
  have hrange := inRange_toInt x
  have hneg := toInt_negate x
  have hcond := toInt_eq_cond x.negate
  have hlt := x.negate.toNat_lt
  rcases eq_or_ne x.toInt (-2 ^ 255) with hmin | hmin
  · rw [hmin] at hneg ⊢
    have hbmod : (-(-2 ^ 255 : ℤ)).bmod (2 ^ 256) = -2 ^ 255 := by decide
    rw [hbmod] at hneg
    split_ifs at hcond <;> omega
  · rw [bmod_of_inRange ⟨by have := hrange.1; omega, by have := hrange.1; omega⟩] at hneg
    split_ifs at hcond <;> omega

theorem toNat_of_nonneg (h : 0 ≤ x.toInt) : x.toNat = x.toInt.natAbs := by
  have hcond := toInt_eq_cond x
  have hlt := x.toNat_lt
  split_ifs at hcond <;> omega

/-- The absolute value that `precision10` and `divide` take. -/
theorem toNat_abs (x : Chunked256) :
    (if x.sign.slt 0 then x.negate else x).toNat = x.toInt.natAbs := by
  rcases lt_or_ge x.toInt 0 with hx | hx
  · rw [if_pos ((sign_slt_iff x).2 hx), toNat_negate hx]
  · rw [if_neg (fun hlt => absurd ((sign_slt_iff x).1 hlt) (not_lt.2 hx)), toNat_of_nonneg hx]

theorem gteUnsigned_iff (a b : Chunked256) : a.gteUnsigned b = true ↔ b.toNat ≤ a.toNat := by
  rw [gteUnsigned, Bool.not_eq_true', ← Bool.not_eq_true, ltUnsigned_iff, not_lt]

theorem isGreaterThanDecimal38_iff (a : Chunked256) :
    isGreaterThanDecimal38 a = true ↔ 10 ^ 38 ≤ |a.toInt| := by
  have habs : (if a.sign ≠ 0 then a.negate else a).toNat = a.toInt.natAbs := by
    rcases lt_or_ge a.toInt 0 with h | h
    · rw [if_pos ((sign_ne_iff a).2 h), toNat_negate h]
    · rw [if_neg (fun hne => absurd ((sign_ne_iff a).1 hne) (not_lt.2 h)), toNat_of_nonneg h]
  rw [isGreaterThanDecimal38, gteUnsigned_iff, habs, toNat_powTen (by norm_num), Int.abs_eq_natAbs]
  norm_cast

/-- The digits are counted for the number below a power of ten. -/
theorem precision10_eq (h : x.toInt.natAbs ≤ 10 ^ 76) :
    precision10 x = Nat.clog 10 x.toInt.natAbs := by
  have habs := toNat_abs x
  have hclog : Nat.clog 10 x.toInt.natAbs ≤ 76 := Nat.clog_le_of_le_pow h
  -- the loop stops at the first power that is large enough
  have hfind : (List.range 77).find?
      (fun i => (powTen i).gteUnsigned (if x.sign.slt 0 then x.negate else x)) =
        some (Nat.clog 10 x.toInt.natAbs) := by
    rw [List.find?_range_eq_some]
    refine ⟨?_, List.mem_range.2 (by omega), ?_⟩
    · rw [gteUnsigned_iff, habs, toNat_powTen hclog]
      exact Nat.le_pow_clog (by norm_num) _
    · intro j hj
      rw [Bool.not_eq_true', ← Bool.not_eq_true, gteUnsigned_iff, habs, toNat_powTen (by omega),
        not_le]
      exact Nat.pow_lt_of_lt_clog hj
  unfold precision10
  simp only [hfind]

end SparkRapids
