import Mathlib

/-!
# Registers of HyperLogLog++ sketches

A hash is counted in the register that its top bits name, with the rank of the rest of its bits
(`registerOf_eq`). A register of a sketch is the maximum of the ranks that it was counted with
(`maxRank`). Ten registers of six bits are packed in a `long` (`toNat_compactLong`), and are read back
from it (`getRegisterValue_packed`).

A row is a hash of 64 bits or null.
-/

namespace SparkRapids.HyperLogLog

/-- `REGISTER_VALUE_BITS` -/
def registerValueBits : ℕ := 6

/-- `REGISTERS_PER_LONG` -/
def registersPerLong : ℕ := 64 / registerValueBits

/-- The number of registers of a sketch. -/
def numRegistersPerSketch (precision : ℕ) : ℕ := 2 ^ precision

/-- The number of `long` columns of a sketch. -/
def numLongCols (precision : ℕ) : ℕ := numRegistersPerSketch precision / registersPerLong + 1

/-- `MASK` -/
def mask : BitVec 64 := (1#64 <<< registerValueBits) - 1#64

/-- `get_register_value` -/
def getRegisterValue (tenRegisters : BitVec 64) (regIdx : ℕ) : ℕ :=
  let shiftBits := registerValueBits * regIdx
  let shiftMask := mask <<< shiftBits
  ((tenRegisters &&& shiftMask) >>> shiftBits).toNat

/-- The index of the register and the value for a row. -/
def registerOf (precision : ℕ) : Option (BitVec 64) → ℕ × ℕ
  | none => (0, 0)
  | some hash =>
    let wPadding := 1#64 <<< (precision - 1)
    let idxShift := 64 - precision
    ((hash >>> idxShift).toNat, ((hash <<< precision ||| wPadding).clz).toNat + 1)

/-- The number of registers in a `long` of a sketch. -/
def numRegs (precision longIdx : ℕ) : ℕ :=
  if longIdx = numLongCols precision - 1 then numRegistersPerSketch precision % registersPerLong
  else registersPerLong

/-- The registers of a `long`, packed one after the other. -/
def compactLong (registers : ℕ → ℕ) (begin numRegs : ℕ) : BitVec 64 :=
  (List.range numRegs).foldl
    (fun tenRegisters i =>
      tenRegisters ||| BitVec.ofNat 64 (registers (begin + i)) <<< (registerValueBits * i)) 0#64

/-! ### What a sketch holds -/

/-- One more than the number of leading zeros of the bits behind the register index. -/
def rank (p : ℕ) (hash : BitVec 64) : ℕ :=
  1 + (64 - p - Nat.size (hash.toNat % 2 ^ (64 - p)))

/-- The greatest rank of the hashes of a register. -/
def maxRank (p : ℕ) (rows : List (Option (BitVec 64))) (r : ℕ) : ℕ :=
  (rows.filterMap fun row => row.bind fun hash =>
    if hash.toNat / 2 ^ (64 - p) = r then some (rank p hash) else none).foldr max 0

/-- The `long`s of a sketch: six bits for each of its registers. -/
def packed (p : ℕ) (registers : ℕ → ℕ) (longIdx : ℕ) : BitVec 64 :=
  BitVec.ofNat 64 (∑ i ∈ Finset.range (numRegs p longIdx),
    registers (longIdx * registersPerLong + i) * 64 ^ i)

/-- A null row is not counted, and its rank is one at least and 64 at most. -/
example : maxRank 4 [some 0xF000000000000001#64, none, some 0xF800000000000000#64] 15 = 60 := by
  decide

variable {p r i n a : ℕ} {rows rows' : List (Option (BitVec 64))} {hash : BitVec 64}

/-! ### Ranks -/

theorem foldr_max_le_iff {l : List ℕ} : l.foldr max 0 ≤ a ↔ ∀ x ∈ l, x ≤ a := by
  induction l with
  | nil => simp
  | cons x l ih => simp [ih]

theorem maxRank_le_iff : maxRank p rows r ≤ a ↔ ∀ hash, some hash ∈ rows →
    hash.toNat / 2 ^ (64 - p) = r → rank p hash ≤ a := by
  unfold maxRank
  rw [foldr_max_le_iff]
  constructor
  · intro h hash hmem heq
    refine h _ (List.mem_filterMap.2 ⟨some hash, hmem, ?_⟩)
    rw [Option.bind_some, if_pos heq]
  · intro h x hx
    obtain ⟨row, hrow, hx⟩ := List.mem_filterMap.1 hx
    obtain ⟨hash, rfl, hrank⟩ := Option.bind_eq_some_iff.1 hx
    split_ifs at hrank with heq
    exact Option.some.inj hrank ▸ h hash hrow heq

/-- A sketch is about the set of its rows. -/
theorem maxRank_congr (h : ∀ hash, some hash ∈ rows ↔ some hash ∈ rows') :
    maxRank p rows = maxRank p rows' := by
  ext r
  refine eq_of_forall_ge_iff fun a => ?_
  rw [maxRank_le_iff, maxRank_le_iff]
  exact forall_congr' fun hash => by rw [h]

theorem rank_le (h : 4 ≤ p) : rank p hash ≤ 61 := by
  unfold rank
  omega

theorem maxRank_lt (h : 4 ≤ p) : maxRank p rows r < 64 :=
  Nat.lt_of_le_of_lt (maxRank_le_iff.2 fun _ _ _ => rank_le h) (by decide)

/-- The leading zeros, by the size of a number. -/
theorem toNat_clz {x : BitVec 64} (hx : x ≠ 0#64) : x.clz.toNat = 64 - Nat.size x.toNat := by
  have hlow := BitVec.two_pow_sub_clz_le_toNat_of_ne_zero (by decide) hx
  have hhigh := BitVec.toNat_lt_two_pow_sub_clz (x := x)
  have hlt : x.clz.toNat < 64 := by
    have h := BitVec.clz_lt_iff_ne_zero.2 hx
    rwa [BitVec.lt_def] at h
  have hle := Nat.size_le.2 hhigh
  have hgt := Nat.lt_size.2 hlow
  omega

/-- The size of a number that the padding bit was put behind. -/
theorem size_padded {x p : ℕ} (hp : 0 < p) : Nat.size (x * 2 ^ p + 2 ^ (p - 1)) = Nat.size x + p := by
  obtain ⟨q, rfl⟩ : ∃ q, p = q + 1 := ⟨p - 1, by omega⟩
  rw [Nat.add_sub_cancel]
  have hpow : 2 ^ (q + 1) = 2 * 2 ^ q := by ring
  have hpos := Nat.two_pow_pos q
  apply le_antisymm
  · refine Nat.size_le.2 ?_
    have hlt := Nat.lt_size_self x
    calc x * 2 ^ (q + 1) + 2 ^ q < (x + 1) * 2 ^ (q + 1) := by rw [Nat.add_one_mul]; omega
      _ ≤ 2 ^ Nat.size x * 2 ^ (q + 1) := Nat.mul_le_mul_right _ hlt
      _ = 2 ^ (Nat.size x + (q + 1)) := (pow_add ..).symm
  · rcases Nat.eq_zero_or_pos (Nat.size x) with hzero | hx
    · obtain rfl := Nat.size_eq_zero.1 hzero
      refine Nat.lt_size.2 ?_
      simp
    · obtain ⟨s, hs⟩ : ∃ s, Nat.size x = s + 1 := ⟨Nat.size x - 1, by omega⟩
      have hle := Nat.lt_size.1 (show s < Nat.size x by omega)
      have hsum : Nat.size x + (q + 1) = s + (q + 1) + 1 := by omega
      rw [hsum]
      refine Nat.lt_size.2 ?_
      calc 2 ^ (s + (q + 1)) = 2 ^ s * 2 ^ (q + 1) := pow_add ..
        _ ≤ x * 2 ^ (q + 1) := Nat.mul_le_mul_right _ hle
        _ ≤ _ := Nat.le_add_right ..

theorem toNat_padded (hlow : 1 ≤ p) (hhigh : p ≤ 63) :
    (hash <<< p ||| 1#64 <<< (p - 1)).toNat =
      hash.toNat % 2 ^ (64 - p) * 2 ^ p + 2 ^ (p - 1) := by
  have hpow : 2 ^ 64 = 2 ^ (64 - p) * 2 ^ p := by
    rw [← pow_add]
    congr 1
    omega
  have hpad : (1#64 <<< (p - 1)).toNat = 2 ^ (p - 1) := by
    rw [BitVec.toNat_shiftLeft, Nat.shiftLeft_eq, BitVec.toNat_ofNat,
      Nat.mod_eq_of_lt (show 1 < 2 ^ 64 by decide), one_mul, Nat.mod_eq_of_lt]
    exact Nat.pow_lt_pow_right (by decide) (by omega)
  have hhash : (hash <<< p).toNat =
      2 ^ p * (hash.toNat % 2 ^ (64 - p)) := by
    rw [BitVec.toNat_shiftLeft, Nat.shiftLeft_eq, hpow, Nat.mul_mod_mul_right, Nat.mul_comm]
  rw [BitVec.toNat_or, hpad, hhash, ← Nat.two_pow_add_eq_or_of_lt, Nat.mul_comm]
  exact Nat.pow_lt_pow_right (by decide) (by omega)

/-- The register of a hash is the one that its top bits name, and its value is the rank. -/
theorem registerOf_eq (hlow : 4 ≤ p) (hhigh : p ≤ 18) :
    registerOf p (some hash) =
      (hash.toNat / 2 ^ (64 - p), rank p hash) := by
  have hpadded := @toNat_padded p hash (show 1 ≤ p by omega) (by omega)
  have hne : hash <<< p ||| 1#64 <<< (p - 1) ≠ 0#64 := by
    intro h
    have hpos := Nat.two_pow_pos (p - 1)
    rw [h, BitVec.toNat_ofNat, Nat.zero_mod] at hpadded
    omega
  have hsize := size_padded (x := hash.toNat % 2 ^ (64 - p)) (show 0 < p by omega)
  have hbound : Nat.size (hash.toNat % 2 ^ (64 - p)) ≤ 64 - p :=
    Nat.size_le.2 (Nat.mod_lt _ (Nat.two_pow_pos _))
  unfold registerOf rank
  refine Prod.ext ?_ ?_
  · exact BitVec.toNat_ushiftRight .. |>.trans (Nat.shiftRight_eq_div_pow ..)
  · dsimp only
    rw [toNat_clz hne, hpadded, hsize]
    omega

/-! ### Packing -/

/-- The digits of a number. -/
theorem sum_div_mod {b : ℕ} {f : ℕ → ℕ} (hb : 0 < b) (hf : ∀ i, f i < b) (hi : i < n) :
    (∑ j ∈ Finset.range n, f j * b ^ j) / b ^ i % b = f i := by
  induction i generalizing f n with
  | zero =>
    obtain ⟨n, rfl⟩ : ∃ m, n = m + 1 := ⟨n - 1, by omega⟩
    have hdvd : b ∣ ∑ j ∈ Finset.range n, f (j + 1) * b ^ (j + 1) :=
      Finset.dvd_sum fun j _ => Dvd.dvd.mul_left (dvd_pow_self b (Nat.succ_ne_zero j)) _
    obtain ⟨q, hq⟩ := hdvd
    rw [Finset.sum_range_succ', hq, pow_zero, Nat.div_one, mul_one,
      Nat.mul_add_mod, Nat.mod_eq_of_lt (hf 0)]
  | succ i ih =>
    obtain ⟨n, rfl⟩ : ∃ m, n = m + 1 := ⟨n - 1, by omega⟩
    have hshift : ∑ j ∈ Finset.range n, f (j + 1) * b ^ (j + 1) =
        b * ∑ j ∈ Finset.range n, f (j + 1) * b ^ j := by
      rw [Finset.mul_sum]
      exact Finset.sum_congr rfl fun j _ => by ring
    rw [Finset.sum_range_succ', hshift, pow_zero, mul_one, pow_succ', ← Nat.div_div_eq_div_mul,
      Nat.mul_add_div hb, Nat.div_eq_of_lt (hf 0), Nat.add_zero]
    exact ih (fun j => hf (j + 1)) (by omega)

theorem sum_lt_pow {b : ℕ} {f : ℕ → ℕ} (hf : ∀ i, f i < b) (n : ℕ) :
    ∑ j ∈ Finset.range n, f j * b ^ j < b ^ n := by
  induction n with
  | zero => simp
  | succ n ih =>
    have hle : (f n + 1) * b ^ n ≤ b * b ^ n := Nat.mul_le_mul_right _ (hf n)
    rw [Finset.sum_range_succ, pow_succ']
    rw [Nat.add_one_mul] at hle
    omega

theorem toNat_compactLong {regs : ℕ → ℕ} {begin : ℕ} (hregisters : ∀ r, regs r < 64)
    (hn : n ≤ 10) : (compactLong regs begin n).toNat =
      ∑ i ∈ Finset.range n, regs (begin + i) * 64 ^ i := by
  induction n with
  | zero => rfl
  | succ n ih =>
    have ih := ih (by omega)
    have hpow : 64 ^ n = 2 ^ (6 * n) := by
      rw [pow_mul]
      rfl
    have hlt := sum_lt_pow (fun i => hregisters (begin + i)) n
    have hsplit : 2 ^ 64 = 2 ^ (6 * n) * 2 ^ (64 - 6 * n) := by
      rw [← pow_add]
      congr 1
      omega
    have hvalue : regs (begin + n) < 2 ^ (64 - 6 * n) := by
      calc regs (begin + n) < 2 ^ 6 := hregisters _
        _ ≤ 2 ^ (64 - 6 * n) := Nat.pow_le_pow_right (by decide) (by omega)
    have hshifted : (BitVec.ofNat 64 (regs (begin + n)) <<< (registerValueBits * n)).toNat =
        2 ^ (6 * n) * regs (begin + n) := by
      have hsmall := hregisters (begin + n)
      rw [BitVec.toNat_shiftLeft, Nat.shiftLeft_eq, BitVec.toNat_ofNat,
        Nat.mod_eq_of_lt (show regs (begin + n) < 2 ^ 64 by omega), Nat.mul_comm]
      exact Nat.mod_eq_of_lt (hsplit ▸ Nat.mul_lt_mul_of_pos_left hvalue (Nat.two_pow_pos _))
    have hstep : compactLong regs begin (n + 1) = compactLong regs begin n |||
        BitVec.ofNat 64 (regs (begin + n)) <<< (registerValueBits * n) := by
      unfold compactLong
      rw [List.range_succ, List.foldl_append]
      rfl
    rw [hpow] at hlt
    rw [hstep, BitVec.toNat_or, ih, hshifted, Nat.or_comm, ← Nat.two_pow_add_eq_or_of_lt hlt,
      Finset.sum_range_succ, hpow]
    ring

theorem numRegs_le (p longIdx : ℕ) : numRegs p longIdx ≤ 10 := by
  unfold numRegs
  split_ifs
  · exact (Nat.mod_lt _ (by decide)).le
  · decide

theorem compactLong_eq {regs : ℕ → ℕ} (hregisters : ∀ r, regs r < 64) (longIdx : ℕ) :
    compactLong regs (longIdx * registersPerLong) (numRegs p longIdx) =
      packed p regs longIdx := by
  have hsum := sum_lt_pow (fun i => hregisters (longIdx * registersPerLong + i))
    (numRegs p longIdx)
  have hpow : 64 ^ numRegs p longIdx ≤ 2 ^ 64 := by
    calc 64 ^ numRegs p longIdx ≤ 64 ^ 10 :=
          Nat.pow_le_pow_right (by decide) (numRegs_le ..)
      _ ≤ 2 ^ 64 := by decide
  refine BitVec.eq_of_toNat_eq ?_
  rw [toNat_compactLong hregisters (numRegs_le ..), packed, BitVec.toNat_ofNat,
    Nat.mod_eq_of_lt (hsum.trans_le hpow)]

theorem compactLong_congr {regs registers' : ℕ → ℕ} {begin : ℕ}
    (h : ∀ i < n, regs (begin + i) = registers' (begin + i)) :
    compactLong regs begin n = compactLong registers' begin n := by
  refine List.foldl_ext _ _ _ fun tenRegisters i hi => ?_
  rw [h i (List.mem_range.1 hi)]

/-- The registers of a `long` are registers of the sketch. -/
theorem lt_numRegistersPerSketch {longIdx : ℕ} (hlong : longIdx < numLongCols p)
    (hi : i < numRegs p longIdx) :
    longIdx * registersPerLong + i < numRegistersPerSketch p := by
  have hdiv := Nat.div_add_mod' (numRegistersPerSketch p) registersPerLong
  unfold numRegs at hi
  unfold numLongCols at hlong hi
  rw [Nat.add_sub_cancel] at hi
  split_ifs at hi with hlast
  · rw [hlast]
    omega
  · have hsucc : (longIdx + 1) * registersPerLong ≤
        numRegistersPerSketch p / registersPerLong * registersPerLong :=
      Nat.mul_le_mul_right _ (by omega)
    rw [Nat.succ_mul] at hsucc
    omega

theorem getRegisterValue_eq {long : BitVec 64} (hi : i < 10) :
    getRegisterValue long i = long.toNat / 64 ^ i % 64 := by
  have hpow : 64 ^ i = 2 ^ (registerValueBits * i) := by
    rw [pow_mul]
    rfl
  unfold getRegisterValue
  dsimp only
  rw [BitVec.ushiftRight_and_distrib, BitVec.toNat_and, BitVec.toNat_ushiftRight,
    Nat.shiftRight_eq_div_pow, hpow]
  have hmask : (mask <<< (registerValueBits * i) >>> (registerValueBits * i)).toNat = 2 ^ 6 - 1 := by
    interval_cases i <;> decide
  rw [hmask, Nat.and_two_pow_sub_one_eq_mod]

theorem getRegisterValue_lt {long : BitVec 64} (hi : i < 10) : getRegisterValue long i < 64 := by
  rw [getRegisterValue_eq hi]
  exact Nat.mod_lt _ (by decide)

/-- The registers are read back. -/
theorem getRegisterValue_packed {regs : ℕ → ℕ} {longIdx : ℕ}
    (hregisters : ∀ r, regs r < 64) (hi : i < numRegs p longIdx) :
    getRegisterValue (packed p regs longIdx) i =
      regs (longIdx * registersPerLong + i) := by
  have hten := numRegs_le p longIdx
  rw [getRegisterValue_eq (by omega), ← compactLong_eq hregisters, toNat_compactLong hregisters hten]
  exact sum_div_mod (by decide) (fun j => hregisters _) hi

/-- Every register is in one of the `long`s. -/
theorem mod_lt_numRegs (hr : r < numRegistersPerSketch p) :
    r % registersPerLong < numRegs p (r / registersPerLong) := by
  have hmod := Nat.mod_lt r (show 0 < registersPerLong by decide)
  unfold numRegs numLongCols
  rw [Nat.add_sub_cancel]
  split_ifs with hlong
  · have hr' := Nat.div_add_mod r registersPerLong
    have htotal := Nat.div_add_mod (numRegistersPerSketch p) registersPerLong
    rw [hlong] at hr'
    omega
  · exact hmod

theorem getRegisterValue_packed_div {regs : ℕ → ℕ} (hregisters : ∀ r, regs r < 64)
    (hr : r < numRegistersPerSketch p) :
    getRegisterValue (packed p regs (r / registersPerLong)) (r % registersPerLong) =
      regs r := by
  rw [getRegisterValue_packed hregisters (mod_lt_numRegs hr)]
  congr 1
  exact Nat.div_add_mod' r registersPerLong

end SparkRapids.HyperLogLog
