import SparkRapidsJni.ZOrder.HilbertIndex
import SparkRapidsJni.Lib.Hilbert

/-!
# Packed arrays by bit planes

The packed array is read plane by plane (`planeOf`). In this view the loops of
`hilbert_transposed_index` undo the turns of the planes (`planes_inverseUndo`) and decode the Gray code
of what is left (`flatMap_transposed`).
-/

namespace SparkRapids.ZOrder

open Hilbert

variable {b n : Nat} {x : UintBackedArray b}

/-! ### Bits of packed arrays -/

theorem getLsbD_mask (hb : b ≤ 32) (k : Nat) :
    (UintBackedArray.mask b).getLsbD k = decide (k < b) := by
  have hpow : (1#64 <<< b - 1#64).toNat = 2 ^ b - 1 := by
    have hle : 2 ^ b ≤ 2 ^ 32 := Nat.pow_le_pow_right (by decide) hb
    have hpos : 0 < 2 ^ b := Nat.two_pow_pos b
    rw [BitVec.toNat_sub, BitVec.toNat_shiftLeft]
    simp only [BitVec.toNat_ofNat, Nat.shiftLeft_eq]
    omega
  unfold UintBackedArray.mask
  rw [BitVec.truncate_eq_setWidth, BitVec.getLsbD_setWidth]
  show (decide (k < 32) && (1#64 <<< b - 1#64).toNat.testBit k) = _
  rw [hpow, Nat.testBit_two_pow_sub_one, ← Bool.decide_and]
  exact decide_eq_decide.2 (by omega)

theorem getLsbD_get (hb : b ≤ 32) (i k : Nat) :
    (x.get i).getLsbD k = (decide (k < b) && x.data.getLsbD (b * i + k)) := by
  unfold UintBackedArray.get
  simp only [BitVec.truncate_eq_setWidth, BitVec.getLsbD_setWidth, BitVec.getLsbD_and,
    BitVec.getLsbD_ushiftRight, getLsbD_mask hb]
  by_cases hk : k < b
  · simp [hk, show k < 32 by omega, show k < 64 by omega]
  · simp [hk]

/-- An entry that was set, and the other ones. -/
theorem getLsbD_set (hb : b ≤ 32) {i j k : Nat} (hj : b * (j + 1) ≤ 64) (hk : k < b)
    (value : BitVec 32) : ((x.set i value).get j).getLsbD k =
      if j = i then value.getLsbD k else (x.get j).getLsbD k := by
  rw [Nat.mul_succ] at hj
  rw [getLsbD_get hb, getLsbD_get hb, decide_eq_true hk, Bool.true_and, Bool.true_and]
  unfold UintBackedArray.set
  simp only [BitVec.zeroExtend_eq_setWidth, BitVec.getLsbD_or, BitVec.getLsbD_and,
    BitVec.getLsbD_not, BitVec.getLsbD_shiftLeft, BitVec.getLsbD_setWidth, getLsbD_mask hb]
  have hlt : b * j + k < 64 := by omega
  rcases lt_trichotomy j i with hji | rfl | hji
  · have hle : b * (j + 1) ≤ b * i := Nat.mul_le_mul_left b hji
    rw [Nat.mul_succ] at hle
    have hbefore : b * j + k < i * b := by
      rw [Nat.mul_comm i]
      omega
    simp [hlt, hbefore, hji.ne]
  · have hoffset : b * j + k - j * b = k := by
      rw [Nat.mul_comm b]
      omega
    have hafter : ¬b * j + k < j * b := by
      rw [Nat.mul_comm b]
      omega
    simp [hlt, hafter, hoffset, hk, show k < 64 by omega]
  · have hle : b * (i + 1) ≤ b * j := Nat.mul_le_mul_left b hji
    rw [Nat.mul_succ] at hle
    have hoffset : ¬b * j + k - i * b < b := by
      rw [Nat.mul_comm i]
      omega
    simp [hlt, hji.ne', hoffset]

/-- The bit planes of the first `n` entries. -/
def planeOf (n : Nat) (x : UintBackedArray b) (k : Nat) : Plane := fun j =>
  decide (j < n) && (x.get j).getLsbD k

/-- The planes below `k`, the most significant one first. -/
def planes (n : Nat) (x : UintBackedArray b) : Nat → List Plane
  | 0 => []
  | k + 1 => planeOf n x k :: planes n x k

theorem planeOf_apply {j : Nat} (hj : j < n) (k : Nat) :
    planeOf n x k j = (x.get j).getLsbD k := by
  simp [planeOf, hj]

theorem supported_planeOf (k : Nat) : Supported n (planeOf n x k) := fun j hj => by
  simp [planeOf, not_lt.2 hj]

theorem supported_planes (k : Nat) : ∀ v ∈ planes n x k, Supported n v := by
  induction k with
  | zero => exact fun v hv => absurd hv List.not_mem_nil
  | succ k ih => exact List.forall_mem_cons.2 ⟨supported_planeOf k, ih⟩

@[simp] theorem length_planes (k : Nat) : (planes n x k).length = k := by
  induction k with
  | zero => rfl
  | succ k ih => rw [planes, List.length_cons, ih]

/-- What is stored at `i` replaces the bits of one coordinate. -/
theorem planeOf_set (hb : b ≤ 32) (hn : b * n ≤ 64) {i k : Nat} (hi : i < n) (hk : k < b)
    (value : BitVec 32) :
    planeOf n (x.set i value) k = Function.update (planeOf n x k) i (value.getLsbD k) := by
  funext j
  rw [Function.update_apply]
  by_cases hj : j < n
  · have hle : b * (j + 1) ≤ b * n := Nat.mul_le_mul_left b hj
    rw [planeOf_apply hj, planeOf_apply hj, getLsbD_set hb (by omega) hk]
  · rw [if_neg (by omega)]
    simp [planeOf, hj]

/-! ### Inverse undo -/

theorem and_shift_ne_zero {w : Nat} (v : BitVec w) {m : Nat} (hm : m < w) :
    v &&& 1#w <<< m ≠ 0 ↔ v.getLsbD m = true := by
  have htwo : v &&& 1#w <<< m = if v.getLsbD m then BitVec.twoPow w m else 0#w :=
    BitVec.and_twoPow v m
  rw [htwo]
  cases v.getLsbD m with
  | false => simp
  | true =>
    have hbit : (BitVec.twoPow w m).getLsbD m = true := by
      simp [hm]
    refine iff_of_true (fun hzero => ?_) rfl
    rw [if_pos rfl] at hzero
    rw [hzero] at hbit
    simp at hbit

theorem xor_xor_self (p q : Bool) : (p ^^ (q ^^ p)) = q := by
  cases p <;> cases q <;> rfl

theorem getLsbD_shift_sub_one {m : Nat} (hm : m < 32) (k : Nat) :
    (1#32 <<< m - 1).getLsbD k = decide (k < m) := by
  have hpow : (1#32 <<< m - 1).toNat = 2 ^ m - 1 := by
    have hlt : 2 ^ m < 2 ^ 32 := Nat.pow_lt_pow_right (by decide) hm
    have hpos : 0 < 2 ^ m := Nat.two_pow_pos m
    rw [BitVec.toNat_sub, BitVec.toNat_shiftLeft]
    simp only [BitVec.toNat_ofNat, BitVec.ofNat_eq_ofNat, Nat.shiftLeft_eq]
    omega
  show (1#32 <<< m - 1).toNat.testBit k = _
  rw [hpow, Nat.testBit_two_pow_sub_one]

section Undo

variable (hb : b ≤ 32) (hn : b * n ≤ 64)
include hb hn

/-- One step turns the planes below the bit that it looks at. -/
theorem planeOf_undoEntry {i k m : Nat} (hi : i < n) (hm : m < b) (hk : k < b) :
    planeOf n (undoEntry (1#32 <<< m) x i) k =
      if k < m then turnStep (planeOf n x m i) i (planeOf n x k) else planeOf n x k := by
  have hpos : 0 < n := by omega
  have hcond := and_shift_ne_zero (x.get i) (show m < 32 by omega)
  unfold undoEntry
  dsimp only
  by_cases hbit : (x.get i).getLsbD m = true
  · rw [if_pos (hcond.2 hbit), planeOf_set hb hn hpos hk, BitVec.getLsbD_xor,
      getLsbD_shift_sub_one (by omega), planeOf_apply hi, hbit, ← planeOf_apply hpos]
    split_ifs with hkm
    · simp [turnStep, hkm]
    · simp [hkm]
  · have hset : ∀ value : BitVec 32, ((x.set 0 value).get i).getLsbD k =
        Function.update (planeOf n x k) 0 (value.getLsbD k) i := by
      intro value
      rw [← planeOf_apply hi, planeOf_set hb hn hpos hk]
    have hshift := getLsbD_shift_sub_one (show m < 32 by omega) k
    rw [if_neg (mt hcond.1 hbit), planeOf_set hb hn hi hk, planeOf_set hb hn hpos hk,
      planeOf_apply hi m, Bool.eq_false_of_not_eq_true hbit]
    simp only [BitVec.getLsbD_xor, BitVec.getLsbD_and, hset, hshift]
    rw [← planeOf_apply hpos, ← planeOf_apply hi]
    funext j
    split_ifs with hkm
    · -- the two entries are exchanged
      simp only [turnStep, Function.update_apply, Bool.false_eq_true, if_false, Function.comp_apply,
        Equiv.swap_apply_def, hkm, decide_true, Bool.and_true]
      split_ifs <;> simp_all [xor_xor_self]
    · simp only [Function.update_apply, hkm, decide_false, Bool.and_false, Bool.xor_false]
      split_ifs <;> simp_all

/-- The inner loop turns the planes below by the plane that it looks at. -/
theorem planeOf_undoEntries {i k m : Nat} (hi : i ≤ n) (hm : m < b) (hk : k < b) :
    planeOf n ((List.range i).foldl (undoEntry (1#32 <<< m)) x) k =
      if k < m then turn 0 (digits i (planeOf n x m)) (planeOf n x k) else planeOf n x k := by
  induction i generalizing k with
  | zero => simp [digits, turn]
  | succ i ih =>
    rw [List.range_succ, List.foldl_append, List.foldl_cons, List.foldl_nil,
      planeOf_undoEntry hb hn (by omega) hm hk, ih (by omega) hk, ih (by omega) hm,
      if_neg (lt_irrefl m), digits_succ, turn_append, length_digits, Nat.zero_add]
    split_ifs <;> rfl

/-- "Inverse undo" undoes the turns of the planes. -/
theorem planes_inverseUndo {k : Nat} (hk : k < b) :
    planes n (inverseUndo n k x) (k + 1) = undo n (planes n x (k + 1)) ∧
      ∀ m, k < m → m < b → planeOf n (inverseUndo n k x) m = planeOf n x m := by
  induction k generalizing x with
  | zero => exact ⟨by simp [inverseUndo, planes, undo], fun m _ _ => rfl⟩
  | succ k ih =>
    have hentries := fun {m : Nat} (hm : m < b) =>
      planeOf_undoEntries (x := x) hb hn le_rfl hk hm
    obtain ⟨hplanes, habove⟩ := ih (x := (List.range n).foldl (undoEntry (1#32 <<< (k + 1))) x)
      (by omega)
    -- the planes below `k + 1` are turned by it
    have hturned : ∀ l ≤ k + 1, planes n ((List.range n).foldl (undoEntry (1#32 <<< (k + 1))) x) l =
        (planes n x l).map (turn 0 (digits n (planeOf n x (k + 1)))) := by
      intro l hl
      induction l with
      | zero => rfl
      | succ l ihl =>
        rw [planes, ihl (by omega), hentries (by omega), if_pos (by omega), planes, List.map_cons]
    constructor
    · rw [inverseUndo, planes, habove (k + 1) (by omega) hk, hplanes, hturned (k + 1) le_rfl,
        hentries hk, if_neg (lt_irrefl _), ← undo_cons]
      rfl
    · intro m hkm hm
      rw [inverseUndo, habove m (by omega) hm, hentries hm, if_neg (by omega)]

/-! ### Gray encode -/

theorem planeOf_grayLoop {k m : Nat} (hk : k < b) (hm : m < n) (j : Nat) :
    planeOf n ((List.range' 1 m).foldl (fun x i => x.set i (x.get i ^^^ x.get (i - 1))) x) k j =
      if j ≤ m then prefixXor (planeOf n x k) j else planeOf n x k j := by
  induction m generalizing j with
  | zero =>
    split_ifs with hj
    · rw [Nat.le_zero.1 hj]
      rfl
    · rfl
  | succ m ih =>
    have hlast : List.range' 1 (m + 1) = List.range' 1 m ++ [m + 1] := by
      rw [List.range'_concat, Nat.one_mul, Nat.add_comm]
    rw [hlast, List.foldl_append, List.foldl_cons, List.foldl_nil, planeOf_set hb hn hm hk,
      BitVec.getLsbD_xor, ← planeOf_apply hm, ← planeOf_apply (show m + 1 - 1 < n by omega),
      Function.update_apply, ih (by omega), ih (by omega), ih (by omega),
      if_neg (show ¬m + 1 ≤ m by omega), if_pos (show m + 1 - 1 ≤ m by omega)]
    by_cases hj : j = m + 1
    · rw [if_pos hj, if_pos hj.le, hj]
      exact Bool.xor_comm _ _
    · rw [if_neg hj]
      congr 1
      exact propext (by omega)

/-- The first loop stores the sums of the bits of a plane. -/
theorem planeOf_grayEntries {j k : Nat} (hk : k < b) (hj : j < n) :
    planeOf n (grayEntries n x) k j = prefixXor (planeOf n x k) j := by
  unfold grayEntries
  rw [planeOf_grayLoop hb hn hk (by omega), if_pos (by omega)]

omit hb hn

/-- The sum of the bits above a place, up to the bit `k`. -/
def above (f : Nat → Bool) : Nat → Nat → Bool
  | 0, _ => false
  | k + 1, i => above f k i ^^ (decide (i < k + 1) && f (k + 1))

theorem above_self (f : Nat → Bool) {k i : Nat} (h : k ≤ i) : above f k i = false := by
  induction k with
  | zero => rfl
  | succ k ih => rw [above, ih (by omega), decide_eq_false (by omega)]; rfl

theorem above_succ (f : Nat → Bool) (k i : Nat) :
    above f k i = (above f k (i + 1) ^^ (decide (i + 1 ≤ k) && f (i + 1))) := by
  induction k with
  | zero => rfl
  | succ k ih =>
    rcases lt_trichotomy i k with h | rfl | h
    · rw [above, above, ih]
      simp only [show i < k + 1 by omega, show i + 1 < k + 1 by omega, show i + 1 ≤ k by omega,
        show i + 1 ≤ k + 1 by omega, decide_true, Bool.true_and]
      rw [Bool.xor_assoc, Bool.xor_assoc, Bool.xor_comm (f (i + 1))]
    · rw [above_self f (le_refl (i + 1)), above, above_self f (le_refl i)]
      simp
    · rw [above_self f (by omega), above_self f (by omega)]
      simp [show ¬i ≤ k by omega]

theorem getLsbD_grayParity (last t : BitVec 32) {k : Nat} (hk : k < 32) (i : Nat) :
    (grayParity last k t).getLsbD i = (t.getLsbD i ^^ above last.getLsbD k i) := by
  induction k generalizing t with
  | zero => simp [grayParity, above]
  | succ k ih =>
    have hcond := and_shift_ne_zero last hk
    have hshift := getLsbD_shift_sub_one hk i
    rw [grayParity, ih _ (by omega), above]
    cases hbit : last.getLsbD (k + 1) with
    | true =>
      rw [if_pos (hcond.2 hbit), BitVec.getLsbD_xor, hshift, Bool.xor_assoc, Bool.and_true,
        Bool.xor_comm (decide _)]
    | false =>
      rw [if_neg (mt hcond.1 (by rw [hbit]; exact Bool.false_ne_true)), Bool.and_false,
        Bool.xor_false]

include hb hn

/-- The last loop adds a bit of `t` to a plane. -/
theorem planeOf_addAll (t : BitVec 32) {i k : Nat} (hi : i ≤ n) (hk : k < b) (j : Nat) :
    planeOf n ((List.range i).foldl (fun x i => x.set i (x.get i ^^^ t)) x) k j =
      if j < i then planeOf n x k j ^^ t.getLsbD k else planeOf n x k j := by
  induction i generalizing j with
  | zero => simp
  | succ i ih =>
    rw [List.range_succ, List.foldl_append, List.foldl_cons, List.foldl_nil,
      planeOf_set hb hn (by omega) hk, BitVec.getLsbD_xor, ← planeOf_apply (show i < n by omega),
      Function.update_apply, ih (by omega), ih (by omega), if_neg (lt_irrefl i)]
    by_cases hj : j = i
    · rw [if_pos hj, if_pos (by omega), hj]
    · rw [if_neg hj]
      congr 1
      exact propext (by omega)

/-- The bits of the transposed index are the number whose Gray code is the code of the point. -/
theorem flatMap_transposed (hpos : 0 < n) (hbits : 0 < b) :
    (planes n (hilbertTransposedIndex x n) b).flatMap (digits n) =
      grayDecode false (code n (planes n x b)) := by
  obtain ⟨m, rfl⟩ : ∃ m, n = m + 1 := ⟨n - 1, by omega⟩
  obtain ⟨u, hu⟩ : ∃ u, inverseUndo (m + 1) (b - 1) x = u := ⟨_, rfl⟩
  obtain ⟨last, hlast⟩ : ∃ v, (grayEntries (m + 1) u).get m = v := ⟨_, rfl⟩
  have hplane : ∀ k < b, ∀ j < m + 1, planeOf (m + 1) (hilbertTransposedIndex x (m + 1)) k j =
      (above last.getLsbD (b - 1) k ^^ prefixXor (planeOf (m + 1) u k) j) := by
    intro k hk j hj
    unfold hilbertTransposedIndex
    dsimp only
    rw [hu, Nat.add_sub_cancel, hlast, planeOf_addAll hb hn _ le_rfl hk, if_pos hj,
      planeOf_grayEntries hb hn hk hj, getLsbD_grayParity _ _ (by omega), Bool.xor_comm]
    simp
  have hsum : ∀ k < b, last.getLsbD k = prefixXor (planeOf (m + 1) u k) m := by
    intro k hk
    rw [← hlast, ← planeOf_apply (Nat.lt_succ_self m),
      planeOf_grayEntries hb hn hk (Nat.lt_succ_self m)]
  -- from the least significant plane up
  have hdecode : ∀ k < b, (planes (m + 1) (hilbertTransposedIndex x (m + 1)) (k + 1)).flatMap
      (digits (m + 1)) = grayDecode (above last.getLsbD (b - 1) k)
        ((planes (m + 1) u (k + 1)).flatMap (digits (m + 1))) := by
    intro k
    induction k using Nat.strong_induction_on with
    | _ k hdecode =>
    intro hk
    have hdigits : digits (m + 1) (planeOf (m + 1) (hilbertTransposedIndex x (m + 1)) k) =
        digits (m + 1) fun j => above last.getLsbD (b - 1) k ^^ prefixXor (planeOf (m + 1) u k) j :=
      List.map_congr_left fun j hj => hplane k hk j (List.mem_range.1 hj)
    rw [planes, planes, List.flatMap_cons, List.flatMap_cons, grayDecode_digits, hdigits, ← hsum k hk]
    congr 1
    cases k with
    | zero => rfl
    | succ k =>
      have hsucc := above_succ last.getLsbD (b - 1) k
      rw [decide_eq_true (by omega), Bool.true_and] at hsucc
      rw [← hsucc]
      exact hdecode k (Nat.lt_succ_self k) (by omega)
  have hcode : code (m + 1) (planes (m + 1) x b) =
      (planes (m + 1) u b).flatMap (digits (m + 1)) := by
    have hundo := (planes_inverseUndo (x := x) hb hn (show b - 1 < b by omega)).1
    rw [Nat.sub_add_cancel hbits, hu] at hundo
    unfold code
    rw [hundo]
  have hall := hdecode (b - 1) (by omega)
  rwa [Nat.sub_add_cancel hbits, above_self _ le_rfl, ← hcode] at hall

end Undo

end SparkRapids.ZOrder
