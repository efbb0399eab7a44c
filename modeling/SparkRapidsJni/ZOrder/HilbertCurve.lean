import SparkRapidsJni.ZOrder.Planes

/-!
# The indices follow a Hilbert curve

`to_hilbert_index` reads the bits of the planes as a number (`toNat_toHilbertIndex`), so that the index
of a row is the number whose Gray code is the code of its point (`toNat_hilbertIndexRow`). The curve
goes through every point once, and from each to a neighbour (`hilbertIndex_curve`).
-/

namespace SparkRapids.ZOrder

open Hilbert

variable {b n : Nat} {x : UintBackedArray b}

/-! ### Interleaved bits -/

/-- A bit is put behind the bits before it. -/
theorem toNat_or_shift {v : BitVec 64} {r c : Nat} (hr : r < 64) (h : v.toNat = 2 ^ (r + 1) * c) :
    (v ||| 1#64 <<< r).toNat = 2 ^ r * (2 * c + 1) := by
  have hlt : 2 ^ r < 2 ^ (r + 1) := Nat.pow_lt_pow_right (by decide) (Nat.lt_succ_self r)
  have hshift : (1#64 <<< r).toNat = 2 ^ r := by
    have hlt64 : 2 ^ r < 2 ^ 64 := Nat.pow_lt_pow_right (by decide) hr
    rw [BitVec.toNat_shiftLeft, Nat.shiftLeft_eq]
    simp only [BitVec.toNat_ofNat]
    omega
  rw [BitVec.toNat_or, hshift, h, ← Nat.two_pow_add_eq_or_of_lt hlt, pow_succ]
  ring

/-- The inner loop puts the bits of a plane behind what it has. -/
theorem indexInner_spec {s : IndexLoop} {k r c : Nat} (hk : k < 32) (hr : r + n ≤ 64)
    (hmask : s.mask = 1#64 <<< k) (hindex : s.bIndex = (r + n : Nat) - 1)
    (hvalue : s.b.toNat = 2 ^ (r + n) * c) :
    (indexInner x n s).mask = s.mask ∧ (indexInner x n s).bIndex = (r : Int) - 1 ∧
      (indexInner x n s).b.toNat = 2 ^ r * (c * 2 ^ n + binary (digits n (planeOf n x k))) := by
  -- each bit of the plane goes to the place of the index
  have hloop : ∀ i ≤ n, ∀ s', (List.range i).foldl (fun s j =>
      { s with
        b := if (x.get j).zeroExtend 64 &&& s.mask ≠ 0 then s.b ||| 1#64 <<< s.bIndex.toNat
          else s.b
        bIndex := s.bIndex - 1 }) s = s' →
      s'.mask = s.mask ∧ s'.bIndex = (r + n - i : Nat) - 1 ∧
        s'.b.toNat = 2 ^ (r + n - i) * (c * 2 ^ i + binary (digits i (planeOf n x k))) := by
    intro i hi
    induction i with
    | zero =>
      rintro s' rfl
      exact ⟨rfl, hindex, by simpa [digits, binary] using hvalue⟩
    | succ i ih =>
      rintro s' rfl
      obtain ⟨s1, hs1⟩ : ∃ s1, s1 = _ := ⟨_, rfl⟩
      obtain ⟨hmask1, hindex1, hvalue1⟩ := ih (by omega) s1 hs1.symm
      rw [List.range_succ, List.foldl_append, List.foldl_cons, List.foldl_nil, ← hs1]
      obtain ⟨r', hr'⟩ : ∃ r', r' = r + n - (i + 1) := ⟨_, rfl⟩
      have hplace : r + n - i = r' + 1 := by omega
      rw [hplace] at hindex1 hvalue1
      have hnat : s1.bIndex.toNat = r' := by omega
      have hcond := and_shift_ne_zero ((x.get i).zeroExtend 64) (show k < 64 by omega)
      have hbit : ((x.get i).zeroExtend 64).getLsbD k = planeOf n x k i := by
        rw [planeOf_apply (by omega)]
        simp [show k < 64 by omega]
      rw [hbit] at hcond
      refine ⟨hmask1, by dsimp only; omega, ?_⟩
      dsimp only
      rw [hmask1, hmask, hnat, ← hr', digits_succ, binary_append]
      cases hv : planeOf n x k i with
      | true =>
        rw [if_pos (hcond.2 hv), toNat_or_shift (by omega) hvalue1]
        simp only [binary, List.length_singleton, List.length_nil, Bool.toNat_true]
        ring
      | false =>
        rw [if_neg (mt hcond.1 (by rw [hv]; exact Bool.false_ne_true)), hvalue1]
        simp only [binary, List.length_singleton, List.length_nil, Bool.toNat_false]
        ring
  obtain ⟨hmask', hindex', hvalue'⟩ := hloop n le_rfl (indexInner x n s) rfl
  rw [Nat.add_sub_cancel] at hindex' hvalue'
  exact ⟨hmask', hindex', hvalue'⟩

/-- The outer loop puts the bits of the planes that are left behind what it has. -/
theorem indexOuter_spec {s : IndexLoop} {k c : Nat} (hk : k ≤ 32) (hr : n * k ≤ 64)
    (hmask : ∀ m, k = m + 1 → s.mask = 1#64 <<< m) (hindex : s.bIndex = (n * k : Nat) - 1)
    (hvalue : s.b.toNat = 2 ^ (n * k) * c) : (indexOuter x n k s).b.toNat =
      c * 2 ^ (n * k) + binary ((planes n x k).flatMap (digits n)) := by
  induction k generalizing s c with
  | zero =>
    rw [Nat.mul_zero] at hvalue
    simpa [indexOuter, planes, binary] using hvalue
  | succ k ih =>
    rw [Nat.mul_succ] at hr hindex hvalue
    obtain ⟨hmask', hindex', hvalue'⟩ :=
      indexInner_spec (x := x) (show k < 32 by omega) hr (hmask k rfl) hindex hvalue
    have hlen : ((planes n x k).flatMap (digits n)).length = n * k := by
      rw [List.length_flatMap]
      simp [Nat.mul_comm]
    have hrest := ih (s := { indexInner x n s with mask := (indexInner x n s).mask >>> 1 })
      (by omega) (by omega) (fun m hm => ?_) hindex' hvalue'
    · rw [indexOuter, planes, List.flatMap_cons, binary_append, hlen, Nat.mul_succ, pow_add]
      refine hrest.trans ?_
      ring
    · -- the mask is moved to the next plane
      dsimp only
      rw [hmask', hmask k rfl, hm]
      refine BitVec.eq_of_getLsbD_eq fun j hj => ?_
      simp only [BitVec.getLsbD_ushiftRight, BitVec.getLsbD_shiftLeft, BitVec.getLsbD_one]
      rw [← Bool.coe_iff_coe]
      simp
      omega

/-- The index is the number of the interleaved bits. -/
theorem toNat_toHilbertIndex (hb : b ≤ 32) (hn : b * n ≤ 64) :
    (toHilbertIndex x n).toNat = binary ((planes n x b).flatMap (digits n)) := by
  unfold toHilbertIndex
  dsimp only
  rw [Nat.mul_comm] at hn
  rw [indexOuter_spec (c := 0) hb hn (fun m hm => by rw [hm]; rfl)
    (by dsimp only; rw [Nat.mul_comm n]; push_cast; rfl) (by simp), Nat.zero_mul, Nat.zero_add]

/-! ### Points -/

/-- The bits of a coordinate are those of its entry. -/
theorem binary_coordinate {j : Nat} (hj : j < n) (k : Nat) :
    binary (coordinate (planes n x k) j) = (x.get j).toNat % 2 ^ k := by
  induction k with
  | zero =>
    rw [pow_zero, Nat.mod_one]
    rfl
  | succ k ih =>
    show binary (planeOf n x k j :: coordinate (planes n x k) j) = _
    have hbit : ((x.get j).getLsbD k).toNat = (x.get j).toNat / 2 ^ k % 2 := Nat.toNat_testBit _ k
    rw [binary, ih, planeOf_apply hj, coordinate, List.length_map, length_planes, hbit, pow_succ,
      Nat.mod_mul]
    ring

/-- Every value of a row is reduced to its low bits. -/
theorem toNat_get_packRow (hb : b ≤ 32) {row : List (Option (BitVec 32))}
    (hn : b * row.length ≤ 64) {j : Nat} (hj : j < row.length) :
    ((packRow b row).get j).toNat = ((row.getD j none).getD 0).toNat % 2 ^ b := by
  have hloop : ∀ i ≤ row.length, ∀ k < b,
      (((List.range i).foldl (fun x columnIndex =>
        x.set columnIndex ((row.getD columnIndex none).getD 0)) (⟨0⟩ : UintBackedArray b)).get
          j).getLsbD k = (decide (j < i) && ((row.getD j none).getD 0).getLsbD k) := by
    intro i hi k hk
    induction i with
    | zero => simp [getLsbD_get hb]
    | succ i ih =>
      have hle : b * (j + 1) ≤ b * row.length := Nat.mul_le_mul_left b hj
      rw [List.range_succ, List.foldl_append, List.foldl_cons, List.foldl_nil,
        getLsbD_set hb (by omega) hk, ih (by omega)]
      by_cases hji : j = i
      · rw [if_pos hji, decide_eq_true (by omega), Bool.true_and, hji]
      · rw [if_neg hji]
        congr 1
        exact decide_eq_decide.2 (by omega)
  refine Nat.eq_of_testBit_eq fun k => ?_
  rw [Nat.testBit_mod_two_pow]
  show ((packRow b row).get j).getLsbD k = (decide (k < b) && ((row.getD j none).getD 0).getLsbD k)
  by_cases hk : k < b
  · rw [packRow, hloop _ le_rfl k hk, decide_eq_true hj, decide_eq_true hk]
  · rw [getLsbD_get hb, decide_eq_false hk, Bool.false_and, Bool.false_and]

theorem planes_congr {x x' : UintBackedArray b} (h : ∀ j < n, x.get j = x'.get j) (k : Nat) :
    planes n x k = planes n x' k := by
  induction k with
  | zero => rfl
  | succ k ih =>
    have hplane : planeOf n x k = planeOf n x' k := by
      funext j
      by_cases hj : j < n
      · rw [planeOf_apply hj, planeOf_apply hj, h j hj]
      · simp [planeOf, hj]
    rw [planes, planes, hplane, ih]

/-! ### The curve -/

/-- A row of the coordinates of a point. -/
def rowOf (p : Fin n → Fin (2 ^ b)) : List (Option (BitVec 32)) :=
  List.ofFn fun i => some (BitVec.ofNat 32 (p i))

/-- The place of a point. -/
def place (p : Fin n → Fin (2 ^ b)) : Nat := (hilbertIndexRow b (rowOf p)).toNat

/-- The point of a row of a table: the low bits of its values, with 0 for a null. -/
def pointAt (b : Nat) (columns : Fin n → List (Option (BitVec 32))) (rowIndex : Nat) :
    Fin n → Fin (2 ^ b) := fun i =>
  ⟨(((columns i).getD rowIndex none).getD 0).toNat % 2 ^ b, Nat.mod_lt _ (Nat.two_pow_pos b)⟩

section Curve

variable (hb : b ≤ 32) (hbits : 0 < b) (hn : b * n ≤ 64) (hpos : 0 < n)
include hb hbits hn hpos

/-- The index of a row is the number whose Gray code is the code of its point. -/
theorem toNat_hilbertIndexRow {row : List (Option (BitVec 32))} (hrow : row.length = n) :
    (hilbertIndexRow b row).toNat =
      binary (grayDecode false (code n (planes n (packRow b row) b))) := by
  unfold hilbertIndexRow
  rw [hrow, toNat_toHilbertIndex hb hn, flatMap_transposed hb hn hpos hbits]

omit hbits hpos in
theorem toNat_get_rowOf (p : Fin n → Fin (2 ^ b)) (i : Fin n) :
    ((packRow b (rowOf p)).get i).toNat = p i := by
  have hlen : (rowOf p).length = n := List.length_ofFn
  have hget : (rowOf p).getD i none = some (BitVec.ofNat 32 (p i)) := by
    simp [rowOf, List.getD_eq_getElem?_getD]
  have hle : 2 ^ b ≤ 2 ^ 32 := Nat.pow_le_pow_right (by decide) hb
  have hlt := (p i).isLt
  rw [toNat_get_packRow hb (by rwa [hlen]) (by rw [hlen]; exact i.isLt), hget, Option.getD_some,
    BitVec.toNat_ofNat, Nat.mod_eq_of_lt (hlt.trans_le hle), Nat.mod_eq_of_lt hlt]

omit hbits hpos in
/-- The coordinates of a point are read off its planes. -/
theorem binary_coordinate_rowOf (p : Fin n → Fin (2 ^ b)) (i : Fin n) :
    binary (coordinate (planes n (packRow b (rowOf p)) b) i) = p i := by
  rw [binary_coordinate i.isLt, toNat_get_rowOf hb hn, Nat.mod_eq_of_lt (p i).isLt]

theorem place_eq (p : Fin n → Fin (2 ^ b)) : place p =
    binary (grayDecode false (code n (planes n (packRow b (rowOf p)) b))) :=
  toNat_hilbertIndexRow hb hbits hn hpos List.length_ofFn

theorem place_lt (p : Fin n → Fin (2 ^ b)) : place p < 2 ^ (b * n) := by
  have hlt := binary_lt (grayDecode false (code n (planes n (packRow b (rowOf p)) b)))
  rwa [length_grayDecode, length_code, length_planes, Nat.mul_comm, ← place_eq hb hbits hn hpos]
    at hlt

/-- No two points have the same place. -/
theorem place_injective : Function.Injective (place : (Fin n → Fin (2 ^ b)) → Nat) := by
  intro p p' h
  rw [place_eq hb hbits hn hpos, place_eq hb hbits hn hpos] at h
  have hcode := grayDecode_inj (binary_inj (by simp [length_code]) h)
  have hplanes := code_inj (supported_planes b) (supported_planes b) (by simp) hcode
  funext i
  apply Fin.ext
  rw [← binary_coordinate_rowOf hb hn, hplanes, binary_coordinate_rowOf hb hn]

/-- Every place has a point, as there are as many of both. -/
theorem exists_place {k : Nat} (hk : k < 2 ^ (b * n)) :
    ∃ p : Fin n → Fin (2 ^ b), place p = k := by
  obtain ⟨f, hf⟩ : ∃ f : (Fin n → Fin (2 ^ b)) → Fin (2 ^ (b * n)), ∀ p, (f p : Nat) = place p :=
    ⟨fun p => ⟨place p, place_lt hb hbits hn hpos p⟩, fun p => rfl⟩
  have hinjective : Function.Injective f := fun p p' h =>
    place_injective hb hbits hn hpos (by rw [← hf, ← hf, h])
  have hcard : Fintype.card (Fin n → Fin (2 ^ b)) = Fintype.card (Fin (2 ^ (b * n))) := by
    simp [pow_mul]
  obtain ⟨p, hp⟩ := ((Fintype.bijective_iff_injective_and_card f).2 ⟨hinjective, hcard⟩).2 ⟨k, hk⟩
  exact ⟨p, by rw [← hf, hp]⟩

/-- The points of neighbouring places are neighbours. -/
theorem neighbours_of_place {p p' : Fin n → Fin (2 ^ b)} (h : place p' = place p + 1) :
    ∃ i, ((p' i : Nat) = p i + 1 ∨ (p i : Nat) = p' i + 1) ∧ ∀ j ≠ i, p j = p' j := by
  rw [place_eq hb hbits hn hpos, place_eq hb hbits hn hpos] at h
  obtain ⟨start, c, k, hcode, hcode'⟩ := exists_of_grayDecode (by simp [length_code]) h
  obtain ⟨i, hi, hsame, hstep⟩ :=
    adjacent_of_code hpos (supported_planes b) (supported_planes b) (by simp) hcode hcode'
  refine ⟨⟨i, hi⟩, ?_, fun j hj => Fin.ext ?_⟩
  · rw [← binary_coordinate_rowOf hb hn, ← binary_coordinate_rowOf hb hn]
    exact hstep.binary_eq
  · rw [← binary_coordinate_rowOf hb hn, ← binary_coordinate_rowOf hb hn,
      hsame j fun heq => hj (Fin.ext heq)]

/-- A row has the place of its point. -/
theorem hilbertIndexRow_eq (columns : Fin n → List (Option (BitVec 32))) (rowIndex : Nat) :
    hilbertIndexRow b (List.ofFn fun i => (columns i).getD rowIndex none) =
      BitVec.ofNat 64 (place (pointAt b columns rowIndex)) := by
  have hlen : (List.ofFn fun i => (columns i).getD rowIndex none).length = n := List.length_ofFn
  have hplanes : planes n (packRow b (List.ofFn fun i => (columns i).getD rowIndex none)) b =
      planes n (packRow b (rowOf (pointAt b columns rowIndex))) b := by
    refine planes_congr (fun j hj => BitVec.eq_of_toNat_eq ?_) b
    rw [toNat_get_rowOf hb hn _ ⟨j, hj⟩, toNat_get_packRow hb (by rwa [hlen]) (by rwa [hlen])]
    simp [pointAt, List.getD_eq_getElem?_getD, hj]
  apply BitVec.eq_of_toNat_eq
  rw [toNat_hilbertIndexRow hb hbits hn hpos hlen, hplanes, ← place_eq hb hbits hn hpos,
    BitVec.toNat_ofNat]
  exact (Nat.mod_eq_of_lt (BitVec.isLt _)).symm

/-- The indices are the places on a curve that goes through every point once and from each to a
neighbour. -/
theorem hilbertIndex_curve :
    (∀ p : Fin n → Fin (2 ^ b), place p < 2 ^ (b * n)) ∧
    (∀ k < 2 ^ (b * n), ∃! p : Fin n → Fin (2 ^ b), place p = k) ∧
    (∀ p p' : Fin n → Fin (2 ^ b), place p' = place p + 1 →
      ∃ i, ((p' i : Nat) = p i + 1 ∨ (p i : Nat) = p' i + 1) ∧ ∀ j ≠ i, p j = p' j) ∧
    ∀ (columns : Fin n → List (Option (BitVec 32))) (numRows : Nat),
      hilbertIndex b (List.ofFn fun i => ⟨true, columns i⟩) numRows =
        .ok ((List.range numRows).map fun rowIndex =>
          BitVec.ofNat 64 (place (pointAt b columns rowIndex))) := by
  refine ⟨place_lt hb hbits hn hpos, fun k hk => ?_, fun p p' => neighbours_of_place hb hbits hn hpos,
    fun columns numRows => ?_⟩
  · obtain ⟨p, hp⟩ := exists_place hb hbits hn hpos hk
    exact ⟨p, hp, fun p' hp' => place_injective hb hbits hn hpos (hp'.trans hp.symm)⟩
  · have hmul : (b : Int) * n ≤ 64 := by exact_mod_cast hn
    have hrows : ∀ rowIndex, (List.ofFn fun i => (⟨true, columns i⟩ : Column)).map
        (fun column => column.rows.getD rowIndex none) =
          List.ofFn fun i => (columns i).getD rowIndex none := by
      intro rowIndex
      rw [List.map_ofFn]
      rfl
    unfold hilbertIndex
    simp only [List.length_ofFn, hrows, Int.toNat_natCast, hilbertIndexRow_eq hb hbits hn hpos]
    simp [hb, hbits, hmul, hpos]
    rfl

end Curve

/-- The curve of the square of 4 by 4 points. -/
theorem hilbertIndex_curve_square :
    ∃! p : Fin 2 → Fin (2 ^ 2), place p = 14 :=
  (hilbertIndex_curve (b := 2) (n := 2) (by decide) (by decide) (by decide) (by decide)).2.1 14
    (by decide)

end SparkRapids.ZOrder
