import Mathlib

/-!
# Hilbert curves

A point of `n` coordinates is given by its bit planes, the most significant one first: a plane has one
bit of each coordinate. `undo` takes the first plane as it is and turns the planes below it, by swaps
of coordinates and a flip of the first one that the first plane decides about. The bits of the planes
that it leaves are the Gray code of the place of the point on the curve.

All points have different codes (`code_inj`), and points whose codes are of neighbouring places are
neighbours (`adjacent_of_code`): where two planes differ in a bit the planes below are turned so that
the low bits of this coordinate are all set in one point and all clear in the other one.
-/

namespace SparkRapids.Hilbert

/-- One bit of each coordinate. -/
abbrev Plane := ℕ → Bool

/-! ### Turning a plane -/

/-- The first coordinate is inverted, or exchanged with the coordinate `i`. -/
def turnStep (b : Bool) (i : ℕ) (r : Plane) : Plane :=
  if b then Function.update r 0 (!r 0) else r ∘ Equiv.swap 0 i

/-- The steps for the bits of the coordinates from `i` on. -/
@[grind] def turn (i : ℕ) : List Bool → Plane → Plane
  | [], r => r
  | b :: bs, r => turn (i + 1) bs (turnStep b i r)

theorem turn_append (i : ℕ) (bs cs : List Bool) (r : Plane) :
    turn i (bs ++ cs) r = turn (i + bs.length) cs (turn i bs r) := by
  induction bs generalizing i r with
  | nil => rfl
  | cons b bs ih =>
    rw [List.cons_append, turn, ih, turn, List.length_cons, Nat.add_right_comm, Nat.add_assoc]

/-- A permutation of the coordinates, some of which are inverted. -/
structure Turned (f : Plane → Plane) (σ : Equiv.Perm ℕ) (flips : Plane) : Prop where
  eq : ∀ r j, f r j = (r (σ j) ^^ flips j)

theorem turned_step (b : Bool) (i : ℕ) : ∃ σ flips, Turned (turnStep b i) σ flips ∧
    ∀ j, i < j → σ j = j ∧ flips j = false := by
  cases b with
  | true =>
    refine ⟨1, fun j => decide (j = 0), ⟨fun r j => ?_⟩, fun j hj => ⟨rfl, decide_eq_false (by omega)⟩⟩
    unfold turnStep
    rw [if_pos rfl, Function.update_apply, Equiv.Perm.one_apply]
    split_ifs with h
    · simp [h]
    · simp [h]
  | false =>
    refine ⟨Equiv.swap 0 i, fun _ => false, ⟨fun r j => ?_⟩, fun j hj => ⟨?_, rfl⟩⟩
    · simp [turnStep]
    · exact Equiv.swap_apply_of_ne_of_ne (by omega) (by omega)

/-- Turning keeps the coordinates behind the ones of the bits in place. -/
theorem turned (i : ℕ) (bs : List Bool) : ∃ σ flips, Turned (turn i bs) σ flips ∧
    ∀ j, i + bs.length ≤ j → σ j = j ∧ flips j = false := by
  induction bs generalizing i with
  | nil => exact ⟨1, fun _ => false, ⟨fun r j => by simp [turn]⟩, fun j _ => ⟨rfl, rfl⟩⟩
  | cons b bs ih =>
    obtain ⟨σ, flips, hstep, hfix⟩ := turned_step b i
    obtain ⟨τ, flips', hturn, hfix'⟩ := ih (i + 1)
    refine ⟨σ * τ, fun j => (flips (τ j) ^^ flips' j), ⟨fun r j => ?_⟩, fun j hj => ?_⟩
    · rw [turn, hturn.eq, hstep.eq, Equiv.Perm.mul_apply, Bool.xor_assoc]
    · rw [List.length_cons] at hj
      obtain ⟨hτ, hflips'⟩ := hfix' j (by omega)
      obtain ⟨hσ, hflips⟩ := hfix j (by omega)
      simp [hτ, hσ, hflips, hflips']

theorem Turned.injective {f : Plane → Plane} {σ : Equiv.Perm ℕ} {flips : Plane}
    (h : Turned f σ flips) : Function.Injective f := by
  intro r r' heq
  funext j
  have hj := congrFun heq (σ.symm j)
  rw [h.eq, h.eq, Equiv.apply_symm_apply] at hj
  exact Bool.xor_left_inj.1 hj

theorem turn_injective (i : ℕ) (bs : List Bool) : Function.Injective (turn i bs) := by
  obtain ⟨σ, flips, h, -⟩ := turned i bs
  exact h.injective

/-- The plane without any bit, and the one of the first coordinate. -/
def zero : Plane := fun _ => false

def first : Plane := fun j => decide (j = 0)

theorem turnStep_zero (i : ℕ) : turnStep false i zero = zero :=
  rfl

theorem turn_zero (i m : ℕ) : turn i (List.replicate m false) zero = zero := by
  induction m generalizing i with
  | zero => rfl
  | succ m ih => rw [List.replicate_succ, turn, turnStep_zero, ih]

theorem turnStep_first : turnStep true i first = zero := by
  funext j
  simp [turnStep, first, zero, Function.update_apply]

/-- The only plane that is turned to `zero` by these bits. -/
theorem eq_first_of_turn {i m : ℕ} {r : Plane}
    (h : turn i (true :: List.replicate m false) r = zero) : r = first := by
  apply turn_injective i (true :: List.replicate m false)
  rw [h, turn, turnStep_first, turn_zero]

theorem eq_zero_of_turn {i m : ℕ} {r : Plane} (h : turn i (List.replicate m false) r = zero) :
    r = zero := by
  apply turn_injective i (List.replicate m false)
  rw [h, turn_zero]

/-! ### Codes -/

/-- The bits of the first `n` coordinates. -/
def digits (n : ℕ) (v : Plane) : List Bool := (List.range n).map v

@[simp] theorem length_digits (n : ℕ) (v : Plane) : (digits n v).length = n := by
  simp [digits]

theorem getElem_digits {n j : ℕ} (v : Plane) (h : j < (digits n v).length) :
    (digits n v)[j] = v j := by
  simp [digits]

/-- The planes below the first one are turned by it, and then undone. -/
@[grind] def undo (n : ℕ) : List Plane → List Plane
  | [] => []
  | v :: R => v :: undo n (R.map (turn 0 (digits n v)))
  termination_by P => P.length
  decreasing_by simp

theorem undo_cons (n : ℕ) (v : Plane) (R : List Plane) :
    undo n (v :: R) = v :: undo n (R.map (turn 0 (digits n v))) := by
  rw [undo]

@[simp] theorem length_undo (n : ℕ) (P : List Plane) : (undo n P).length = P.length := by
  induction hlen : P.length generalizing P with
  | zero =>
    rw [List.length_eq_zero_iff.1 hlen]
    simp [undo]
  | succ m ih =>
    obtain ⟨v, R, rfl⟩ := List.exists_cons_of_length_eq_add_one hlen
    rw [undo_cons, List.length_cons, ih]
    simpa using hlen

/-- The bits of the planes that are left. -/
def code (n : ℕ) (P : List Plane) : List Bool := (undo n P).flatMap (digits n)

theorem code_nil (n : ℕ) : code n [] = [] := by
  simp [code, undo]

theorem code_cons (n : ℕ) (v : Plane) (R : List Plane) :
    code n (v :: R) = digits n v ++ code n (R.map (turn 0 (digits n v))) := by
  unfold code
  rw [undo_cons, List.flatMap_cons]

theorem length_code (n : ℕ) (P : List Plane) : (code n P).length = n * P.length := by
  unfold code
  rw [List.length_flatMap]
  simp [Nat.mul_comm]

/-- A plane of `n` coordinates has no bits of others. -/
def Supported (n : ℕ) (v : Plane) : Prop := ∀ j, n ≤ j → v j = false

variable {n : ℕ} {v v' : Plane} {P P' R R' : List Plane}

theorem Supported.eq (h : Supported n v) (h' : Supported n v') (hdigits : digits n v = digits n v') :
    v = v' := by
  funext j
  by_cases hj : j < n
  · exact List.map_inj_left.1 hdigits j (List.mem_range.2 hj)
  · rw [h j (not_lt.1 hj), h' j (not_lt.1 hj)]

theorem Supported.turn (h : Supported n v) {bs : List Bool} (hbs : bs.length = n) :
    Supported n (turn 0 bs v) := by
  obtain ⟨σ, flips, hturn, hfix⟩ := turned 0 bs
  intro j hj
  obtain ⟨hσ, hflips⟩ := hfix j (by omega)
  rw [hturn.eq, hσ, hflips, h j hj]
  rfl

theorem supported_map (h : ∀ r ∈ R, Supported n r) {bs : List Bool} (hbs : bs.length = n) :
    ∀ r ∈ R.map (turn 0 bs), Supported n r := by
  intro r hr
  obtain ⟨r', hr', rfl⟩ := List.mem_map.1 hr
  exact (h r' hr').turn hbs

/-- Points are determined by their codes. -/
theorem code_inj (h : ∀ r ∈ P, Supported n r) (h' : ∀ r ∈ P', Supported n r)
    (hlen : P.length = P'.length) (hcode : code n P = code n P') : P = P' := by
  induction hm : P.length generalizing P P' with
  | zero =>
    rw [List.length_eq_zero_iff.1 hm, List.length_eq_zero_iff.1 (hlen.symm.trans hm)]
  | succ m ih =>
    obtain ⟨v, R, rfl⟩ := List.exists_cons_of_length_eq_add_one hm
    obtain ⟨v', R', rfl⟩ := List.exists_cons_of_length_eq_add_one (hlen.symm.trans hm)
    rw [List.length_cons] at hm
    rw [List.length_cons, List.length_cons, Nat.add_right_cancel_iff] at hlen
    rw [List.forall_mem_cons] at h h'
    rw [code_cons, code_cons] at hcode
    obtain ⟨hdigits, hrest⟩ := List.append_inj hcode (by rw [length_digits, length_digits])
    obtain rfl := h.1.eq h'.1 hdigits
    have hturned := ih (supported_map h.2 (length_digits n v)) (supported_map h'.2 (length_digits n v))
      (by rw [List.length_map, List.length_map, hlen]) hrest (by rw [List.length_map]; omega)
    rw [(List.map_injective_iff.2 (turn_injective 0 (digits n v))) hturned]

/-- The planes whose code has no bits, and those whose code only has the first one. -/
theorem eq_zero_of_code (h : ∀ r ∈ P, Supported n r)
    (hcode : code n P = List.replicate (n * P.length) false) : ∀ r ∈ P, r = zero := by
  induction hm : P.length generalizing P with
  | zero =>
    rw [List.length_eq_zero_iff.1 hm]
    exact fun r hr => absurd hr List.not_mem_nil
  | succ m ih =>
    obtain ⟨v, R, rfl⟩ := List.exists_cons_of_length_eq_add_one hm
    rw [List.length_cons] at hm
    rw [List.forall_mem_cons] at h ⊢
    rw [code_cons, List.length_cons, Nat.mul_succ, Nat.add_comm, List.replicate_add] at hcode
    obtain ⟨hdigits, hrest⟩ := List.append_inj hcode (by simp)
    have hzero : digits n zero = List.replicate n false := by
      unfold digits
      rw [List.eq_replicate_iff]
      simp [zero]
    refine ⟨h.1.eq (fun j _ => rfl) (hdigits.trans hzero.symm), fun r hr => ?_⟩
    have hturned := ih (supported_map h.2 (length_digits n v)) (by rw [hrest, List.length_map])
      (by rw [List.length_map]; omega) _ (List.mem_map_of_mem hr)
    rw [hdigits] at hturned
    exact eq_zero_of_turn hturned

theorem eq_first_of_code (hn : 0 < n) (h : ∀ r ∈ P, Supported n r)
    (hcode : code n P = true :: List.replicate (n * P.length - 1) false) : ∀ r ∈ P, r = first := by
  cases P with
  | nil => exact fun r hr => absurd hr List.not_mem_nil
  | cons v R =>
    rw [List.forall_mem_cons] at h ⊢
    have hlen : n * (R.length + 1) - 1 = n - 1 + n * R.length := by
      rw [Nat.mul_succ]
      omega
    have hfirst : digits n first = true :: List.replicate (n - 1) false := by
      obtain ⟨m, rfl⟩ := Nat.exists_eq_succ_of_ne_zero hn.ne'
      simp [digits, first, List.range_succ_eq_map, Function.comp_def]
    rw [code_cons, List.length_cons, hlen, List.replicate_add, ← List.cons_append] at hcode
    obtain ⟨hdigits, hrest⟩ := List.append_inj hcode (by simp; omega)
    refine ⟨h.1.eq (fun j hj => decide_eq_false (by omega)) (hdigits.trans hfirst.symm),
      fun r hr => ?_⟩
    have hturned := eq_zero_of_code (supported_map h.2 (length_digits n v))
      (by rw [hrest, List.length_map]) _ (List.mem_map_of_mem hr)
    rw [hdigits] at hturned
    exact eq_first_of_turn hturned

/-! ### Neighbours -/

/-- The bits of two numbers one of which is the successor of the other one. -/
def Neighbours (l l' : List Bool) : Prop :=
  ∃ (start : List Bool) (b : Bool) (m : ℕ), l = start ++ b :: List.replicate m (!b) ∧
    l' = start ++ (!b) :: List.replicate m b

theorem Neighbours.cons {l l' : List Bool} (h : Neighbours l l') (b : Bool) :
    Neighbours (b :: l) (b :: l') := by
  obtain ⟨start, c, m, rfl, rfl⟩ := h
  exact ⟨b :: start, c, m, rfl, rfl⟩

theorem Neighbours.map_xor {l l' : List Bool} (h : Neighbours l l') (f : Bool) :
    Neighbours (l.map (· ^^ f)) (l'.map (· ^^ f)) := by
  obtain ⟨start, b, m, rfl, rfl⟩ := h
  refine ⟨start.map (· ^^ f), b ^^ f, m, ?_, ?_⟩ <;> simp

/-- The bits of a coordinate, the most significant one first. -/
def coordinate (P : List Plane) (j : ℕ) : List Bool := P.map fun v => v j

/-- The points only differ in the coordinate `i`, and there by 1. -/
def Adjacent (i : ℕ) (P P' : List Plane) : Prop :=
  (∀ j ≠ i, coordinate P j = coordinate P' j) ∧ Neighbours (coordinate P i) (coordinate P' i)

theorem Adjacent.cons {i : ℕ} (h : Adjacent i R R') (v : Plane) : Adjacent i (v :: R) (v :: R') :=
  ⟨fun j hj => congrArg (v j :: ·) (h.1 j hj), h.2.cons (v i)⟩

/-- Turning does not change which points are neighbours. -/
theorem Adjacent.of_turned {f : Plane → Plane} {σ : Equiv.Perm ℕ} {flips : Plane}
    (hf : Turned f σ flips) {i : ℕ} (h : Adjacent i (R.map f) (R'.map f)) :
    Adjacent (σ i) R R' := by
  have hcoordinate : ∀ (P : List Plane) (j : ℕ),
      coordinate P (σ j) = (coordinate (P.map f) j).map (· ^^ flips j) := by
    intro P j
    unfold coordinate
    rw [List.map_map, List.map_map]
    refine List.map_congr_left fun r _ => ?_
    rw [Function.comp_apply, Function.comp_apply, hf.eq, Bool.xor_assoc, Bool.xor_self,
      Bool.xor_false]
  refine ⟨fun j hj => ?_, ?_⟩
  · -- every coordinate is some `σ j`
    obtain ⟨j, rfl⟩ := σ.surjective j
    rw [hcoordinate, hcoordinate, h.1 j fun heq => hj (congrArg σ heq)]
  · rw [hcoordinate, hcoordinate]
    exact h.2.map_xor (flips i)

/-- The plane that a step for a bit at `i` makes `first` of, where the other coordinates are clear. -/
theorem turnStep_eq_first (b : Bool) (i : ℕ) :
    turnStep b i (fun j => decide (j = i) && !b) = first := by
  cases b with
  | true =>
    funext j
    simp [turnStep, first, Function.update_apply]
  | false =>
    funext j
    simp only [turnStep, first, Bool.false_eq_true, if_false, Bool.not_false, Bool.and_true,
      Function.comp_apply, Equiv.swap_apply_def]
    split_ifs <;> simp <;> omega

/-- Where the first planes differ in the bit `i`, the planes below have it set in the one point and
clear in the other, and the other bits are the same. -/
theorem eq_of_turn {start : List Bool} {flips : Plane} {σ : Equiv.Perm ℕ}
    (hstart : Turned (turn 0 start) σ flips) {b : Bool} {r : Plane}
    (h : turn 0 (start ++ [b]) r = first) (j : ℕ) :
    r (σ j) = ((decide (j = start.length) && !b) ^^ flips j) := by
  have hturn : turn 0 start r = fun j => decide (j = start.length) && !b := by
    rw [turn_append, Nat.zero_add] at h
    have hsteps : turnStep b start.length (turn 0 start r) = first := h
    obtain ⟨σ', flips', hstep, -⟩ := turned_step b start.length
    exact hstep.injective (hsteps.trans (turnStep_eq_first b start.length).symm)
  have hj := congrFun hturn j
  rw [hstart.eq] at hj
  rw [← hj, Bool.xor_assoc, Bool.xor_self, Bool.xor_false]

/-- The bits behind the one in which the Gray codes of neighbours differ. -/
@[grind] def grayTail : ℕ → List Bool
  | 0 => []
  | m + 1 => true :: List.replicate m false

/-- Below a plane that starts with `start` and `b`, with a Gray tail behind. -/
theorem turn_eq_first (hn : 0 < n) {start rest : List Bool} {b : Bool} {m : ℕ}
    (hv : digits n v = start ++ [b] ++ rest) (h : ∀ r ∈ R, Supported n r)
    (htail : rest ++ code n (R.map (turn 0 (digits n v))) = grayTail m) :
    ∀ r ∈ R, turn 0 (start ++ [b]) r = first := by
  have hsupported := supported_map h (length_digits n v)
  have hlen := length_code n (R.map (turn 0 (digits n v)))
  rw [List.length_map] at hlen
  intro r hr
  have hmem := List.mem_map_of_mem (f := turn 0 (digits n v)) hr
  cases m with
  | zero =>
    -- there are no planes below
    rw [(List.append_eq_nil_iff.1 htail).2, List.length_nil] at hlen
    have hpos := Nat.mul_pos hn (List.length_pos_of_mem hr)
    omega
  | succ m =>
    cases rest with
    | nil =>
      rw [List.nil_append, grayTail] at htail
      rw [htail, List.length_cons, List.length_replicate] at hlen
      have hfirst := eq_first_of_code hn hsupported
        (by rw [htail, List.length_map, ← hlen, Nat.add_sub_cancel]) _ hmem
      rwa [hv, List.append_nil] at hfirst
    | cons c rest =>
      rw [grayTail, List.cons_append, List.cons_eq_cons, List.append_eq_replicate_iff] at htail
      obtain ⟨rfl, -, hrest, hcode⟩ := htail
      rw [hlen] at hcode
      have hzero := eq_zero_of_code hsupported (by rw [hcode, List.length_map]) _ hmem
      rw [hv, turn_append, hrest] at hzero
      exact eq_first_of_turn hzero

/-- The first planes differ in the bit `i`. -/
theorem adjacent_of_turn {start rest : List Bool} {b : Bool} (hlen : R.length = R'.length)
    (hsupported : Supported n v) (hsupported' : Supported n v')
    (hv : digits n v = start ++ [b] ++ rest) (hv' : digits n v' = start ++ [!b] ++ rest)
    (h : ∀ r ∈ R, turn 0 (start ++ [b]) r = first)
    (h' : ∀ r ∈ R', turn 0 (start ++ [!b]) r = first) :
    Adjacent start.length (v :: R) (v' :: R') := by
  obtain ⟨σ, flips, hturned, hfix⟩ := turned 0 start
  obtain ⟨hσ, hflips⟩ := hfix start.length (by omega)
  have hbits : ∀ (v : Plane) (b : Bool), digits n v = start ++ [b] ++ rest → v start.length = b := by
    intro v b hv
    have hlt : start.length < (digits n v).length := by
      rw [hv]
      simp
    rw [← getElem_digits v hlt]
    simp [hv]
  -- in each coordinate, the planes behind are all 0 or all 1
  have hcolumn : ∀ (R : List Plane) (b : Bool), (∀ r ∈ R, turn 0 (start ++ [b]) r = first) →
      ∀ j, coordinate R (σ j) =
        List.replicate R.length ((decide (j = start.length) && !b) ^^ flips j) := by
    intro R b hR j
    refine List.eq_replicate_iff.2 ⟨List.length_map _, fun c hc => ?_⟩
    obtain ⟨r, hr, rfl⟩ := List.mem_map.1 hc
    exact eq_of_turn hturned (hR r hr) j
  constructor
  · intro j hj
    obtain ⟨j, rfl⟩ := σ.surjective j
    have hne : j ≠ start.length := by
      rintro rfl
      exact hj hσ
    have hsame : v (σ j) = v' (σ j) := by
      by_cases hlt : σ j < n
      · have hset : digits n v' = (digits n v).set start.length (!b) := by
          rw [hv, hv']
          simp
        have hget : (digits n v')[σ j]? = (digits n v)[σ j]? := by
          rw [hset, List.getElem?_set_ne (Ne.symm hj)]
        simpa [digits, hlt] using hget.symm
      · rw [hsupported _ (not_lt.1 hlt), hsupported' _ (not_lt.1 hlt)]
    show v (σ j) :: coordinate R (σ j) = v' (σ j) :: coordinate R' (σ j)
    rw [hsame, hcolumn R b h, hcolumn R' (!b) h', hlen, decide_eq_false hne, Bool.false_and,
      Bool.false_and]
  · refine ⟨[], b, R.length, ?_, ?_⟩
    · have hi := hcolumn R b h start.length
      rw [hσ] at hi
      show v start.length :: coordinate R start.length = _
      rw [hi, hbits v b hv, hflips]
      simp
    · have hi := hcolumn R' (!b) h' start.length
      rw [hσ] at hi
      show v' start.length :: coordinate R' start.length = _
      rw [hi, hbits v' (!b) hv', hflips, hlen]
      simp

/-- Points whose codes differ as neighbouring Gray codes do are neighbours. -/
theorem adjacent_of_code (hn : 0 < n) (h : ∀ r ∈ P, Supported n r) (h' : ∀ r ∈ P', Supported n r)
    (hlen : P.length = P'.length) {start : List Bool} {b : Bool} {k : ℕ}
    (hcode : code n P = start ++ [b] ++ grayTail k)
    (hcode' : code n P' = start ++ [!b] ++ grayTail k) : ∃ i < n, Adjacent i P P' := by
  induction hm : P.length generalizing P P' start with
  | zero =>
    rw [List.length_eq_zero_iff.1 hm, code_nil] at hcode
    exact absurd hcode (by simp)
  | succ m ih =>
    obtain ⟨v, R, rfl⟩ := List.exists_cons_of_length_eq_add_one hm
    obtain ⟨v', R', rfl⟩ := List.exists_cons_of_length_eq_add_one (hlen.symm.trans hm)
    rw [List.length_cons] at hm
    rw [List.length_cons, List.length_cons, Nat.add_right_cancel_iff] at hlen
    rw [List.forall_mem_cons] at h h'
    rw [code_cons] at hcode hcode'
    have hv := length_digits n v
    have hv' := length_digits n v'
    by_cases hlt : start.length < n
    · -- the codes differ in the first planes
      obtain ⟨mid, hmid⟩ : start ++ [b] <+: digits n v :=
        List.prefix_of_prefix_length_le ⟨_, hcode.symm⟩ ⟨_, rfl⟩ (by
          rw [hv, List.length_append, List.length_singleton]
          exact hlt)
      obtain ⟨mid', hmid'⟩ : start ++ [!b] <+: digits n v' :=
        List.prefix_of_prefix_length_le ⟨_, hcode'.symm⟩ ⟨_, rfl⟩ (by
          rw [hv', List.length_append, List.length_singleton]
          exact hlt)
      have hlen_mid : mid.length = mid'.length := by
        rw [← hmid, List.length_append, List.length_append, List.length_singleton] at hv
        rw [← hmid', List.length_append, List.length_append, List.length_singleton] at hv'
        omega
      have hrest : mid ++ code n (R.map (turn 0 (digits n v))) = grayTail k := by
        rw [← hmid, List.append_assoc] at hcode
        rw [← hmid]
        exact List.append_cancel_left hcode
      have hrest' : mid' ++ code n (R'.map (turn 0 (digits n v'))) = grayTail k := by
        rw [← hmid', List.append_assoc] at hcode'
        rw [← hmid']
        exact List.append_cancel_left hcode'
      obtain ⟨rfl, -⟩ := List.append_inj (hrest.trans hrest'.symm) hlen_mid
      exact ⟨start.length, hlt, adjacent_of_turn hlen h.1 h'.1 hmid.symm hmid'.symm
        (turn_eq_first hn hmid.symm h.2 hrest)
        (turn_eq_first hn hmid'.symm h'.2 hrest')⟩
    · -- the first planes are the same
      obtain ⟨mid, hmid⟩ : digits n v <+: start :=
        List.prefix_of_prefix_length_le ⟨_, rfl⟩ ⟨[b] ++ grayTail k, by rw [hcode, List.append_assoc]⟩
          (by rw [hv]; exact not_lt.1 hlt)
      rw [← hmid, List.append_assoc, List.append_assoc] at hcode hcode'
      obtain ⟨hdigits, -⟩ := List.append_inj hcode' (hv'.trans hv.symm)
      obtain rfl := h'.1.eq h.1 hdigits
      obtain ⟨i, hi, hadjacent⟩ := ih (supported_map h.2 hv) (supported_map h'.2 hv)
        (by rw [List.length_map, List.length_map, hlen])
        (by rw [List.append_cancel_left hcode, List.append_assoc])
        (by rw [List.append_cancel_left hcode', List.append_assoc]) (by rw [List.length_map]; omega)
      obtain ⟨σ, flips, hturned, hfix⟩ := turned 0 (digits n v')
      refine ⟨σ i, ?_, (hadjacent.of_turned hturned).cons v'⟩
      by_contra hge
      have hσ := σ.injective (hfix (σ i) (by omega)).1
      rw [hσ] at hge
      exact hge hi

/-! ### Places on the curve -/

/-- The number of a list of bits, the most significant one first. -/
@[grind] def binary : List Bool → ℕ
  | [] => 0
  | b :: bs => b.toNat * 2 ^ bs.length + binary bs

theorem binary_lt (l : List Bool) : binary l < 2 ^ l.length := by
  induction l with
  | nil => exact Nat.one_pos
  | cons b bs ih =>
    rw [binary, List.length_cons, Nat.pow_succ]
    cases b <;> simp <;> omega

theorem binary_inj {l l' : List Bool} (hlen : l.length = l'.length) (h : binary l = binary l') :
    l = l' := by
  induction l generalizing l' with
  | nil => rw [List.length_eq_zero_iff.1 hlen.symm]
  | cons b bs ih =>
    cases l' with
    | nil => simp at hlen
    | cons b' bs' =>
      rw [List.length_cons, List.length_cons, Nat.add_right_cancel_iff] at hlen
      have hlt := binary_lt bs
      have hlt' := binary_lt bs'
      rw [binary, binary, ← hlen] at h
      rw [← hlen] at hlt'
      have hhead : b = b' := by
        cases b <;> cases b' <;> simp at h ⊢ <;> omega
      subst hhead
      rw [ih hlen (Nat.add_left_cancel h)]

theorem binary_append (l l' : List Bool) : binary (l ++ l') = binary l * 2 ^ l'.length + binary l' := by
  induction l with
  | nil => simp [binary]
  | cons b bs ih =>
    rw [List.cons_append, binary, ih, binary, List.length_append, pow_add]
    ring

theorem binary_replicate_false (m : ℕ) : binary (List.replicate m false) = 0 := by
  induction m with
  | zero => rfl
  | succ m ih => rw [List.replicate_succ, binary, ih]; simp

theorem binary_replicate_true (m : ℕ) : binary (List.replicate m true) + 1 = 2 ^ m := by
  induction m with
  | zero => rfl
  | succ m ih =>
    rw [List.replicate_succ, binary, List.length_replicate, Nat.add_assoc, ih, pow_succ]
    simp
    ring

/-- Neighbouring bits are those of neighbouring numbers. -/
theorem Neighbours.binary_eq {l l' : List Bool} (h : Neighbours l l') :
    binary l' = binary l + 1 ∨ binary l = binary l' + 1 := by
  obtain ⟨start, b, m, rfl, rfl⟩ := h
  have htrue := binary_replicate_true m
  have hfalse := binary_replicate_false m
  rw [binary_append, binary_append]
  cases b <;> simp [binary, hfalse] <;> omega

/-- The number whose Gray code a list is, where `parity` is the sum of the bits before it. -/
@[grind] def grayDecode (parity : Bool) : List Bool → List Bool
  | [] => []
  | b :: bs => (parity ^^ b) :: grayDecode (parity ^^ b) bs

@[simp] theorem length_grayDecode (parity : Bool) (l : List Bool) :
    (grayDecode parity l).length = l.length := by
  induction l generalizing parity with
  | nil => rfl
  | cons b bs ih => rw [grayDecode, List.length_cons, ih, List.length_cons]

theorem grayDecode_inj {parity : Bool} {l l' : List Bool}
    (h : grayDecode parity l = grayDecode parity l') : l = l' := by
  induction l generalizing parity l' with
  | nil =>
    have hlen := congrArg List.length h
    rw [length_grayDecode, length_grayDecode] at hlen
    rw [List.length_eq_zero_iff.1 hlen.symm]
  | cons b bs ih =>
    cases l' with
    | nil => exact absurd (congrArg List.length h) (by simp)
    | cons b' bs' =>
      rw [grayDecode, grayDecode, List.cons_eq_cons] at h
      obtain rfl := Bool.xor_right_inj.1 h.1
      rw [ih h.2]

theorem grayDecode_replicate (parity : Bool) (m : ℕ) :
    grayDecode parity (List.replicate m false) = List.replicate m parity := by
  induction m with
  | zero => rfl
  | succ m ih => rw [List.replicate_succ, grayDecode, Bool.xor_false, ih, List.replicate_succ]

/-- A Gray tail inverts the sum of the bits before it. -/
theorem grayDecode_grayTail (parity : Bool) (m : ℕ) :
    grayDecode parity (grayTail m) = List.replicate m (!parity) := by
  cases m with
  | zero => rfl
  | succ m => rw [grayTail, grayDecode, Bool.xor_true, grayDecode_replicate, List.replicate_succ]

/-- The Gray codes of neighbouring numbers differ in one bit, with a Gray tail behind. -/
theorem exists_of_grayDecode {parity : Bool} {l l' : List Bool} (hlen : l.length = l'.length)
    (h : binary (grayDecode parity l') = binary (grayDecode parity l) + 1) :
    ∃ start b k, l = start ++ [b] ++ grayTail k ∧ l' = start ++ [!b] ++ grayTail k := by
  induction l generalizing parity l' with
  | nil =>
    rw [List.length_eq_zero_iff.1 hlen.symm] at h
    simp [grayDecode] at h
  | cons b bs ih =>
    cases l' with
    | nil => simp at hlen
    | cons b' bs' =>
      rw [List.length_cons, List.length_cons, Nat.add_right_cancel_iff] at hlen
      rw [grayDecode, grayDecode, binary, binary, length_grayDecode, length_grayDecode, ← hlen] at h
      have hlt := binary_lt (grayDecode (parity ^^ b) bs)
      have hlt' := binary_lt (grayDecode (parity ^^ b') bs')
      rw [length_grayDecode] at hlt hlt'
      rw [← hlen] at hlt'
      by_cases hb : b = b'
      · subst hb
        have hnext : binary (grayDecode (parity ^^ b) bs') = binary (grayDecode (parity ^^ b) bs) + 1 := by
          omega
        obtain ⟨start, c, k, rfl, rfl⟩ := ih hlen hnext
        exact ⟨b :: start, c, k, rfl, rfl⟩
      · -- the bits behind are all set, and all clear in the successor
        obtain rfl : b' = !b := by
          cases b <;> cases b' <;> simp at hb ⊢
        have hparity : (parity ^^ b) = false := by
          cases hc : (parity ^^ b) with
          | false => rfl
          | true =>
            rw [Bool.xor_not, hc] at h hlt'
            simp at h hlt'
            omega
        have hparity' : (parity ^^ !b) = true := by
          rw [Bool.xor_not, hparity]
          rfl
        rw [hparity] at h hlt
        rw [hparity'] at h hlt'
        rw [Bool.toNat_true, Bool.toNat_false] at h
        have htrue := binary_replicate_true bs.length
        have hfalse := binary_replicate_false bs.length
        have hones : grayDecode false bs = List.replicate bs.length true :=
          binary_inj (by simp) (by omega)
        have hzeros : grayDecode true bs' = List.replicate bs.length false :=
          binary_inj (by simp [hlen]) (by omega)
        have htail : bs = grayTail bs.length :=
          grayDecode_inj (hones.trans (grayDecode_grayTail false _).symm)
        have htail' : bs' = grayTail bs.length :=
          grayDecode_inj (hzeros.trans (grayDecode_grayTail true _).symm)
        exact ⟨[], b, bs.length, congrArg (b :: ·) htail, congrArg ((!b) :: ·) htail'⟩

/-- The sums of the bits of a plane up to a coordinate. -/
@[grind] def prefixXor (v : Plane) : ℕ → Bool
  | 0 => v 0
  | j + 1 => prefixXor v j ^^ v (j + 1)

theorem digits_succ (n : ℕ) (v : Plane) : digits (n + 1) v = digits n v ++ [v n] := by
  simp [digits, List.range_succ]

/-- A plane is decoded by its sums. -/
theorem grayDecode_digits (parity : Bool) (v : Plane) (n : ℕ) (rest : List Bool) :
    grayDecode parity (digits (n + 1) v ++ rest) =
      digits (n + 1) (fun j => parity ^^ prefixXor v j) ++
        grayDecode (parity ^^ prefixXor v n) rest := by
  induction n generalizing rest with
  | zero => rfl
  | succ n ih =>
    rw [digits_succ (n + 1), List.append_assoc, ih, digits_succ (n + 1), List.append_assoc]
    simp only [List.singleton_append, grayDecode, prefixXor, Bool.xor_assoc]

end SparkRapids.Hilbert
