import SparkRapidsJni.Lib.HalfAway
import SparkRapidsJni.Lib.Numerals

/-!
# Numbers rounded at a digit

A list of digits begins with `leadingZeros` zeros; the digits behind them bound the number
(`readDigits_take_lt`, `le_readDigits`). Dropping the last digits of a number divides it by a power of the
base, and with an even base the first one that is dropped tells how to round (`roundHalfAway_digits`). The
numbers that get another digit with the next one are those of zeros and then the largest digit only
(`readDigits_add_one_eq_iff`).
-/

namespace SparkRapids.Numerals

variable {base k n d : ℕ} {ds ds' : List ℕ}

/-- The zeros before the other digits. -/
def leadingZeros (ds : List ℕ) : ℕ := (ds.takeWhile (· = 0)).length

theorem leadingZeros_cons (d : ℕ) (ds : List ℕ) :
    leadingZeros (d :: ds) = if d = 0 then leadingZeros ds + 1 else 0 := by
  unfold leadingZeros
  rw [List.takeWhile_cons]
  by_cases h : d = 0
  · rw [if_pos h, if_pos (decide_eq_true h), List.length_cons]
  · rw [if_neg h, if_neg (by simpa using h), List.length_nil]

theorem leadingZeros_le (ds : List ℕ) : leadingZeros ds ≤ ds.length := (List.takeWhile_sublist _).length_le

theorem leadingZeros_replicate (n : ℕ) (ds : List ℕ) :
    leadingZeros (List.replicate n 0 ++ ds) = n + leadingZeros ds := by
  induction n with
  | zero => simp
  | succ n ih =>
    rw [List.replicate_succ, List.cons_append, leadingZeros_cons, if_pos rfl, ih]
    omega

/-- The zeros, and the digits behind them. -/
theorem exists_leadingZeros (ds : List ℕ) : ∃ ds', ds = List.replicate (leadingZeros ds) 0 ++ ds' ∧
    leadingZeros ds' = 0 := by
  induction ds with
  | nil => exact ⟨[], rfl, rfl⟩
  | cons d ds ih =>
    rw [leadingZeros_cons]
    by_cases h : d = 0
    · obtain ⟨ds', hds, hzero⟩ := ih
      refine ⟨ds', ?_, hzero⟩
      rw [if_pos h, List.replicate_succ, List.cons_append, ← hds, h]
    · refine ⟨d :: ds, ?_, ?_⟩
      · rw [if_neg h]
        rfl
      · rw [leadingZeros_cons, if_neg h]

theorem eq_zero_of_lt_leadingZeros (h : ds.length < leadingZeros (ds ++ d :: ds')) : d = 0 := by
  induction ds with
  | nil =>
    rw [List.nil_append, leadingZeros_cons] at h
    by_contra hd
    rw [if_neg hd] at h
    exact absurd h (Nat.not_lt_zero _)
  | cons c ds ih =>
    rw [List.cons_append, leadingZeros_cons, List.length_cons] at h
    split_ifs at h
    · exact ih (by omega)
    · omega

theorem ne_zero_of_leadingZeros_eq (h : leadingZeros (ds ++ d :: ds') = ds.length) : d ≠ 0 := by
  induction ds with
  | nil =>
    rintro rfl
    rw [List.nil_append, leadingZeros_cons, if_pos rfl] at h
    exact absurd h (Nat.succ_ne_zero _)
  | cons c ds ih =>
    rw [List.cons_append, leadingZeros_cons, List.length_cons] at h
    split_ifs at h
    exact ih (by omega)

theorem readDigits_replicate_zero (n : ℕ) (ds : List ℕ) :
    readDigits base (List.replicate n 0 ++ ds) = readDigits base ds := by
  induction n with
  | zero => rfl
  | succ n ih => rw [List.replicate_succ, List.cons_append, readDigits_cons, Nat.zero_mul, Nat.zero_add, ih]

/-- The zeros do not count in the bound of the first digits. -/
theorem readDigits_take_lt (hds : ∀ d ∈ ds, d < base) (hk : k ≤ ds.length) :
    readDigits base (ds.take k) < base ^ (k - leadingZeros ds) := by
  obtain ⟨ds', hsplit, -⟩ := exists_leadingZeros ds
  have hlen : leadingZeros ds + ds'.length = ds.length := by
    conv_rhs => rw [hsplit]
    simp
  generalize leadingZeros ds = z at hsplit hlen ⊢
  have hds' : ∀ d ∈ ds'.take (k - z), d < base := fun d hd => hds d (by
    rw [hsplit]
    exact List.mem_append_right _ (List.mem_of_mem_take hd))
  have hlt := readDigits_lt hds'
  rw [List.length_take, Nat.min_eq_left (by omega)] at hlt
  rw [hsplit, List.take_append, List.take_replicate, List.length_replicate, readDigits_replicate_zero]
  exact hlt

/-- A digit that is no zero counts. -/
theorem le_readDigits (hlt : leadingZeros ds < ds.length) :
    base ^ (ds.length - leadingZeros ds - 1) ≤ readDigits base ds := by
  obtain ⟨ds', hsplit, hzero⟩ := exists_leadingZeros ds
  have hlen : leadingZeros ds + ds'.length = ds.length := by
    conv_rhs => rw [hsplit]
    simp
  have hread : readDigits base ds = readDigits base ds' := by
    conv_lhs => rw [hsplit]
    exact readDigits_replicate_zero _ _
  cases ds' with
  | nil => exact absurd hlen hlt.ne
  | cons d ds' =>
    have hd : d ≠ 0 := by
      rintro rfl
      rw [leadingZeros_cons, if_pos rfl] at hzero
      exact Nat.succ_ne_zero _ hzero
    rw [List.length_cons] at hlen
    have hexponent : ds.length - leadingZeros ds - 1 = ds'.length := by omega
    rw [hread, readDigits_cons, hexponent]
    calc base ^ ds'.length ≤ d * base ^ ds'.length := Nat.le_mul_of_pos_left _ (Nat.pos_of_ne_zero hd)
      _ ≤ _ := Nat.le_add_right _ _

/-- Only the numbers with no other digits are zero. -/
theorem readDigits_eq_zero_iff (hbase : 0 < base) (hds : ∀ d ∈ ds, d < base) :
    readDigits base ds = 0 ↔ leadingZeros ds = ds.length := by
  constructor
  · intro h
    by_contra hne
    have hle := @le_readDigits base ds (lt_of_le_of_ne (leadingZeros_le ds) hne)
    rw [h] at hle
    exact absurd hle (Nat.not_le.2 (Nat.pow_pos hbase))
  · intro h
    have hlt := readDigits_take_lt hds le_rfl
    rw [h, List.take_length, Nat.sub_self, pow_zero] at hlt
    omega

/-! ### Rounding -/

theorem roundHalfAway_neg_mul (negative : Bool) (x : ℚ) :
    roundHalfAway ((if negative then -1 else 1) * x) = (if negative then -1 else 1) * roundHalfAway x := by
  cases negative with
  | false => rw [if_neg (by simp), if_neg (by simp), one_mul, one_mul]
  | true => rw [if_pos rfl, if_pos rfl, neg_one_mul, neg_one_mul, roundHalfAway_neg]

/-- Half of an even base and above is rounded up. -/
theorem roundHalfAway_digits (heven : 2 ∣ base) (hbase : 0 < base) (hds' : ∀ d ∈ ds', d < base)
    (hd : d < base) : roundHalfAway ((readDigits base (ds ++ d :: ds') : ℕ) / (base : ℚ) ^ (ds'.length + 1)) =
      (readDigits base ds + if base ≤ 2 * d then 1 else 0 : ℕ) := by
  obtain ⟨h, rfl⟩ := heven
  have hpow : 0 < (2 * h) ^ (ds'.length + 1) := Nat.pow_pos hbase
  have hrest := readDigits_lt hds'
  have hlow : d * (2 * h) ^ ds'.length + readDigits (2 * h) ds' < (2 * h) ^ (ds'.length + 1) := by
    calc d * (2 * h) ^ ds'.length + readDigits (2 * h) ds'
        < (d + 1) * (2 * h) ^ ds'.length := by
          rw [add_mul, one_mul]
          omega
      _ ≤ (2 * h) * (2 * h) ^ ds'.length := Nat.mul_le_mul_right _ hd
      _ = (2 * h) ^ (ds'.length + 1) := by rw [pow_succ, mul_comm]
  have hsplit : readDigits (2 * h) (ds ++ d :: ds') = (2 * h) ^ (ds'.length + 1) * readDigits (2 * h) ds +
      (d * (2 * h) ^ ds'.length + readDigits (2 * h) ds') := by
    rw [readDigits_append, readDigits_cons, List.length_cons, mul_comm]
  have hdiv : readDigits (2 * h) (ds ++ d :: ds') / (2 * h) ^ (ds'.length + 1) = readDigits (2 * h) ds := by
    rw [hsplit, Nat.mul_add_div hpow, Nat.div_eq_of_lt hlow, Nat.add_zero]
  have hmod : readDigits (2 * h) (ds ++ d :: ds') % (2 * h) ^ (ds'.length + 1) =
      d * (2 * h) ^ ds'.length + readDigits (2 * h) ds' := by
    rw [hsplit, Nat.mul_add_mod, Nat.mod_eq_of_lt hlow]
  -- the digit alone decides, as a half of the base is whole
  have hhalf : (2 * h) ^ (ds'.length + 1) ≤ 2 * (d * (2 * h) ^ ds'.length + readDigits (2 * h) ds') ↔
      2 * h ≤ 2 * d := by
    constructor
    · intro hle
      by_contra hlt
      have hd' : d + 1 ≤ h := by omega
      have hmul : (d + 1) * (2 * h) ^ ds'.length ≤ h * (2 * h) ^ ds'.length := Nat.mul_le_mul_right _ hd'
      rw [add_mul, one_mul] at hmul
      rw [pow_succ, mul_comm _ (2 * h), mul_assoc] at hle
      omega
    · intro hle
      have hmul : h * (2 * h) ^ ds'.length ≤ d * (2 * h) ^ ds'.length := Nat.mul_le_mul_right _ (by omega)
      rw [pow_succ, mul_comm _ (2 * h), mul_assoc]
      omega
  have hround := @roundHalfAway_div_nonneg (readDigits (2 * h) (ds ++ d :: ds') : ℕ)
    ((2 * h) ^ (ds'.length + 1) : ℕ) (Int.natCast_nonneg _) (by exact_mod_cast hpow)
  rw [← Int.natCast_ediv, ← Int.natCast_emod, hdiv, hmod] at hround
  have hcast : ((readDigits (2 * h) (ds ++ d :: ds') : ℕ) : ℚ) / ((2 * h : ℕ) : ℚ) ^ (ds'.length + 1) =
      ((readDigits (2 * h) (ds ++ d :: ds') : ℕ) : ℤ) / ((((2 * h) ^ (ds'.length + 1) : ℕ) : ℤ) : ℚ) := by
    push_cast
    rfl
  rw [hcast, hround]
  by_cases hup : 2 * h ≤ 2 * d
  · rw [if_pos hup, if_pos (by exact_mod_cast hhalf.2 hup)]
    push_cast
    rfl
  · rw [if_neg hup, if_neg fun hle => hup (hhalf.1 (by exact_mod_cast hle))]
    push_cast
    rfl

/-! ### The largest numbers of their digits -/

theorem readDigits_replicate_max (hbase : 0 < base) (n : ℕ) :
    readDigits base (List.replicate n (base - 1)) + 1 = base ^ n := by
  induction n with
  | zero => rfl
  | succ n ih =>
    have hmax : base - 1 + 1 = base := Nat.sub_add_cancel hbase
    rw [List.replicate_succ, readDigits_cons, List.length_replicate, add_assoc, ih, pow_succ, ← add_one_mul,
      hmax, mul_comm]

/-- Lists of as many digits have different numbers. -/
theorem readDigits_injective (hbase : 1 < base) (hds : ∀ d ∈ ds, d < base) (hds' : ∀ d ∈ ds', d < base)
    (hlen : ds.length = ds'.length) (h : readDigits base ds = readDigits base ds') : ds = ds' := by
  rw [readDigits_eq_ofDigits, readDigits_eq_ofDigits] at h
  have hreverse := Nat.ofDigits_inj_of_len_eq hbase (by simpa using hlen)
    (fun d hd => hds d (List.mem_reverse.1 hd)) (fun d hd => hds' d (List.mem_reverse.1 hd)) h
  exact List.reverse_injective hreverse

theorem readDigits_add_one_eq_iff (hbase : 1 < base) (hds : ∀ d ∈ ds, d < base) (hn : n ≤ ds.length) :
    readDigits base ds + 1 = base ^ n ↔
      ds = List.replicate (ds.length - n) 0 ++ List.replicate n (base - 1) := by
  have hmax : readDigits base (List.replicate (ds.length - n) 0 ++ List.replicate n (base - 1)) + 1 =
      base ^ n := by
    rw [readDigits_replicate_zero, readDigits_replicate_max (by omega)]
  constructor
  · intro h
    refine readDigits_injective hbase hds ?_ ?_ (Nat.succ.inj (h.trans hmax.symm))
    · intro d hd
      rcases List.mem_append.1 hd with hd | hd
      · obtain rfl := List.eq_of_mem_replicate hd
        omega
      · obtain rfl := List.eq_of_mem_replicate hd
        omega
    · simp
      omega
  · intro h
    rw [h]
    exact hmax

end SparkRapids.Numerals
