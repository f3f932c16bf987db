import Mathlib.Data.Int.Log
import Mathlib.Data.Rat.Floor
import ConvoyStats.Library.Coarsening

/-!
# Bucket indexes of exponential histograms

`expoIndex` of `exponential.go`.  Values are finite doubles, kept as the rationals
they are; `math.Frexp` and `math.Ldexp` are exact on them.  `math.Log2` is not, so it
is a parameter about which nothing is assumed: the index is clamped to the buckets of
the value's power of two, and that is enough for the two facts histograms rest on.
The field is left open, so that the index can also be compared with the real logarithm.

* `expoIndex_shiftRight`: lowering the scale shifts the index.
* `expoIndex_range`: every index of a finite double fits an `int32`.
-/

namespace ConvoyStats.Otlp

/-- The magnitudes of finite doubles, subnormal ones included. -/
def FiniteDouble (v : ℚ) : Prop := v = 0 ∨ (2 : ℚ) ^ (-1074 : ℤ) ≤ |v| ∧ |v| < 2 ^ (1024 : ℤ)

instance : DecidablePred FiniteDouble := fun _ => inferInstanceAs (Decidable (_ ∨ _ ∧ _))

theorem FiniteDouble.neg {v : ℚ} (h : FiniteDouble v) : FiniteDouble (-v) := by
  simpa only [FiniteDouble, neg_eq_zero, abs_neg] using h

section

variable {K : Type*} [Field K] [LinearOrder K] [FloorRing K]

/-- `math.Frexp` of a positive value: a fraction in `[1/2, 1)` and an exponent. -/
def frexp (v : K) : K × ℤ := (v / 2 ^ (Int.log 2 v + 1), Int.log 2 v + 1)

variable (log2 : K → K)

/-- The index at a scale above zero of a value that is no power of two: `math.Log2`
of the fraction, clamped to the buckets between `2 ^ (exp - 1)` and `2 ^ exp`. -/
def clampedIndex (frac : K) (exp : ℤ) (scale : ℕ) : ℤ :=
  let index := exp * 2 ^ scale + ⌈log2 frac * 2 ^ scale⌉ - 1
  min (max index ((exp - 1) * 2 ^ scale)) (exp * 2 ^ scale - 1)

/-- `expoIndex`. -/
def expoIndex (v : K) (scale : ℤ) : ℤ :=
  let (frac, exp) := frexp v
  if scale ≤ 0 then (if frac = 1 / 2 then exp - 2 else exp - 1) >>> (-scale).toNat
  else if frac = 1 / 2 then (exp - 1) * 2 ^ scale.toNat - 1
  else clampedIndex log2 frac exp scale.toNat

variable {log2}

theorem expoIndex_of_nonpos {v : K} {scale : ℤ} (h : scale ≤ 0) :
    expoIndex log2 v scale =
      (if (frexp v).1 = 1 / 2 then (frexp v).2 - 2 else (frexp v).2 - 1) >>> (-scale).toNat := by
  simp only [expoIndex, if_pos h]

/-- At scale zero the logarithm makes no difference. -/
theorem clampedIndex_zero (frac : K) (exp : ℤ) : clampedIndex log2 frac exp 0 = exp - 1 := by
  simp only [clampedIndex, pow_zero, mul_one]
  omega

theorem expoIndex_natCast (v : K) (s : ℕ) :
    expoIndex log2 v s =
      if (frexp v).1 = 1 / 2 then ((frexp v).2 - 1) * 2 ^ s - 1
      else clampedIndex log2 (frexp v).1 (frexp v).2 s := by
  cases s with
  | zero =>
    rw [Nat.cast_zero, expoIndex_of_nonpos le_rfl, clampedIndex_zero, neg_zero, Int.toNat_zero,
      Int.shiftRight_zero]
    split <;> ring
  | succ s =>
    have h : ¬ ((s + 1 : ℕ) : ℤ) ≤ 0 := by omega
    simp only [expoIndex, if_neg h, Int.toNat_natCast]

/-! ### Lower scales -/

theorem mul_two_pow_shiftRight (a : ℤ) (s k : ℕ) : (a * 2 ^ (s + k)) >>> k = a * 2 ^ s := by
  rw [Int.shiftRight_eq_div_pow, pow_add, ← mul_assoc]
  exact Int.mul_ediv_cancel _ (by positivity)

/-- Below a power of the base, one bucket further down. -/
theorem mul_two_pow_sub_one_shiftRight (a : ℤ) (s k : ℕ) :
    (a * 2 ^ (s + k) - 1) >>> k = a * 2 ^ s - 1 := by
  have hpos : (0 : ℤ) < 2 ^ k := by positivity
  rw [Int.shiftRight_eq_div_pow, pow_add, ← mul_assoc]
  push_cast
  rw [Int.ediv_eq_iff_of_pos hpos]
  constructor <;> nlinarith

variable [IsStrictOrderedRing K]

/-- Rounding up twice is rounding up once. -/
theorem ceil_sub_one_shiftRight (x : K) (a : ℤ) (s k : ℕ) :
    (a * 2 ^ (s + k) + ⌈x * 2 ^ (s + k)⌉ - 1) >>> k = a * 2 ^ s + ⌈x * 2 ^ s⌉ - 1 := by
  have hpos : (0 : ℤ) < 2 ^ k := by positivity
  have hposK : (0 : K) < 2 ^ k := by positivity
  rw [Int.shiftRight_eq_div_pow]
  push_cast
  rw [Int.ediv_eq_iff_of_pos hpos]
  have hlt := Int.ceil_lt_add_one (x * 2 ^ s)
  have hle := Int.le_ceil (x * 2 ^ s)
  have hup : ⌈x * 2 ^ (s + k)⌉ ≤ ⌈x * 2 ^ s⌉ * 2 ^ k := by
    rw [Int.ceil_le, pow_add, ← mul_assoc]
    push_cast
    exact mul_le_mul_of_nonneg_right hle hposK.le
  have hdown : (⌈x * 2 ^ s⌉ - 1) * 2 ^ k < ⌈x * 2 ^ (s + k)⌉ := by
    rw [Int.lt_ceil, pow_add, ← mul_assoc]
    push_cast
    exact mul_lt_mul_of_pos_right (by linarith) hposK
  have hsplit : a * 2 ^ (s + k) = a * 2 ^ s * 2 ^ k := by rw [pow_add, mul_assoc]
  rw [hsplit]
  constructor <;> nlinarith

theorem clampedIndex_shiftRight (frac : K) (exp : ℤ) (s k : ℕ) :
    clampedIndex log2 frac exp (s + k) >>> k = clampedIndex log2 frac exp s := by
  have hmono : Monotone fun i : ℤ => i >>> k := fun _ _ h => Coarsening.shiftRight_mono h k
  simp only [clampedIndex]
  rw [hmono.map_min, hmono.map_max, mul_two_pow_shiftRight, mul_two_pow_sub_one_shiftRight,
    ceil_sub_one_shiftRight]

theorem expoIndex_natCast_shiftRight (v : K) (s k : ℕ) :
    expoIndex log2 v (s + k : ℕ) >>> k = expoIndex log2 v s := by
  rw [expoIndex_natCast, expoIndex_natCast]
  split
  · exact mul_two_pow_sub_one_shiftRight _ _ _
  · exact clampedIndex_shiftRight _ _ _ _

/-- **Downscaling and indexing agree**: the index at a lower scale is the index at the
higher one, shifted. -/
theorem expoIndex_shiftRight (v : K) (scale : ℤ) (k : ℕ) :
    expoIndex log2 v scale >>> k = expoIndex log2 v (scale - k) := by
  -- from scale zero on the exponent alone decides
  have hdown : ∀ {scale : ℤ} {k : ℕ}, scale ≤ 0 →
      expoIndex log2 v scale >>> k = expoIndex log2 v (scale - k) := by
    intro scale k hs
    have hsum : (-(scale - k)).toNat = (-scale).toNat + k := by omega
    rw [expoIndex_of_nonpos hs, expoIndex_of_nonpos (by omega), hsum, Int.shiftRight_add]
  by_cases hs : scale ≤ 0
  · exact hdown hs
  obtain ⟨s, rfl⟩ := Int.eq_ofNat_of_zero_le (by omega : 0 ≤ scale)
  rcases Nat.le_total k s with hk | hk
  · -- the scale stays above zero
    obtain ⟨j, rfl⟩ := Nat.exists_eq_add_of_le' hk
    rw [expoIndex_natCast_shiftRight, Nat.cast_add, add_sub_cancel_right]
  · obtain ⟨j, rfl⟩ := Nat.exists_eq_add_of_le hk
    have hzero : expoIndex log2 v _ >>> s = _ := expoIndex_natCast_shiftRight v 0 s
    rw [zero_add, Nat.cast_zero] at hzero
    rw [Int.shiftRight_add, hzero, hdown le_rfl]
    congr 1
    omega

/-- The parts of a positive value. -/
theorem frexp_spec {v : K} (hv : 0 < v) :
    1 / 2 ≤ (frexp v).1 ∧ (frexp v).1 < 1 ∧ v = (frexp v).1 * 2 ^ (frexp v).2 := by
  have hpow : (0 : K) < 2 ^ (Int.log 2 v + 1) := zpow_pos two_pos _
  have hle := Int.zpow_log_le_self Nat.one_lt_two hv
  have hlt := Int.lt_zpow_succ_log_self Nat.one_lt_two v
  push_cast at hle hlt
  refine ⟨?_, (div_lt_one hpow).mpr hlt, (div_mul_cancel₀ _ hpow.ne').symm⟩
  rw [frexp, le_div_iff₀ hpow, zpow_add_one₀ two_ne_zero]
  linarith

end

/-! ### The range of the indexes -/

theorem frexp_exp_range {v : ℚ} (hv : FiniteDouble v) (hpos : 0 < v) :
    -1073 ≤ (frexp v).2 ∧ (frexp v).2 ≤ 1024 := by
  rcases hv with rfl | ⟨hlow, hhigh⟩
  · exact absurd hpos (lt_irrefl _)
  · rw [abs_of_pos hpos] at hlow hhigh
    have h1 : (-1074 : ℤ) ≤ Int.log 2 v :=
      (Int.zpow_le_iff_le_log Nat.one_lt_two hpos).mp (by exact_mod_cast hlow)
    have h2 : Int.log 2 v < 1024 :=
      (Int.lt_zpow_iff_log_lt Nat.one_lt_two hpos).mp (by exact_mod_cast hhigh)
    simp only [frexp]
    omega

/-- **Every index of a finite double fits an `int32`.** -/
theorem expoIndex_range {log2 : ℚ → ℚ} {v : ℚ} {scale : ℤ} (hv : FiniteDouble v) (hpos : 0 < v)
    (hscale : scale ≤ 20) :
    -1074 * 2 ^ 20 - 1 ≤ expoIndex log2 v scale ∧
      expoIndex log2 v scale ≤ 1024 * 2 ^ 20 - 1 := by
  obtain ⟨hlow, hhigh⟩ := frexp_exp_range hv hpos
  by_cases hs : scale ≤ 0
  · -- the indexes at scale zero only come closer to zero
    rw [expoIndex_of_nonpos hs, Int.shiftRight_eq_div_pow]
    have hpow : (1 : ℤ) ≤ ((2 ^ (-scale).toNat : ℕ) : ℤ) := by
      exact_mod_cast Nat.one_le_two_pow
    constructor
    · rw [Int.le_ediv_iff_mul_le (by omega)]
      split <;> nlinarith
    · refine Int.lt_add_one_iff.mp ?_
      rw [Int.ediv_lt_iff_lt_mul (by omega)]
      split <;> nlinarith
  · obtain ⟨s, rfl⟩ := Int.eq_ofNat_of_zero_le (by omega : 0 ≤ scale)
    have hpow : (2 : ℤ) ^ s ≤ 2 ^ 20 := pow_le_pow_right₀ (by norm_num) (by omega)
    have hone : (1 : ℤ) ≤ 2 ^ s := one_le_pow₀ (by norm_num)
    rw [expoIndex_natCast]
    split
    · constructor <;> nlinarith
    · simp only [clampedIndex]
      constructor
      · refine le_min (le_max_of_le_right ?_) ?_ <;> nlinarith
      · exact (min_le_right _ _).trans (by nlinarith)

/-- **Indexes are consistent across scales.**  Whatever `math.Log2` returns for the fraction of a
positive finite double, the index at a lower scale is the index at the higher one, shifted, and
every index lies between those of the least and the largest double. -/
theorem expoIndex_consistent (log2 : ℚ → ℚ) {v : ℚ} (hv : FiniteDouble v) (hpos : 0 < v)
    {scale : ℤ} (hscale : scale ≤ 20) (k : ℕ) :
    (1 / 2 ≤ (frexp v).1 ∧ (frexp v).1 < 1 ∧ v = (frexp v).1 * 2 ^ (frexp v).2) ∧
      expoIndex log2 v scale >>> k = expoIndex log2 v (scale - k) ∧
      -1074 * 2 ^ 20 - 1 ≤ expoIndex log2 v scale ∧
      expoIndex log2 v scale ≤ 1024 * 2 ^ 20 - 1 :=
  ⟨frexp_spec hpos, expoIndex_shiftRight v scale k, expoIndex_range hv hpos hscale⟩

/-- A logarithm that is far off: the index of `3` is clamped, and crosses scale zero. -/
theorem expoIndex_consistent_three :
    let index := expoIndex (fun _ : ℚ => 7) 3
    index 20 = 2 * 2 ^ 20 - 1 ∧ index (-10) = 0 ∧
      index 20 >>> (30 : ℕ) = index (20 - (30 : ℕ)) :=
  ⟨by decide +kernel, by decide +kernel,
    (expoIndex_consistent (v := 3) _ (by decide +kernel) (by decide) le_rfl 30).2.1⟩

end ConvoyStats.Otlp
