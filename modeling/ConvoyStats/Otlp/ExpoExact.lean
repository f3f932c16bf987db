import Mathlib.Analysis.SpecialFunctions.Log.Base
import ConvoyStats.Otlp.ExpoIndex

/-!
# Bucket indexes with an exact logarithm

Had `math.Log2` no rounding errors, `expoIndex` would be `⌈log₂ v * 2 ^ scale⌉ - 1`: a power of two
takes its own branch at every scale, and the clamp changes nothing, since the logarithm of any other
fraction lies strictly between `-1` and `0`.  Scales below zero are reached from scale zero by the
shift.
-/

namespace ConvoyStats.Otlp

open Real

/-- The clamp does not move an exact index. -/
theorem clampedIndex_logb {frac : ℝ} (hlow : 1 / 2 < frac) (hhigh : frac < 1) (exp : ℤ) (s : ℕ) :
    clampedIndex (logb 2) frac exp s = exp * 2 ^ s + ⌈logb 2 frac * 2 ^ s⌉ - 1 := by
  have hpow : (0 : ℝ) < 2 ^ s := by positivity
  have hneg : logb 2 frac < 0 := logb_neg one_lt_two (by linarith) hhigh
  have habove : -1 < logb 2 frac := by
    rw [lt_logb_iff_rpow_lt one_lt_two (by linarith), rpow_neg_one]
    linarith
  have hceil : ⌈logb 2 frac * 2 ^ s⌉ ≤ 0 := by
    rw [Int.ceil_le, Int.cast_zero]
    exact (mul_neg_of_neg_of_pos hneg hpow).le
  have hceil' : -2 ^ s < ⌈logb 2 frac * 2 ^ s⌉ := by
    rw [Int.lt_ceil]
    push_cast
    nlinarith
  have hsplit : (exp - 1) * 2 ^ s = exp * 2 ^ s - 2 ^ s := by ring
  simp only [clampedIndex, hsplit]
  omega

theorem expoIndex_logb_natCast {v : ℝ} (hv : 0 < v) (s : ℕ) :
    expoIndex (logb 2) v s = ⌈logb 2 v * 2 ^ s⌉ - 1 := by
  obtain ⟨hlow, hhigh, hparts⟩ := frexp_spec hv
  generalize hfrac : (frexp v).1 = frac at hlow hhigh hparts
  generalize hexp : (frexp v).2 = exp at hparts
  have hpos : 0 < frac := by linarith
  have hlog : logb 2 v * 2 ^ s = logb 2 frac * 2 ^ s + ((exp * 2 ^ s : ℤ) : ℝ) := by
    rw [hparts, logb_mul hpos.ne' (by positivity), ← rpow_intCast,
      logb_rpow two_pos (by norm_num)]
    push_cast
    ring
  rw [expoIndex_natCast, hfrac, hexp, hlog, Int.ceil_add_intCast]
  split
  · rename_i hhalf
    have hminus : logb 2 frac * 2 ^ s = ((-2 ^ s : ℤ) : ℝ) := by
      rw [hhalf, one_div, logb_inv, logb_self_eq_one one_lt_two]
      push_cast
      ring
    rw [hminus, Int.ceil_intCast]
    ring
  · rename_i hhalf
    rw [clampedIndex_logb (lt_of_le_of_ne hlow (Ne.symm hhalf)) hhigh]
    ring

/-- The index at every scale. -/
theorem expoIndex_logb {v : ℝ} (hv : 0 < v) (scale : ℤ) :
    expoIndex (logb 2) v scale = ⌈logb 2 v * 2 ^ scale⌉ - 1 := by
  obtain ⟨k, rfl | rfl⟩ := Int.eq_nat_or_neg scale
  · exact_mod_cast expoIndex_logb_natCast hv k
  · have hshift := ceil_sub_one_shiftRight (logb 2 v * 2 ^ (-k : ℤ)) 0 0 k
    have hzero := expoIndex_logb_natCast hv 0
    have hback : logb 2 v * 2 ^ (-k : ℤ) * 2 ^ k = logb 2 v := by
      rw [mul_assoc, ← zpow_natCast, ← zpow_add₀ two_ne_zero, neg_add_cancel, zpow_zero, mul_one]
    rw [Nat.cast_zero, pow_zero, mul_one] at hzero
    rw [zero_mul, zero_mul, zero_add, zero_add, zero_add, hback, pow_zero, mul_one, ← hzero,
      expoIndex_shiftRight, zero_sub] at hshift
    exact hshift

/-- **With an exact logarithm the index is that of the bucket holding the value**: it is the only
`i` with `2 ^ (i * 2 ^ -scale) < v ≤ 2 ^ ((i + 1) * 2 ^ -scale)`. -/
theorem expoIndex_exact {v : ℝ} (hv : 0 < v) (scale i : ℤ) :
    (2 : ℝ) ^ ((i : ℝ) * 2 ^ (-scale)) < v ∧ v ≤ (2 : ℝ) ^ (((i + 1 : ℤ) : ℝ) * 2 ^ (-scale)) ↔
      i = expoIndex (logb 2) v scale := by
  have hpow : (0 : ℝ) < 2 ^ scale := by positivity
  rw [expoIndex_logb hv, eq_sub_iff_add_eq, eq_comm (a := i + 1), Int.ceil_eq_iff,
    ← lt_logb_iff_rpow_lt one_lt_two hv, ← logb_le_iff_le_rpow one_lt_two hv, zpow_neg,
    ← div_eq_mul_inv, ← div_eq_mul_inv, div_lt_iff₀ hpow, le_div_iff₀ hpow]
  push_cast
  rw [add_sub_cancel_right]

/-- A power of the base closes the bucket below it. -/
theorem expoIndex_exact_one : -1 = expoIndex (logb 2) 1 20 := by
  refine (expoIndex_exact one_pos 20 (-1)).mp ⟨?_, by norm_num⟩
  exact rpow_lt_one_of_one_lt_of_neg one_lt_two (by norm_num)

end ConvoyStats.Otlp
