import Mathlib.Data.Nat.Log
import Mathlib.Data.Nat.Bitwise
import Mathlib.Data.Nat.Size

/-!
# Ring capacities

`NewRingBuffer` rounds the requested capacity up to a power of two with the
usual cascade of shifted ors, and every later access finds a slot with
`pos & mask`.  `nextPowerOfTwo` is that cascade on 64-bit values; the proof
follows the window each `or` doubles: after the shifts 1, 2, 4, …, 32 a bit is
set exactly when one of the 64 bits at or above it was.

`nextPowerOfTwo_eq` is the result: on the values an `int` capacity can take the
cascade returns `2 ^ ⌈log₂ n⌉`.
-/

namespace ConvoyStats.Transport

/-- One line of the cascade, `n |= n >> k`. -/
def orShift (n k : ℕ) : ℕ := n ||| (n >>> k)

/-- `nextPowerOfTwo` of `buffer.go`.  The final increment wraps at 64 bits; the
shifts and ors stay below the 64-bit values they start from. -/
def nextPowerOfTwo (n : ℕ) : ℕ :=
  if n = 0 then 1
  else
    let n := n - 1
    let n := orShift n 1
    let n := orShift n 2
    let n := orShift n 4
    let n := orShift n 8
    let n := orShift n 16
    let n := orShift n 32
    (n + 1) % 2 ^ 64

/-- `x` has a bit exactly where `m` has one among the `width` bits from there on. -/
def Smeared (m width x : ℕ) : Prop :=
  ∀ i, x.testBit i = true ↔ ∃ j < width, m.testBit (i + j) = true

theorem smeared_self (m : ℕ) : Smeared m 1 m := by
  intro i
  constructor
  · intro h
    exact ⟨0, Nat.one_pos, h⟩
  · rintro ⟨j, hj, h⟩
    obtain rfl : j = 0 := by omega
    exact h

/-- Each line of the cascade doubles the window. -/
theorem Smeared.orShift {m width x : ℕ} (h : Smeared m width x) :
    Smeared m (width + width) (orShift x width) := by
  intro i
  rw [Transport.orShift, Nat.testBit_or, Nat.testBit_shiftRight, Bool.or_eq_true, h i,
    h (width + i)]
  constructor
  · rintro (⟨j, hj, hbit⟩ | ⟨j, hj, hbit⟩)
    · exact ⟨j, by omega, hbit⟩
    · exact ⟨width + j, by omega, by rwa [show i + (width + j) = width + i + j by omega]⟩
  · rintro ⟨j, hj, hbit⟩
    by_cases hlow : j < width
    · exact .inl ⟨j, hlow, hbit⟩
    · refine .inr ⟨j - width, by omega, ?_⟩
      rwa [show width + i + (j - width) = i + j by omega]

/-- A window of 64 bits covers every bit of a 64-bit value, so the smeared value
is all ones up to its size. -/
theorem Smeared.eq_two_pow_sub_one {m x : ℕ} (h : Smeared m 64 x) (hm : m < 2 ^ 64) :
    x = 2 ^ m.size - 1 := by
  apply Nat.eq_of_testBit_eq
  intro i
  rw [Nat.testBit_two_pow_sub_one, Bool.eq_iff_iff, h i, decide_eq_true_iff]
  constructor
  · rintro ⟨j, -, hbit⟩
    have hpow : 2 ^ (i + j) ≤ m := Nat.ge_two_pow_of_testBit hbit
    have := Nat.lt_size.mpr hpow
    omega
  · intro hi
    have hne : m ≠ 0 := by
      rintro rfl
      simp at hi
    -- the leading bit of `m` lies within the window above `i`
    have hle : 2 ^ i ≤ m := Nat.lt_size.mp hi
    have hlog : i ≤ m.log2 := (Nat.le_log2 hne).mpr hle
    have hlt : m.log2 < 64 := (Nat.log2_lt hne).mpr hm
    refine ⟨m.log2 - i, by omega, ?_⟩
    rw [show i + (m.log2 - i) = m.log2 by omega]
    exact Nat.testBit_log2 hne

/-- The size of `n - 1` is the exponent of the least power of two above `n`. -/
theorem size_pred_eq_clog {n : ℕ} (hn : n ≠ 0) : (n - 1).size = Nat.clog 2 n := by
  apply le_antisymm
  · rw [Nat.size_le]
    have := Nat.le_pow_clog Nat.one_lt_two n
    omega
  · rw [Nat.clog_le_iff_le_pow Nat.one_lt_two]
    have := Nat.size_le.mp (le_refl (n - 1).size)
    omega

/-- **`nextPowerOfTwo` is exact**: for every value up to `2 ^ 63` it returns the
smallest power of two that is at least the value (`1` for zero). -/
theorem nextPowerOfTwo_eq {n : ℕ} (h : n ≤ 2 ^ 63) :
    nextPowerOfTwo n = 2 ^ Nat.clog 2 n := by
  by_cases hn : n = 0
  · subst hn
    simp [nextPowerOfTwo]
  · have hsmear := (smeared_self (n - 1)).orShift.orShift.orShift.orShift.orShift.orShift
    have hcascade := hsmear.eq_two_pow_sub_one (by omega)
    have hexp : Nat.clog 2 n ≤ 63 := (Nat.clog_le_iff_le_pow Nat.one_lt_two).mpr h
    have hpow : 2 ^ Nat.clog 2 n ≤ 2 ^ 63 := Nat.pow_le_pow_right (by omega) hexp
    have hpos : 0 < 2 ^ Nat.clog 2 n := Nat.two_pow_pos _
    rw [size_pred_eq_clog hn] at hcascade
    simp only [nextPowerOfTwo, if_neg hn, hcascade]
    rw [Nat.sub_add_cancel hpos, Nat.mod_eq_of_lt (by omega)]

end ConvoyStats.Transport
