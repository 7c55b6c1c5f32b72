import Mathlib.Data.Int.Log
import Mathlib.Data.Rat.Floor
import Mathlib.Algebra.Order.Field.Power
import Mathlib.Algebra.Order.Ring.Rat

/-!
# Rounding to doubles

An operation on doubles gives its exact result, rounded. `binary64` is that
rounding for results below the overflow threshold: the nearest number with a
significand of 53 bits, and of two equally near ones that with an even
significand.

Rounding keeps a bound that is a double itself; `binary64_le_one` and
`binary64_nonneg` are the bounds of a ratio. What does not survive it are
equations: rounding a quotient and multiplying back may come out lower.
-/

namespace Lib

/-- The nearest integer, at a tie the even one. -/
def roundHalfEven (q : ℚ) : ℤ :=
  let n := ⌊q⌋
  if q - n < 1 / 2 then n
  else if 1 / 2 < q - n then n + 1
  else if n % 2 = 0 then n else n + 1

/-- The exponent of the last bit of the significand; numbers near zero have fewer bits. -/
def lastBit (q : ℚ) : ℤ := max (Int.log 2 |q| - 52) (-1074)

def binary64 (q : ℚ) : ℚ := roundHalfEven (q / 2 ^ lastBit q) * 2 ^ lastBit q

theorem floor_le_roundHalfEven (q : ℚ) : ⌊q⌋ ≤ roundHalfEven q := by
  unfold roundHalfEven
  dsimp only
  split_ifs <;> omega

/-- Rounding does not pass an integer. -/
theorem roundHalfEven_le {q : ℚ} {n : ℤ} (h : q ≤ n) : roundHalfEven q ≤ n := by
  have hfloor : ⌊q⌋ ≤ n := Int.floor_le_iff.mpr (h.trans_lt (lt_add_one _))
  rcases hfloor.eq_or_lt with heq | hlt
  · have hhalf : q - ⌊q⌋ < 1 / 2 := by
      rw [heq]
      linarith
    unfold roundHalfEven
    rw [if_pos hhalf]
    exact hfloor
  · unfold roundHalfEven
    dsimp only
    split_ifs <;> omega

theorem binary64_nonneg {q : ℚ} (h : 0 ≤ q) : 0 ≤ binary64 q := by
  have hbit : (0 : ℚ) < 2 ^ lastBit q := zpow_pos two_pos _
  have hfloor : 0 ≤ ⌊q / 2 ^ lastBit q⌋ := Int.floor_nonneg.mpr (div_nonneg h hbit.le)
  exact mul_nonneg (Int.cast_nonneg (hfloor.trans (floor_le_roundHalfEven _))) hbit.le

/-- The last bit of a number up to one is a fraction of one. -/
theorem lastBit_nonpos {q : ℚ} (h : 0 ≤ q) (h₁ : q ≤ 1) : lastBit q ≤ 0 := by
  have hlog : Int.log 2 |q| ≤ 0 := by
    rw [abs_of_nonneg h]
    rcases h.eq_or_lt with rfl | hpos
    · rw [Int.log_zero_right]
    · exact (Int.log_mono_right hpos h₁).trans_eq (Int.log_one_right 2)
  unfold lastBit
  omega

theorem binary64_le_one {q : ℚ} (h : 0 ≤ q) (h₁ : q ≤ 1) : binary64 q ≤ 1 := by
  obtain ⟨n, hn⟩ := Int.eq_ofNat_of_zero_le (neg_nonneg.mpr (lastBit_nonpos h h₁))
  have hbit : (0 : ℚ) < 2 ^ lastBit q := zpow_pos two_pos _
  -- one is a multiple of the last bit
  have hone : (((2 : ℤ) ^ n : ℤ) : ℚ) * 2 ^ lastBit q = 1 := by
    have hexp : lastBit q = -(n : ℤ) := by omega
    rw [hexp, zpow_neg, zpow_natCast, Int.cast_pow, Int.cast_ofNat]
    exact mul_inv_cancel₀ (pow_ne_zero _ two_ne_zero)
  have hround : roundHalfEven (q / 2 ^ lastBit q) ≤ 2 ^ n := by
    refine roundHalfEven_le ((div_le_iff₀ hbit).mpr ?_)
    rw [hone]
    exact h₁
  calc binary64 q
    _ ≤ (((2 : ℤ) ^ n : ℤ) : ℚ) * 2 ^ lastBit q :=
        mul_le_mul_of_nonneg_right (Int.cast_le.mpr hround) hbit.le
    _ = 1 := hone

end Lib
