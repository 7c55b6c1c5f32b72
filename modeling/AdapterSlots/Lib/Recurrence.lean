import Mathlib.Analysis.SpecificLimits.Normed

/-!
# Two-step contractions

A sequence whose next value is at most `ρ < 1` times the larger of the two
before it tends to zero. A linear recurrence of order two with coefficients
of absolute sum below one is of this kind.
-/

namespace Lib

open Filter

variable {x : ℕ → ℝ}

/-- Two steps shrink the larger of two neighbours by `ρ`. -/
theorem abs_le_pow_of_contraction {ρ : ℝ} (hρ₀ : 0 ≤ ρ) (hρ₁ : ρ ≤ 1)
    (h : ∀ n, |x (n + 2)| ≤ ρ * max |x (n + 1)| |x n|) : ∀ n,
    |x (2 * n)| ≤ ρ ^ n * max |x 1| |x 0| ∧ |x (2 * n + 1)| ≤ ρ ^ n * max |x 1| |x 0|
  | 0 => by
      rw [pow_zero, one_mul]
      exact ⟨le_max_right _ _, le_max_left _ _⟩
  | n + 1 => by
      obtain ⟨heven, hodd⟩ := abs_le_pow_of_contraction hρ₀ hρ₁ h n
      have hstep : ρ * (ρ ^ n * max |x 1| |x 0|) = ρ ^ (n + 1) * max |x 1| |x 0| := by ring
      have hnext : |x (2 * n + 2)| ≤ ρ ^ (n + 1) * max |x 1| |x 0| := by
        rw [← hstep]
        exact (h (2 * n)).trans (mul_le_mul_of_nonneg_left (max_le hodd heven) hρ₀)
      have hsmall : |x (2 * n + 2)| ≤ ρ ^ n * max |x 1| |x 0| := by
        refine hnext.trans (mul_le_mul_of_nonneg_right ?_ ((abs_nonneg _).trans (le_max_left _ _)))
        exact pow_le_pow_of_le_one hρ₀ hρ₁ (Nat.le_succ n)
      refine ⟨hnext, ?_⟩
      rw [← hstep]
      exact (h (2 * n + 1)).trans (mul_le_mul_of_nonneg_left (max_le hsmall hodd) hρ₀)

theorem tendsto_zero_of_contraction {ρ : ℝ} (hρ₀ : 0 ≤ ρ) (hρ₁ : ρ < 1)
    (h : ∀ n, |x (n + 2)| ≤ ρ * max |x (n + 1)| |x n|) : Tendsto x atTop (nhds 0) := by
  have hbound : ∀ n, |x n| ≤ ρ ^ (n / 2) * max |x 1| |x 0| := by
    intro n
    obtain ⟨heven, hodd⟩ := abs_le_pow_of_contraction hρ₀ hρ₁.le h (n / 2)
    rcases Nat.even_or_odd' n with ⟨k, rfl | rfl⟩
    · rwa [Nat.mul_div_cancel_left k two_pos] at heven ⊢
    · have hk : (2 * k + 1) / 2 = k := by omega
      rwa [hk] at hodd ⊢
  have hhalf : Tendsto (fun n : ℕ => n / 2) atTop atTop :=
    tendsto_atTop_atTop.mpr fun k => ⟨2 * k, fun n hn => by omega⟩
  have hzero : Tendsto (fun n : ℕ => ρ ^ (n / 2) * max |x 1| |x 0|) atTop (nhds 0) := by
    have hpow := (tendsto_pow_atTop_nhds_zero_of_lt_one hρ₀ hρ₁).comp hhalf
    have := hpow.mul_const (max |x 1| |x 0|)
    rwa [zero_mul] at this
  exact squeeze_zero_norm hbound hzero

/-- A linear recurrence of order two. -/
theorem tendsto_zero_of_recurrence {p q : ℝ} (hpq : |p| + |q| < 1)
    (h : ∀ n, x (n + 2) = p * x (n + 1) + q * x n) : Tendsto x atTop (nhds 0) := by
  refine tendsto_zero_of_contraction (add_nonneg (abs_nonneg p) (abs_nonneg q)) hpq fun n => ?_
  calc |x (n + 2)|
    _ = |p * x (n + 1) + q * x n| := by rw [h]
    _ ≤ |p| * |x (n + 1)| + |q| * |x n| := by
        rw [← abs_mul, ← abs_mul]
        exact abs_add_le _ _
    _ ≤ |p| * max |x (n + 1)| |x n| + |q| * max |x (n + 1)| |x n| :=
        add_le_add (mul_le_mul_of_nonneg_left (le_max_left _ _) (abs_nonneg p))
          (mul_le_mul_of_nonneg_left (le_max_right _ _) (abs_nonneg q))
    _ = (|p| + |q|) * max |x (n + 1)| |x n| := by rw [add_mul]

end Lib
