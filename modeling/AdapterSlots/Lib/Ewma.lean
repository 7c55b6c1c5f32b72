import Mathlib.Analysis.SpecificLimits.Normed
import Mathlib.Tactic.LinearCombination

/-!
# Exponentially weighted moving averages

`ewma α x₀ x n` starts at `x₀` and moves by the fraction `α` towards each of
the samples `x 0, …, x (n - 1)`. It is a weighted mean of the start and the
samples (`ewma_eq`), so it never leaves their hull, and on constant samples
it converges to them.
-/

namespace Lib

variable {K : Type} [Field K]

def ewma (α x₀ : K) (x : ℕ → K) : ℕ → K
  | 0 => x₀
  | n + 1 => (1 - α) * ewma α x₀ x n + α * x n

/-- The weights are powers of `1 - α`. -/
theorem ewma_eq (α x₀ : K) (x : ℕ → K) : ∀ n, ewma α x₀ x n
    = (1 - α) ^ n * x₀ + ∑ j ∈ Finset.range n, α * (1 - α) ^ (n - (j + 1)) * x j
  | 0 => by rw [ewma, pow_zero, one_mul, Finset.sum_range_zero, add_zero]
  | n + 1 => by
      have hshift : ∑ j ∈ Finset.range n, α * (1 - α) ^ (n + 1 - (j + 1)) * x j
          = (1 - α) * ∑ j ∈ Finset.range n, α * (1 - α) ^ (n - (j + 1)) * x j := by
        rw [Finset.mul_sum]
        refine Finset.sum_congr rfl fun j hj => ?_
        have hexp : n + 1 - (j + 1) = n - (j + 1) + 1 := by
          have := Finset.mem_range.mp hj
          omega
        rw [hexp, pow_succ]
        ring
      rw [ewma, ewma_eq α x₀ x n, Finset.sum_range_succ, hshift, Nat.sub_self, pow_zero, pow_succ]
      ring

section Hull

variable [LinearOrder K] [IsStrictOrderedRing K] {α x₀ : K} {x : ℕ → K}

/-- One step stays in an interval that holds the mean and the sample. -/
theorem mix_mem {lo hi a b : K} (h₀ : 0 ≤ α) (h₁ : α ≤ 1) (ha : lo ≤ a ∧ a ≤ hi)
    (hb : lo ≤ b ∧ b ≤ hi) : lo ≤ (1 - α) * a + α * b ∧ (1 - α) * a + α * b ≤ hi := by
  have h₁' : 0 ≤ 1 - α := sub_nonneg.mpr h₁
  constructor
  · calc lo
      _ = (1 - α) * lo + α * lo := by ring
      _ ≤ (1 - α) * a + α * b :=
          add_le_add (mul_le_mul_of_nonneg_left ha.1 h₁') (mul_le_mul_of_nonneg_left hb.1 h₀)
  · calc (1 - α) * a + α * b
      _ ≤ (1 - α) * hi + α * hi :=
          add_le_add (mul_le_mul_of_nonneg_left ha.2 h₁') (mul_le_mul_of_nonneg_left hb.2 h₀)
      _ = hi := by ring

/-- The start and the first `n` samples. -/
def ewmaSamples (x₀ : K) (x : ℕ → K) (n : ℕ) : List K := x₀ :: (List.range n).map x

/-- The mean lies between two of the numbers it is taken of. -/
theorem ewma_mem_hull (h₀ : 0 ≤ α) (h₁ : α ≤ 1) : ∀ n,
    (∃ lo ∈ ewmaSamples x₀ x n, lo ≤ ewma α x₀ x n)
      ∧ ∃ hi ∈ ewmaSamples x₀ x n, ewma α x₀ x n ≤ hi
  | 0 => ⟨⟨x₀, List.mem_cons_self .., le_rfl⟩, x₀, List.mem_cons_self .., le_rfl⟩
  | n + 1 => by
      obtain ⟨⟨lo, hlo, hle⟩, hi, hhi, hge⟩ := ewma_mem_hull h₀ h₁ n
      have hold : ∀ v ∈ ewmaSamples x₀ x n, v ∈ ewmaSamples x₀ x (n + 1) := by
        intro v hv
        rw [ewmaSamples, List.range_succ, List.map_append, ← List.cons_append]
        exact List.mem_append_left _ hv
      have hnew : x n ∈ ewmaSamples x₀ x (n + 1) :=
        List.mem_cons_of_mem _ (List.mem_map.mpr ⟨n, List.mem_range.mpr (Nat.lt_succ_self n), rfl⟩)
      have hmean : min lo (x n) ≤ ewma α x₀ x n ∧ ewma α x₀ x n ≤ max hi (x n) :=
        ⟨(min_le_left _ _).trans hle, hge.trans (le_max_left _ _)⟩
      have hsample : min lo (x n) ≤ x n ∧ x n ≤ max hi (x n) := ⟨min_le_right _ _, le_max_right _ _⟩
      have hmix := mix_mem h₀ h₁ hmean hsample
      constructor
      · rcases min_choice lo (x n) with h | h
        · exact ⟨lo, hold lo hlo, h ▸ hmix.1⟩
        · exact ⟨x n, hnew, h ▸ hmix.1⟩
      · rcases max_choice hi (x n) with h | h
        · exact ⟨hi, hold hi hhi, h ▸ hmix.2⟩
        · exact ⟨x n, hnew, h ▸ hmix.2⟩

end Hull

open Filter

/-- The mean of constant samples. -/
theorem ewma_const (α x₀ c : ℝ) (n : ℕ) :
    ewma α x₀ (fun _ => c) n = (1 - α) ^ n * (x₀ - c) + c := by
  induction n with
  | zero => rw [ewma, pow_zero, one_mul, sub_add_cancel]
  | succ n ih =>
      rw [ewma, ih, pow_succ]
      ring

theorem tendsto_ewma_const {α : ℝ} (h₀ : 0 < α) (h₁ : α < 1) (x₀ c : ℝ) :
    Tendsto (ewma α x₀ fun _ => c) atTop (nhds c) := by
  have hpow := tendsto_pow_atTop_nhds_zero_of_lt_one (sub_nonneg.mpr h₁.le) (sub_lt_self 1 h₀)
  have hlim := (hpow.mul_const (x₀ - c)).add_const c
  rw [zero_mul, zero_add] at hlim
  exact hlim.congr fun n => (ewma_const α x₀ c n).symm

end Lib
