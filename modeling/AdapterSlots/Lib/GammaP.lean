import Mathlib.Analysis.Calculus.Deriv.MeanValue
import Mathlib.Analysis.Calculus.Deriv.Pow
import Mathlib.Analysis.SpecialFunctions.ExpDeriv
import Mathlib.Topology.Algebra.Module.ModuleTopology
import Mathlib.Topology.Order.IntermediateValue

/-!
# The Erlang distribution function

`gammaP m x` is the regularised lower incomplete gamma function `P(m, x)` of
a whole shape `m`: the probability that a stream of rate one brings `m`
arrivals within time `x`. For `m ≥ 1` it increases strictly from `0` at `0`
towards `1` and takes every value between (`exists_gammaP_eq`), and it
decreases in the shape: more arrivals take longer (`gammaP_antitone`).
-/

namespace Lib

open Filter Topology

/-- The probability of fewer than `m` arrivals, without its factor `exp (-x)`. -/
noncomputable def expSum (m : ℕ) (x : ℝ) : ℝ := ∑ i ∈ Finset.range m, x ^ i / (i.factorial : ℝ)

noncomputable def gammaP (m : ℕ) (x : ℝ) : ℝ := 1 - Real.exp (-x) * expSum m x

section Sum

variable {m : ℕ} {x : ℝ}

theorem expSum_succ (m : ℕ) (x : ℝ) : expSum (m + 1) x = expSum m x + x ^ m / (m.factorial : ℝ) :=
  Finset.sum_range_succ ..

theorem expSum_at_zero : ∀ m, expSum (m + 1) 0 = 1
  | 0 => by simp [expSum]
  | m + 1 => by
      rw [expSum_succ, expSum_at_zero m]
      simp

theorem expSum_pos (hm : 0 < m) (hx : 0 ≤ x) : 0 < expSum m x := by
  obtain ⟨m, rfl⟩ := Nat.exists_eq_succ_of_ne_zero hm.ne'
  induction m with
  | zero => simp [expSum]
  | succ m ih =>
      rw [expSum_succ]
      have hterm : 0 ≤ x ^ (m + 1) / ((m + 1).factorial : ℝ) := by positivity
      exact add_pos_of_pos_of_nonneg (ih (Nat.succ_pos m)) hterm

theorem expSum_mono {m' : ℕ} (hx : 0 ≤ x) (h : m ≤ m') : expSum m x ≤ expSum m' x :=
  Finset.sum_le_sum_of_subset_of_nonneg (Finset.range_mono h) fun _ _ _ => by positivity

/-- The derivative of a term is the term before it. -/
theorem hasDerivAt_expSum (x : ℝ) : ∀ m, HasDerivAt (expSum (m + 1)) (expSum m x) x
  | 0 => by
      have hone : expSum 1 = fun _ => (1 : ℝ) := funext fun y => by simp [expSum]
      rw [hone]
      simpa [expSum] using hasDerivAt_const x (1 : ℝ)
  | m + 1 => by
      have hsum : expSum (m + 2)
          = fun y => expSum (m + 1) y + y ^ (m + 1) / ((m + 1).factorial : ℝ) :=
        funext fun y => expSum_succ (m + 1) y
      have hterm : HasDerivAt (fun y : ℝ => y ^ (m + 1) / ((m + 1).factorial : ℝ))
          (x ^ m / (m.factorial : ℝ)) x := by
        refine ((hasDerivAt_pow (m + 1) x).div_const _).congr_deriv ?_
        rw [Nat.factorial_succ, Nat.add_sub_cancel]
        push_cast
        exact mul_div_mul_left _ _ (by positivity)
      rw [hsum, expSum_succ]
      exact (hasDerivAt_expSum x m).add hterm

end Sum

section GammaP

variable {m : ℕ} {x : ℝ}

theorem gammaP_at_zero (hm : 0 < m) : gammaP m 0 = 0 := by
  obtain ⟨m, rfl⟩ := Nat.exists_eq_succ_of_ne_zero hm.ne'
  rw [gammaP, expSum_at_zero, neg_zero, Real.exp_zero, mul_one, sub_self]

/-- The density of the distribution. -/
theorem hasDerivAt_gammaP (m : ℕ) (x : ℝ) :
    HasDerivAt (gammaP (m + 1)) (Real.exp (-x) * (x ^ m / (m.factorial : ℝ))) x := by
  have hexp : HasDerivAt (fun y : ℝ => Real.exp (-y)) (-Real.exp (-x)) x :=
    (hasDerivAt_neg x).exp.congr_deriv (mul_neg_one _)
  refine ((hexp.mul (hasDerivAt_expSum x m)).const_sub 1).congr_deriv ?_
  rw [expSum_succ]
  ring

theorem continuous_gammaP (hm : 0 < m) : Continuous (gammaP m) := by
  obtain ⟨m, rfl⟩ := Nat.exists_eq_succ_of_ne_zero hm.ne'
  exact continuous_iff_continuousAt.mpr fun x => (hasDerivAt_gammaP m x).continuousAt

theorem gammaP_strictMonoOn (hm : 0 < m) : StrictMonoOn (gammaP m) (Set.Ici 0) := by
  refine strictMonoOn_of_deriv_pos (convex_Ici 0) (continuous_gammaP hm).continuousOn ?_
  obtain ⟨m, rfl⟩ := Nat.exists_eq_succ_of_ne_zero hm.ne'
  intro x hx
  rw [interior_Ici, Set.mem_Ioi] at hx
  rw [(hasDerivAt_gammaP m x).deriv]
  positivity

theorem gammaP_mono (hm : 0 < m) {x' : ℝ} (hx : 0 ≤ x) (h : x ≤ x') : gammaP m x ≤ gammaP m x' :=
  (gammaP_strictMonoOn hm).monotoneOn hx (hx.trans h) h

theorem gammaP_nonneg (hm : 0 < m) (hx : 0 ≤ x) : 0 ≤ gammaP m x :=
  (gammaP_at_zero hm).symm.le.trans (gammaP_mono hm le_rfl hx)

theorem gammaP_lt_one (hm : 0 < m) (hx : 0 ≤ x) : gammaP m x < 1 :=
  sub_lt_self 1 (mul_pos (Real.exp_pos _) (expSum_pos hm hx))

/-- More arrivals take longer. -/
theorem gammaP_antitone {m' : ℕ} (hx : 0 ≤ x) (h : m ≤ m') : gammaP m' x ≤ gammaP m x :=
  sub_le_sub_left (mul_le_mul_of_nonneg_left (expSum_mono hx h) (Real.exp_pos _).le) 1

theorem tendsto_gammaP (m : ℕ) : Tendsto (gammaP m) atTop (𝓝 1) := by
  have hterm : ∀ i ∈ Finset.range m,
      Tendsto (fun x : ℝ => x ^ i * Real.exp (-x) / (i.factorial : ℝ)) atTop (𝓝 0) := fun i _ => by
    simpa using (Real.tendsto_pow_mul_exp_neg_atTop_nhds_zero i).div_const (i.factorial : ℝ)
  have hsum := (tendsto_finsetSum (Finset.range m) hterm).const_sub 1
  rw [Finset.sum_const_zero, sub_zero] at hsum
  refine hsum.congr fun x => ?_
  rw [gammaP, expSum, Finset.mul_sum]
  exact congrArg _ (Finset.sum_congr rfl fun i _ => by ring)

/-- Every probability below one is reached, at a positive time. -/
theorem exists_gammaP_eq (hm : 0 < m) {q : ℝ} (h0 : 0 < q) (h1 : q < 1) :
    ∃ x, 0 < x ∧ gammaP m x = q := by
  obtain ⟨b, hb, hlt⟩ := ((eventually_ge_atTop (0 : ℝ)).and
    ((tendsto_gammaP m).eventually_const_lt h1)).exists
  have hmem : q ∈ Set.Icc (gammaP m 0) (gammaP m b) :=
    ⟨(gammaP_at_zero hm).le.trans h0.le, hlt.le⟩
  obtain ⟨x, ⟨hx, -⟩, heq⟩ := intermediate_value_Icc hb (continuous_gammaP hm).continuousOn hmem
  refine ⟨x, lt_of_le_of_ne hx fun hzero => ?_, heq⟩
  rw [← hzero, gammaP_at_zero hm] at heq
  exact h0.ne heq

end GammaP

end Lib
