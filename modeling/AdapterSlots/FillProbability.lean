import AdapterSlots.Lib.GammaP
import AdapterSlots.Rates

/-!
# Fill probabilities

`erlang.py` and `cash.py` over the reals. With Poisson arrivals at rate
`lambda` the missing `m` tokens of a warp arrive within time `t` with
probability `P(m, lambda t)`, the function `gammaP` of the library. What
scipy documents about `gammainc`, `gammaincinv` and `erlang.cdf` are the
assumptions `IsGammainc`, `IsGammaincinv` and `IsErlangCdf`.

* `computeTmaxErlang` attains its target (Theorem 1): `tmaxErlang_spec`.
* A CASH score (Proposition 1) is bounded by the rate and monotone in
  everything it reads: `cash_spec`.
-/

namespace AdapterSlots

open Lib

/-! ## What scipy computes -/

/-- `gammainc` at a whole shape. -/
def IsGammainc (gammainc : ℝ → ℝ → ℝ) : Prop :=
  ∀ m : ℕ, 1 ≤ m → ∀ x, 0 ≤ x → gammainc m x = gammaP m x

/-- `gammaincinv` inverts `gammainc` at a whole shape. -/
def IsGammaincinv (gammaincinv : ℕ → ℝ → ℝ) : Prop :=
  ∀ m, 1 ≤ m → ∀ q, 0 < q → q < 1 → 0 < gammaincinv m q ∧ gammaP m (gammaincinv m q) = q

/-- `erlang.cdf(t, a, scale)`. -/
def IsErlangCdf (cdf : ℝ → ℕ → ℝ → ℝ) : Prop :=
  ∀ t, 0 < t → ∀ m, 1 ≤ m → ∀ lam, 0 < lam → cdf t m (1 / lam) = gammaP m (lam * t)

/-! ## Erlang deadlines -/

/-- `erlang_cdf`; `cdf` is `scipy.stats.erlang.cdf`. -/
def erlangCdf {K : Type} [Field K] [LinearOrder K] (cdf : K → ℕ → K → K) (t : K) (warpSize : ℕ)
    (lambdaK : K) : K :=
  if lambdaK ≤ 0 ∨ t ≤ 0 then 0 else cdf t warpSize (1 / lambdaK)

section Erlang

variable {env : Env ℝ} {cdf : ℝ → ℕ → ℝ → ℝ} {W : ℕ} {lam q slo : ℝ}

theorem tmaxErlang_of_rate (hlam : 0 < lam) :
    computeTmaxErlang env W lam q slo = min (env.gammaincinv W q / lam) (slo / 1000) := by
  rw [computeTmaxErlang, if_neg hlam.not_ge]

theorem tmaxErlang_of_no_rate (hlam : lam ≤ 0) :
    computeTmaxErlang env W lam q slo = slo / 1000 := by
  rw [computeTmaxErlang, if_pos hlam]

theorem tmaxErlang_le : computeTmaxErlang env W lam q slo ≤ slo / 1000 := by
  rcases le_or_gt lam 0 with hlam | hlam
  · exact (tmaxErlang_of_no_rate hlam).le
  · rw [tmaxErlang_of_rate hlam]
    exact min_le_right ..

variable (hinv : IsGammaincinv env.gammaincinv) (hcdf : IsErlangCdf cdf) (hW : 1 ≤ W)
  (h0 : 0 < q) (h1 : q < 1)

section

include hcdf hW

theorem erlangCdf_eq (hlam : 0 < lam) {t : ℝ} (ht : 0 < t) :
    erlangCdf cdf t W lam = gammaP W (lam * t) := by
  rw [erlangCdf, if_neg (not_or.mpr ⟨hlam.not_ge, ht.not_ge⟩), hcdf t ht W hW lam hlam]

theorem erlangCdf_lt_iff (hlam : 0 < lam) {t t' : ℝ} (ht : 0 < t) (ht' : 0 < t') :
    erlangCdf cdf t W lam < erlangCdf cdf t' W lam ↔ t < t' := by
  rw [erlangCdf_eq hcdf hW hlam ht, erlangCdf_eq hcdf hW hlam ht',
    (gammaP_strictMonoOn hW).lt_iff_lt (mul_pos hlam ht).le (mul_pos hlam ht').le]
  exact mul_lt_mul_iff_right₀ hlam

theorem erlangCdf_min (hlam : 0 < lam) {t t' : ℝ} (ht : 0 < t) (ht' : 0 < t') :
    erlangCdf cdf (min t t') W lam = min (erlangCdf cdf t W lam) (erlangCdf cdf t' W lam) := by
  have hmono : ∀ {u u' : ℝ}, 0 < u → 0 < u' → u ≤ u' →
      erlangCdf cdf u W lam ≤ erlangCdf cdf u' W lam := fun hu hu' h =>
    le_of_not_gt fun hlt => h.not_gt ((erlangCdf_lt_iff hcdf hW hlam hu' hu).mp hlt)
  rcases le_total t t' with h | h
  · rw [min_eq_left h, min_eq_left (hmono ht ht' h)]
  · rw [min_eq_right h, min_eq_right (hmono ht' ht h)]

end

include hinv hW h0 h1

theorem quantile_pos (hlam : 0 < lam) : 0 < env.gammaincinv W q / lam :=
  div_pos (hinv W hW q h0 h1).1 hlam

/-- The scaling law: the unit-rate quantile over `lambda` is the quantile at rate
`lambda`. -/
theorem erlangCdf_quantile (hcdf : IsErlangCdf cdf) (hlam : 0 < lam) :
    erlangCdf cdf (env.gammaincinv W q / lam) W lam = q := by
  rw [erlangCdf_eq hcdf hW hlam (quantile_pos hinv hW h0 h1 hlam), mul_div_cancel₀ _ hlam.ne']
  exact (hinv W hW q h0 h1).2

theorem tmaxErlang_pos (hslo : 0 < slo) : 0 < computeTmaxErlang env W lam q slo := by
  have hcap : 0 < slo / 1000 := div_pos hslo (by norm_num)
  rcases le_or_gt lam 0 with hlam | hlam
  · rwa [tmaxErlang_of_no_rate hlam]
  · rw [tmaxErlang_of_rate hlam]
    exact lt_min (quantile_pos hinv hW h0 h1 hlam) hcap

/-- The fill probability of the deadline is the target or, under the cap, what `T_SLO`
allows. -/
theorem erlangCdf_tmaxErlang (hcdf : IsErlangCdf cdf) (hslo : 0 < slo) (hlam : 0 < lam) :
    erlangCdf cdf (computeTmaxErlang env W lam q slo) W lam
      = min q (erlangCdf cdf (slo / 1000) W lam) := by
  rw [tmaxErlang_of_rate hlam, erlangCdf_min hcdf hW hlam (quantile_pos hinv hW h0 h1 hlam)
    (div_pos hslo (by norm_num)), erlangCdf_quantile hinv hW h0 h1 hcdf hlam]

/-- The target is out of reach exactly when the cap binds. -/
theorem erlangCdf_slo_lt_iff (hcdf : IsErlangCdf cdf) (hslo : 0 < slo) (hlam : 0 < lam) :
    erlangCdf cdf (slo / 1000) W lam < q ↔ slo / 1000 < env.gammaincinv W q / lam := by
  have hquantile := erlangCdf_quantile hinv hW h0 h1 hcdf hlam
  have hlt := erlangCdf_lt_iff hcdf hW hlam (div_pos hslo (by norm_num : (0 : ℝ) < 1000))
    (quantile_pos hinv hW h0 h1 hlam)
  rwa [hquantile] at hlt

theorem tmaxErlang_antitone : Antitone fun lam => computeTmaxErlang env W lam q slo := by
  intro lam lam' h
  rcases le_or_gt lam 0 with hlam | hlam
  · change _ ≤ computeTmaxErlang env W lam q slo
    rw [tmaxErlang_of_no_rate hlam]
    exact tmaxErlang_le
  · change computeTmaxErlang env W lam' q slo ≤ computeTmaxErlang env W lam q slo
    rw [tmaxErlang_of_rate hlam, tmaxErlang_of_rate (hlam.trans_le h)]
    exact min_le_min_right _ (div_le_div_of_nonneg_left (hinv W hW q h0 h1).1.le hlam h)

omit h1 in
theorem tmaxErlang_mono {q' : ℝ} (h : q ≤ q') (h1' : q' < 1) :
    computeTmaxErlang env W lam q slo ≤ computeTmaxErlang env W lam q' slo := by
  rcases le_or_gt lam 0 with hlam | hlam
  · rw [tmaxErlang_of_no_rate hlam, tmaxErlang_of_no_rate hlam]
  · obtain ⟨hpos, heq⟩ := hinv W hW q h0 (h.trans_lt h1')
    obtain ⟨hpos', heq'⟩ := hinv W hW q' (h0.trans_le h) h1'
    have hle : env.gammaincinv W q ≤ env.gammaincinv W q' := by
      rw [← (gammaP_strictMonoOn hW).le_iff_le hpos.le hpos'.le, heq, heq']
      exact h
    rw [tmaxErlang_of_rate hlam, tmaxErlang_of_rate hlam]
    exact min_le_min_right _ (div_le_div_of_nonneg_right hle hlam.le)

end Erlang

/-- Theorem 1 of the source: the deadline is positive and at most `T_SLO`, its fill
probability is the target unless the cap binds, and it falls with the rate and grows with
the target. -/
theorem tmaxErlang_spec (env : Env ℝ) (cdf : ℝ → ℕ → ℝ → ℝ)
    (hinv : IsGammaincinv env.gammaincinv) (hcdf : IsErlangCdf cdf) (W : ℕ) (hW : 1 ≤ W)
    (q : ℝ) (h0 : 0 < q) (h1 : q < 1) (slo : ℝ) (hslo : 0 < slo) :
    (∀ lam, 0 < lam →
        0 < computeTmaxErlang env W lam q slo
          ∧ computeTmaxErlang env W lam q slo ≤ slo / 1000
          ∧ erlangCdf cdf (computeTmaxErlang env W lam q slo) W lam
            = min q (erlangCdf cdf (slo / 1000) W lam)
          ∧ (erlangCdf cdf (computeTmaxErlang env W lam q slo) W lam = q
            ↔ env.gammaincinv W q / lam ≤ slo / 1000)
          ∧ (slo / 1000 < env.gammaincinv W q / lam →
            erlangCdf cdf (computeTmaxErlang env W lam q slo) W lam < q))
      ∧ (Antitone fun lam => computeTmaxErlang env W lam q slo)
      ∧ (∀ lam, lam ≤ 0 → computeTmaxErlang env W lam q slo = slo / 1000)
      ∧ ∀ lam q', q ≤ q' → q' < 1 →
        computeTmaxErlang env W lam q slo ≤ computeTmaxErlang env W lam q' slo := by
  refine ⟨fun lam hlam => ?_, tmaxErlang_antitone hinv hW h0 h1,
    fun lam hlam => tmaxErlang_of_no_rate hlam,
    fun lam q' h h1' => tmaxErlang_mono hinv hW h0 h h1'⟩
  have hmin := erlangCdf_tmaxErlang hinv hW h0 h1 hcdf hslo hlam
  have hbinds := erlangCdf_slo_lt_iff hinv hW h0 h1 hcdf hslo hlam
  refine ⟨tmaxErlang_pos hinv hW h0 h1 hslo, tmaxErlang_le, hmin, ?_, fun hcap => ?_⟩
  · rw [hmin, min_eq_left_iff, ← not_lt, hbinds, not_lt]
  · rw [hmin]
    exact min_lt_of_right_lt (hbinds.mpr hcap)

/-- Surroundings that keep scipy's promises. -/
noncomputable def gammaEnv : Env ℝ where
  gammainc a x := gammaP ⌊a⌋₊ x
  gammaincinv m q := if h : 0 < m ∧ 0 < q ∧ q < 1 then
    (exists_gammaP_eq h.1 h.2.1 h.2.2).choose else 0
  exp := Real.exp
  hash _ := 0
  setOrder l := l
  setOrder_perm _ _ := List.Perm.refl _

theorem isGammaincinv_gammaEnv : IsGammaincinv gammaEnv.gammaincinv := by
  intro m hm q h0 h1
  have h : 0 < m ∧ 0 < q ∧ q < 1 := ⟨hm, h0, h1⟩
  have hspec := (exists_gammaP_eq h.1 h.2.1 h.2.2).choose_spec
  simp only [gammaEnv, dif_pos h]
  exact hspec

theorem isGammainc_gammaEnv : IsGammainc gammaEnv.gammainc := by
  intro m _ x _
  simp only [gammaEnv, Nat.floor_natCast]

/-- Two tokens a second, a warp of four, half the warps full, 200 ms. -/
theorem tmaxErlang_spec_four :
    0 < computeTmaxErlang gammaEnv 4 2 (1 / 2) 200
      ∧ computeTmaxErlang gammaEnv 4 3 (1 / 2) 200
        ≤ computeTmaxErlang gammaEnv 4 2 (1 / 2) 200 := by
  have hcdf : IsErlangCdf fun t m scale => gammaP m (t / scale) := by
    intro t _ m _ lam _
    change gammaP m (t / (1 / lam)) = gammaP m (lam * t)
    rw [div_div_eq_mul_div, div_one, mul_comm]
  have hspec := tmaxErlang_spec gammaEnv _ isGammaincinv_gammaEnv hcdf 4 (by norm_num) (1 / 2)
    (by norm_num) (by norm_num) 200 (by norm_num)
  exact ⟨(hspec.1 2 (by norm_num)).1, hspec.2.1 (by norm_num : (2 : ℝ) ≤ 3)⟩

/-! ## CASH scores -/

/-- `p_fill`: the probability that the queue fills within an expected number `x` of
arrivals. -/
noncomputable def fillProb (W q : ℕ) (x : ℝ) : ℝ := if q < W then gammaP (W - q) x else 1

section FillProb

variable {W q : ℕ} {x : ℝ}

theorem fillProb_nonneg (hx : 0 ≤ x) : 0 ≤ fillProb W q x := by
  unfold fillProb
  split
  · exact gammaP_nonneg (by omega) hx
  · exact zero_le_one

theorem fillProb_le_one (hx : 0 ≤ x) : fillProb W q x ≤ 1 := by
  unfold fillProb
  split
  · exact (gammaP_lt_one (by omega) hx).le
  · exact le_rfl

/-- A fuller queue needs fewer arrivals, and a full one none. -/
theorem fillProb_mono {q' : ℕ} {x' : ℝ} (hx : 0 ≤ x) (hq : q ≤ q') (h : x ≤ x') :
    fillProb W q x ≤ fillProb W q' x' := by
  rcases Nat.lt_or_ge q' W with hq' | hq'
  · rw [fillProb, fillProb, if_pos hq', if_pos (by omega)]
    calc gammaP (W - q) x ≤ gammaP (W - q') x := gammaP_antitone hx (by omega)
      _ ≤ gammaP (W - q') x' := gammaP_mono (by omega) hx h
  · rw [fillProb, fillProb, if_neg (Nat.not_lt.mpr hq')]
    exact fillProb_le_one hx

end FillProb

namespace CASHDispatcher

section

variable {K : Type} [Field K] [LinearOrder K]

/-- `I_k` of one queue. -/
def score (env : Env K) (W q : ℕ) (age deadline rate : K) : K :=
  let missing := max ((W : K) - q) 0
  let pFill := if 0 < missing
    then env.gammainc (max missing 1) (max rate 0 * max (deadline - age) 0) else 1
  max rate 0 * min ((q : K) / W) 1 * pFill

theorem get?_computeIndices (env : Env K) (W : ℕ) (queueLens : Dict String ℕ)
    (ages lambdaEst deadlines : Dict String K) (k : String) :
    (computeIndices env W queueLens ages lambdaEst deadlines).get? k
      = (queueLens.get? k).map fun q =>
        score env W q (ages.getD k 0) (deadlines.getD k 0) (lambdaEst.getD k 0) :=
  Dict.get?_mapValues ..

end

section

variable {env : Env ℝ} {W q : ℕ} {age deadline rate : ℝ}

theorem score_eq (hg : IsGammainc env.gammainc) :
    score env W q age deadline rate
      = max rate 0 * min ((q : ℝ) / W) 1
        * fillProb W q (max rate 0 * max (deadline - age) 0) := by
  have hx : 0 ≤ max rate 0 * max (deadline - age) 0 :=
    mul_nonneg (le_max_right ..) (le_max_right ..)
  rw [score, fillProb]
  congr 1
  by_cases hq : q < W
  · -- the number of missing tokens is whole and positive
    have hone : 1 ≤ W - q := by omega
    have hcast : (W : ℝ) - q = ((W - q : ℕ) : ℝ) := (Nat.cast_sub hq.le).symm
    have hmissing : max ((W : ℝ) - q) 0 = ((W - q : ℕ) : ℝ) := by
      rw [hcast]
      exact max_eq_left (Nat.cast_nonneg _)
    have hpos : (0 : ℝ) < ((W - q : ℕ) : ℝ) := Nat.cast_pos.mpr hone
    have hmax : max ((W - q : ℕ) : ℝ) 1 = ((W - q : ℕ) : ℝ) :=
      max_eq_left (Nat.one_le_cast.mpr hone)
    rw [if_pos hq, hmissing, if_pos hpos, hmax, hg _ hone _ hx]
  · have hle : (W : ℝ) - q ≤ 0 := sub_nonpos.mpr (Nat.cast_le.mpr (Nat.not_lt.mp hq))
    rw [if_neg hq, max_eq_right hle, if_neg (lt_irrefl 0)]

theorem fillFraction_nonneg : 0 ≤ min ((q : ℝ) / W) 1 :=
  le_min (div_nonneg (Nat.cast_nonneg _) (Nat.cast_nonneg _)) zero_le_one

theorem score_bounds (hg : IsGammainc env.gammainc) :
    0 ≤ score env W q age deadline rate ∧ score env W q age deadline rate ≤ max rate 0 := by
  have hrate : 0 ≤ max rate 0 := le_max_right ..
  have hx : 0 ≤ max rate 0 * max (deadline - age) 0 := mul_nonneg hrate (le_max_right ..)
  have hweight : max rate 0 * min ((q : ℝ) / W) 1 ≤ max rate 0 :=
    mul_le_of_le_one_right hrate (min_le_right ..)
  rw [score_eq hg]
  exact ⟨mul_nonneg (mul_nonneg hrate fillFraction_nonneg) (fillProb_nonneg hx),
    (mul_le_of_le_one_right (mul_nonneg hrate fillFraction_nonneg) (fillProb_le_one hx)).trans
      hweight⟩

/-- Every factor of the score grows with the queue, the rate and the time left. -/
theorem score_mono (hg : IsGammainc env.gammainc) {q' : ℕ} {age' deadline' rate' : ℝ}
    (hq : q ≤ q') (hage : age' ≤ age) (hdeadline : deadline ≤ deadline') (hrate : rate ≤ rate') :
    score env W q age deadline rate ≤ score env W q' age' deadline' rate' := by
  have hlam : max rate 0 ≤ max rate' 0 := max_le_max_right 0 hrate
  have hleft : max (deadline - age) 0 ≤ max (deadline' - age') 0 :=
    max_le_max_right 0 (by linarith)
  have hfraction : min ((q : ℝ) / W) 1 ≤ min ((q' : ℝ) / W) 1 :=
    min_le_min_right 1 (div_le_div_of_nonneg_right (Nat.cast_le.mpr hq) (Nat.cast_nonneg _))
  have hlam0 : 0 ≤ max rate 0 := le_max_right ..
  have hlam0' : 0 ≤ max rate' 0 := le_max_right ..
  have hx : 0 ≤ max rate 0 * max (deadline - age) 0 := mul_nonneg hlam0 (le_max_right ..)
  have hfill := fillProb_mono (W := W) hx hq
    (mul_le_mul hlam hleft (le_max_right ..) hlam0')
  rw [score_eq hg, score_eq hg]
  exact mul_le_mul (mul_le_mul hlam hfraction fillFraction_nonneg hlam0') hfill
    (fillProb_nonneg hx) (mul_nonneg hlam0' fillFraction_nonneg)

end

theorem pairwise_rank {K : Type} [LinearOrder K] [Field K] (indices : Dict String K) :
    (rank indices).Pairwise fun a b => indices.getD b 0 ≤ indices.getD a 0 := by
  have htotal : Std.Total fun a b => indices.getD b 0 ≤ indices.getD a 0 :=
    ⟨fun a b => le_total (indices.getD b 0) (indices.getD a 0)⟩
  have htrans : IsTrans String fun a b => indices.getD b 0 ≤ indices.getD a 0 :=
    ⟨fun _ _ _ hab hbc => hbc.trans hab⟩
  exact List.pairwise_insertionSort _ _

/-- Proposition 1 of the source: every queue has a score; the scores lie between zero and the
rate and grow with the queue, the rate and the deadline, not with the age; `rank` lists
every adapter once, in the order of the scores. -/
theorem cash_spec (env : Env ℝ) (hg : IsGammainc env.gammainc) (W : ℕ) :
    (∀ queueLens ages lambdaEst deadlines k,
        k ∈ computeIndices env W queueLens ages lambdaEst deadlines ↔ k ∈ queueLens)
      ∧ (∀ queueLens ages lambdaEst deadlines k v,
        (computeIndices env W queueLens ages lambdaEst deadlines).get? k = some v →
        0 ≤ v ∧ v ≤ max (lambdaEst.getD k 0) 0)
      ∧ (∀ queueLens ages lambdaEst deadlines queueLens' ages' lambdaEst' deadlines' k q q' v v',
        queueLens.get? k = some q → queueLens'.get? k = some q' →
        (computeIndices env W queueLens ages lambdaEst deadlines).get? k = some v →
        (computeIndices env W queueLens' ages' lambdaEst' deadlines').get? k = some v' →
        q ≤ q' → ages'.getD k 0 ≤ ages.getD k 0 → lambdaEst.getD k 0 ≤ lambdaEst'.getD k 0 →
        deadlines.getD k 0 ≤ deadlines'.getD k 0 → v ≤ v')
      ∧ ∀ indices : Dict String ℝ, (rank indices).Nodup
        ∧ (∀ k, k ∈ rank indices ↔ k ∈ indices)
        ∧ (rank indices).Pairwise fun a b => indices.getD b 0 ≤ indices.getD a 0 := by
  refine ⟨fun queueLens ages lambdaEst deadlines k => ?_,
    fun queueLens ages lambdaEst deadlines k v hv => ?_, ?_, fun indices => ?_⟩
  · rw [Dict.mem_def, Dict.mem_def, computeIndices, Dict.keys_mapValues]
  · rw [get?_computeIndices] at hv
    obtain ⟨q, -, rfl⟩ := Option.map_eq_some_iff.mp hv
    exact score_bounds hg
  · intro queueLens ages lambdaEst deadlines queueLens' ages' lambdaEst' deadlines' k q q' v v'
      hk hk' hv hv' hq hage hrate hdeadline
    rw [get?_computeIndices, hk] at hv
    rw [get?_computeIndices, hk'] at hv'
    obtain rfl := Option.some.inj hv
    obtain rfl := Option.some.inj hv'
    exact score_mono hg hq hage hdeadline hrate
  · exact ⟨nodup_rank indices, fun k => (rank_perm indices).mem_iff, pairwise_rank indices⟩

/-- A queue of two and a queue of three for a warp of four. -/
theorem cash_spec_four :
    0 ≤ score gammaEnv 4 2 0 (1 / 5) 3
      ∧ score gammaEnv 4 2 0 (1 / 5) 3 ≤ score gammaEnv 4 3 0 (1 / 5) 3 := by
  have hspec := cash_spec gammaEnv isGammainc_gammaEnv 4
  have hlen : ∀ n : ℕ, (Dict.empty.insert "a" n).get? "a" = some n := fun n => by
    rw [Dict.get?_insert, if_pos rfl]
  have hreal : ∀ x : ℝ, (Dict.empty.insert "a" x).getD "a" 0 = x := fun x => by
    rw [Dict.getD, Dict.get?_insert, if_pos rfl, Option.getD_some]
  have hindex : ∀ n : ℕ, (computeIndices gammaEnv 4 (Dict.empty.insert "a" n)
      (Dict.empty.insert "a" 0) (Dict.empty.insert "a" 3) (Dict.empty.insert "a" (1 / 5))).get? "a"
        = some (score gammaEnv 4 n 0 (1 / 5) 3) := fun n => by
    rw [get?_computeIndices, hlen, Option.map_some, hreal, hreal, hreal]
  exact ⟨(hspec.2.1 _ _ _ _ _ _ (hindex 2)).1,
    hspec.2.2.1 _ _ _ _ _ _ _ _ _ _ _ _ _ (hlen 2) (hlen 3) (hindex 2) (hindex 3) (by decide)
      le_rfl le_rfl le_rfl⟩

end CASHDispatcher

end AdapterSlots
