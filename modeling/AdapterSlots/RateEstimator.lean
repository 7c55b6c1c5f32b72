import AdapterSlots.Lib.Ewma
import AdapterSlots.Rates

/-!
# The rate estimator over a run

Calls of `update` and `set_rates` for any adapters in any order. What the
estimator knows of one adapter is changed by that adapter's own calls only
(`known_run`), so its estimate is the one of a run of its own calls alone.

From the second arrival on the estimate is a moving average over the
inverse inter-arrival times. It starts from the default rate, or from the
rate that was set before the first arrival.
-/

namespace AdapterSlots

open Lib

variable {K : Type} [Field K] [LinearOrder K] {A : Type} [DecidableEq A]

/-- A call of the estimator. -/
inductive RateCall (K A : Type) where
  | update (k : A) (t : K)
  | setRates (rates : Dict A K)

/-- A call as one adapter sees it. -/
inductive OwnCall (K : Type) where
  | arrival (t : K)
  | preset (rate : K)
deriving DecidableEq

/-- The part of a call that concerns `k`. -/
def RateCall.own (k : A) : RateCall K A → Option (OwnCall K)
  | .update k' t => if k' = k then some (.arrival t) else none
  | .setRates rates => (rates.get? k).map .preset

omit [Field K] [LinearOrder K] in
/-- A preset comes from a `set_rates` that names the adapter. -/
theorem RateCall.own_eq_preset {c : RateCall K A} {k : A} {rate : K}
    (h : c.own k = some (.preset rate)) :
    ∃ rates, c = .setRates rates ∧ rates.get? k = some rate := by
  cases c with
  | update k' t =>
      rw [RateCall.own] at h
      split at h <;> cases h
  | setRates rates =>
      obtain ⟨rate', hget, heq⟩ := Option.map_eq_some_iff.mp h
      obtain rfl := OwnCall.preset.inj heq
      exact ⟨rates, rfl, hget⟩

namespace ArrivalRateEstimator

/-- The constructor with its default rate. -/
def fresh (alpha : K) (hpos : 0 < alpha) (hlt : alpha < 1) (defaultRate : K) :
    ArrivalRateEstimator K A :=
  { init alpha hpos hlt with defaultRate := defaultRate }

def apply (e : ArrivalRateEstimator K A) : RateCall K A → ArrivalRateEstimator K A
  | .update k t => e.update k t
  | .setRates rates => e.setRates rates

def run (e : ArrivalRateEstimator K A) (calls : List (RateCall K A)) : ArrivalRateEstimator K A :=
  calls.foldl apply e

/-! ## One adapter -/

/-- What the three dictionaries hold for one adapter. -/
structure Known (K : Type) where
  last : Option K
  rate : Option K
  count : ℕ

def known (e : ArrivalRateEstimator K A) (k : A) : Known K :=
  ⟨e.lastArrival.get? k, e.rateEstimate.get? k, e.arrivalCount.getD k 0⟩

/-- `max(t_now - last, 1e-9)`. -/
def iat (last t : K) : K := max (t - last) (1 / 10 ^ 9)

/-- What an own call does. -/
def Known.after (alpha defaultRate : K) (s : Known K) : OwnCall K → Known K
  | .arrival t =>
      { last := some t
        rate := some (match s.last with
          | some last => (1 - alpha) * s.rate.getD defaultRate + alpha / iat last t
          | none => s.rate.getD defaultRate)
        count := s.count + 1 }
  | .preset rate => { s with rate := some rate }

section Known

variable (e : ArrivalRateEstimator K A) (k : A)

theorem params_apply (c : RateCall K A) :
    (e.apply c).alpha = e.alpha ∧ (e.apply c).defaultRate = e.defaultRate := by
  cases c with
  | update k t => exact ⟨rfl, rfl⟩
  | setRates rates => exact ⟨rfl, rfl⟩

/-- Calls for other adapters change nothing, own ones what `after` says. -/
theorem known_apply (c : RateCall K A) : (e.apply c).known k
    = match c.own k with
      | none => e.known k
      | some o => (e.known k).after e.alpha e.defaultRate o := by
  cases c with
  | update k' t =>
      have hknown : (e.apply (.update k' t)).known k
          = ⟨(e.lastArrival.insert k' t).get? k,
            (e.rateEstimate.insert k' (e.nextRate k' t)).get? k,
            ((e.arrivalCount.insert k' (e.arrivalCount.getD k' 0 + 1)).get? k).getD 0⟩ := rfl
      rw [hknown, Dict.get?_insert, Dict.get?_insert, Dict.get?_insert, RateCall.own]
      by_cases hk : k' = k
      · subst hk
        simp only [if_true]
        rfl
      · simp only [if_neg hk]
        rfl
  | setRates rates =>
      have hrate : (e.rateEstimate.insertAll rates.entries).get? k
          = (rates.get? k).or (e.rateEstimate.get? k) :=
        Dict.get?_insertAll_of_nodup k _ rates.nodup
      show Known.mk _ ((e.rateEstimate.insertAll rates.entries).get? k) _ = _
      rw [hrate, RateCall.own]
      cases rates.get? k with
      | none => rfl
      | some v => rfl

theorem params_run (calls : List (RateCall K A)) :
    (e.run calls).alpha = e.alpha ∧ (e.run calls).defaultRate = e.defaultRate := by
  unfold run
  induction calls generalizing e with
  | nil => exact ⟨rfl, rfl⟩
  | cons c calls ih =>
      obtain ⟨halpha, hdefault⟩ := ih (e.apply c)
      obtain ⟨halpha', hdefault'⟩ := params_apply e c
      exact ⟨halpha.trans halpha', hdefault.trans hdefault'⟩

/-- A run changes what is known of an adapter as that adapter's own calls do. -/
theorem known_run (calls : List (RateCall K A)) : (e.run calls).known k
    = (calls.filterMap (RateCall.own k)).foldl (Known.after e.alpha e.defaultRate)
        (e.known k) := by
  unfold run
  induction calls generalizing e with
  | nil => rfl
  | cons c calls ih =>
      obtain ⟨halpha, hdefault⟩ := params_apply e c
      rw [List.foldl_cons, ih, known_apply, halpha, hdefault]
      cases hown : c.own k with
      | none => rw [List.filterMap_cons_none hown]
      | some o => rw [List.filterMap_cons_some hown, List.foldl_cons]

theorem getRate_eq_known : e.getRate k = (e.known k).rate.getD e.defaultRate := rfl

end Known

/-! ## The moving average -/

section Average

variable {alpha defaultRate : K}

/-- Before the first arrival only the last preset rate counts. -/
theorem foldl_preset (s : Known K) (rates : List K) :
    (rates.map OwnCall.preset).foldl (Known.after alpha defaultRate) s
      = { s with rate := rates.getLast?.or s.rate } := by
  induction rates generalizing s with
  | nil => rfl
  | cons rate rates ih =>
      rw [List.map_cons, List.foldl_cons, ih, List.getLast?_cons]
      cases rates.getLast? with
      | none => rfl
      | some v => rfl

/-- The inverse inter-arrival times are the samples. -/
def sample (t : ℕ → K) (j : ℕ) : K := 1 / iat (t j) (t (j + 1))

/-- Arrivals of an adapter that was not seen before. -/
theorem foldl_arrival (s : Known K) (hlast : s.last = none) (t : ℕ → K) (m : ℕ) :
    ((List.range (m + 1)).map fun j => OwnCall.arrival (t j)).foldl
        (Known.after alpha defaultRate) s
      = ⟨some (t m), some (ewma alpha (s.rate.getD defaultRate) (sample t) m),
          s.count + (m + 1)⟩ := by
  induction m with
  | zero =>
      show s.after alpha defaultRate (.arrival (t 0)) = _
      rw [Known.after, hlast]
      rfl
  | succ m ih =>
      rw [List.range_succ, List.map_append, List.foldl_append, ih]
      show Known.mk _ (some _) _ = _
      rw [ewma, sample, mul_one_div]
      rfl

/-- Presets, then arrivals. -/
theorem foldl_presets_arrivals (rates : List K) (t : ℕ → K) (m : ℕ) :
    (rates.map OwnCall.preset ++ (List.range (m + 1)).map fun j => OwnCall.arrival (t j)).foldl
        (Known.after alpha defaultRate) ⟨none, none, 0⟩
      = ⟨some (t m), some (ewma alpha (rates.getLast?.getD defaultRate) (sample t) m), m + 1⟩ := by
  rw [List.foldl_append, foldl_preset, foldl_arrival _ rfl, Option.or_none, Nat.zero_add]

variable [IsStrictOrderedRing K]

theorem iat_pos (last t : K) : 0 < iat last t :=
  lt_max_of_lt_right (div_pos one_pos (pow_pos (Nat.ofNat_pos) 9))

/-- An own call with a positive rate keeps the estimate positive. -/
theorem Known.after_pos (hpos : 0 < alpha) (hlt : alpha < 1) {s : Known K}
    (hs : 0 < s.rate.getD defaultRate) {c : OwnCall K} (hc : ∀ rate, c = .preset rate → 0 < rate) :
    0 < (s.after alpha defaultRate c).rate.getD defaultRate := by
  cases c with
  | preset rate => exact hc rate rfl
  | arrival t =>
      cases hlast : s.last with
      | none =>
          simp only [Known.after, hlast]
          exact hs
      | some last =>
          simp only [Known.after, hlast]
          exact add_pos (mul_pos (sub_pos.mpr hlt) hs) (div_pos hpos (iat_pos last t))

theorem foldl_after_pos (hpos : 0 < alpha) (hlt : alpha < 1) {calls : List (OwnCall K)}
    (hcalls : ∀ rate, .preset rate ∈ calls → 0 < rate) {s : Known K}
    (hs : 0 < s.rate.getD defaultRate) :
    0 < (calls.foldl (Known.after alpha defaultRate) s).rate.getD defaultRate := by
  induction calls generalizing s with
  | nil => exact hs
  | cons c calls ih =>
      refine ih (fun rate h => hcalls rate (List.mem_cons_of_mem _ h)) ?_
      exact Known.after_pos hpos hlt hs fun rate h => hcalls rate (h ▸ List.mem_cons_self ..)

end Average

/-! ## Runs -/

variable [IsStrictOrderedRing K]

omit [IsStrictOrderedRing K] in
/-- What the own calls of an adapter make of a new estimator. -/
theorem known_fresh_run {alpha : K} (hpos : 0 < alpha) (hlt : alpha < 1) (defaultRate : K)
    (calls : List (RateCall K A)) (k : A) :
    ((fresh alpha hpos hlt defaultRate).run calls).known k
      = (calls.filterMap (RateCall.own k)).foldl (Known.after alpha defaultRate) ⟨none, none, 0⟩ :=
  known_run _ k calls

omit [IsStrictOrderedRing K] in
theorem getRate_fresh_run {alpha : K} (hpos : 0 < alpha) (hlt : alpha < 1) (defaultRate : K)
    (calls : List (RateCall K A)) (k : A) :
    ((fresh alpha hpos hlt defaultRate).run calls).getRate k
      = ((calls.filterMap (RateCall.own k)).foldl (Known.after alpha defaultRate)
          ⟨none, none, 0⟩).rate.getD defaultRate := by
  rw [getRate_eq_known, known_fresh_run, (params_run _ calls).2]
  rfl

section Fresh

variable {alpha : K} (hpos : 0 < alpha) (hlt : alpha < 1) (defaultRate : K)
  {calls : List (RateCall K A)} {k : A}

omit [IsStrictOrderedRing K] in
/-- Calls for other adapters can be left out. -/
theorem getRate_run_own : ((fresh alpha hpos hlt defaultRate).run calls).getRate k
    = ((fresh alpha hpos hlt defaultRate).run
        (calls.filter fun c => (c.own k).isSome)).getRate k := by
  have hkeep : (calls.filter fun c => (c.own k).isSome).filterMap (RateCall.own k)
      = calls.filterMap (RateCall.own k) := by
    rw [List.filterMap_filter]
    refine List.filterMap_congr fun c _ => ?_
    cases c.own k <;> rfl
  rw [getRate_fresh_run, getRate_fresh_run, hkeep]

variable {defaultRate} in
theorem getRate_run_pos (hdefault : 0 < defaultRate)
    (hpresets : ∀ rate, .preset rate ∈ calls.filterMap (RateCall.own k) → 0 < rate) :
    0 < ((fresh alpha hpos hlt defaultRate).run calls).getRate k := by
  rw [getRate_fresh_run]
  exact foldl_after_pos hpos hlt hpresets hdefault

variable {presets : List K} {t : ℕ → K} {m : ℕ} (hcalls : calls.filterMap (RateCall.own k)
  = presets.map .preset ++ ((List.range (m + 1)).map fun j => .arrival (t j)))

include hcalls

omit [Field K] [LinearOrder K] [IsStrictOrderedRing K] in
theorem mem_presets_of_own {rate : K}
    (h : .preset rate ∈ calls.filterMap (RateCall.own k)) : rate ∈ presets := by
  rw [hcalls] at h
  rcases List.mem_append.mp h with hmem | hmem
  · obtain ⟨rate', hrate', heq⟩ := List.mem_map.mp hmem
    exact OwnCall.preset.inj heq ▸ hrate'
  · obtain ⟨j, -, heq⟩ := List.mem_map.mp hmem
    cases heq

omit [IsStrictOrderedRing K] in
/-- The estimate after presets and `m + 1` arrivals, and how many were counted. -/
theorem known_run_arrivals : ((fresh alpha hpos hlt defaultRate).run calls).known k
    = ⟨some (t m), some (ewma alpha (presets.getLast?.getD defaultRate) (sample t) m), m + 1⟩ := by
  rw [known_fresh_run, hcalls, foldl_presets_arrivals]

omit [IsStrictOrderedRing K] in
theorem getRate_run_arrivals : ((fresh alpha hpos hlt defaultRate).run calls).getRate k
    = ewma alpha (presets.getLast?.getD defaultRate) (sample t) m := by
  rw [getRate_eq_known, known_run_arrivals hpos hlt defaultRate hcalls]
  rfl

end Fresh

/-- **The estimator** is local and stays in the hull of its samples. The estimate of an
adapter is the one of its own calls. After presets and `m + 1` arrivals at
the times `t` it is the moving average of the inverse inter-arrival times,
and it is never zero. -/
theorem estimates_local_and_in_hull {alpha : K} (hpos : 0 < alpha) (hlt : alpha < 1)
    {defaultRate : K} (hdefault : 0 < defaultRate) (calls : List (RateCall K A)) (k : A) :
    ((fresh alpha hpos hlt defaultRate).run calls).getRate k
        = ((fresh alpha hpos hlt defaultRate).run
            (calls.filter fun c => (c.own k).isSome)).getRate k
      ∧ ((∀ rates, .setRates rates ∈ calls → ∀ rate ∈ rates.values, 0 < rate) →
        0 < ((fresh alpha hpos hlt defaultRate).run calls).getRate k)
      ∧ ∀ (presets : List K) (t : ℕ → K) (m : ℕ), (∀ rate ∈ presets, 0 < rate) →
        calls.filterMap (RateCall.own k) = presets.map .preset
          ++ ((List.range (m + 1)).map fun j => .arrival (t j)) →
        let e := (fresh alpha hpos hlt defaultRate).run calls
        let lambda₀ := presets.getLast?.getD defaultRate
        e.getAllRates.get? k = some (e.getRate k) ∧ e.arrivalCount.getD k 0 = m + 1
          ∧ e.getRate k = (1 - alpha) ^ m * lambda₀
            + ∑ j ∈ Finset.range m,
              alpha * (1 - alpha) ^ (m - (j + 1)) * (1 / iat (t j) (t (j + 1)))
          ∧ (∃ lo ∈ lambda₀ :: (List.range m).map (sample t), lo ≤ e.getRate k)
          ∧ (∃ hi ∈ lambda₀ :: (List.range m).map (sample t), e.getRate k ≤ hi)
          ∧ 0 < e.getRate k := by
  refine ⟨getRate_run_own hpos hlt defaultRate, fun hset => ?_,
    fun presets t m hpresets hcalls => ?_⟩
  · refine getRate_run_pos hpos hlt hdefault fun rate hmem => ?_
    obtain ⟨c, hc, hown⟩ := List.mem_filterMap.mp hmem
    obtain ⟨rates, rfl, hget⟩ := RateCall.own_eq_preset hown
    exact hset rates hc rate (List.mem_map.mpr ⟨(k, rate), Dict.mem_entries_iff.mpr hget, rfl⟩)
  · have hknown := known_run_arrivals hpos hlt defaultRate hcalls
    have hmean := getRate_run_arrivals hpos hlt defaultRate hcalls
    refine ⟨(congrArg Known.rate hknown).trans (congrArg some hmean.symm),
      congrArg Known.count hknown, ?_, ?_, ?_, ?_⟩
    · exact hmean.trans (ewma_eq alpha _ (sample t) m)
    · rw [hmean]
      exact (ewma_mem_hull hpos.le hlt.le m).1
    · rw [hmean]
      exact (ewma_mem_hull hpos.le hlt.le m).2
    · exact getRate_run_pos hpos hlt hdefault fun rate hmem =>
        hpresets rate (mem_presets_of_own hcalls hmem)

/-- The rate 5 is set, then two arrivals half a second apart, and one of another
adapter in between. -/
def halfSecondCalls : List (RateCall ℚ String) :=
  [.setRates (Dict.ofKeys ["a"] 5), .update "a" 0, .update "b" 0, .update "a" (1 / 2)]

theorem halfSecond_in_hull : ∃ e : ArrivalRateEstimator ℚ String,
    e = (fresh (1 / 3) (by decide +kernel) (by decide +kernel) 1).run halfSecondCalls
      ∧ e.getRate "a" = 4 ∧ 0 < e.getRate "a"
      ∧ ∃ hi ∈ (5 : ℚ) :: (List.range 1).map (sample fun j : ℕ => (j : ℚ) / 2),
        e.getRate "a" ≤ hi := by
  have hpos : (0 : ℚ) < 1 / 3 := by decide +kernel
  have hlt : (1 / 3 : ℚ) < 1 := by decide +kernel
  have hdefault : (0 : ℚ) < 1 := by decide +kernel
  have h := (estimates_local_and_in_hull hpos hlt hdefault halfSecondCalls "a").2.2 [5]
    (fun j => j / 2) 1 (by decide +kernel) (by decide +kernel)
  exact ⟨_, rfl, by decide +kernel, h.2.2.2.2.2, h.2.2.2.2.1⟩

end ArrivalRateEstimator

end AdapterSlots
