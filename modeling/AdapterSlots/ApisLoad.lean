import Mathlib.Algebra.Order.Ring.Defs
import Mathlib.Algebra.Order.Ring.Rat
import AdapterSlots.ApisRouter
import AdapterSlots.Lib.Decimal
import AdapterSlots.Lib.RoundRobin

/-!
# The load of the shards

`rebalance` deals the adapters out in the order of their rates, so the shards
share the traffic: a shard carries no less than those after it, and no more
than one adapter above any of them. Equal rates are ordered by the decimal
names, which are distinct, so the order of the dictionary plays no part.
-/

namespace AdapterSlots

open Lib

namespace APISRouter

variable {K : Type} [Field K] [LinearOrder K]

/-! ### The order of the rates -/

/-- `a` comes before `b`. -/
def RateLe (rates : Dict ℤ K) (a b : ℤ) : Prop :=
  rates.getD b 0 < rates.getD a 0 ∨ rates.getD b 0 = rates.getD a 0 ∧ toString a ≤ toString b

instance (rates : Dict ℤ K) : DecidableRel (RateLe rates) :=
  fun _ _ => inferInstanceAs (Decidable (_ ∨ _))

theorem total_rateLe (rates : Dict ℤ K) : Std.Total (RateLe rates) := by
  constructor
  intro a b
  rcases lt_trichotomy (rates.getD a 0) (rates.getD b 0) with hlt | heq | hlt
  · exact .inr (.inl hlt)
  · rcases le_total (toString a) (toString b) with hname | hname
    · exact .inl (.inr ⟨heq.symm, hname⟩)
    · exact .inr (.inr ⟨heq, hname⟩)
  · exact .inl (.inl hlt)

theorem isTrans_rateLe (rates : Dict ℤ K) : IsTrans ℤ (RateLe rates) := by
  constructor
  rintro a b c (hab | ⟨hab, hname⟩) (hbc | ⟨hbc, hname'⟩)
  · exact .inl (hbc.trans hab)
  · exact .inl (hbc.trans_lt hab)
  · exact .inl (hbc.trans_eq hab)
  · exact .inr ⟨hbc.trans hab, hname.trans hname'⟩

theorem antisymm_rateLe {rates : Dict ℤ K} {a b : ℤ} (hab : RateLe rates a b)
    (hba : RateLe rates b a) : a = b := by
  rcases hab with hlt | ⟨heq, hname⟩
  · rcases hba with hlt' | ⟨heq, -⟩
    · exact absurd hlt' hlt.asymm
    · exact absurd heq hlt.ne'
  · rcases hba with hlt | ⟨-, hname'⟩
    · exact absurd heq hlt.ne'
    · exact toString_int_injective (le_antisymm hname hname')

theorem pairwise_rateOrder (rates : Dict ℤ K) : (rateOrder rates).Pairwise (RateLe rates) := by
  have htotal := total_rateLe rates
  have htrans := isTrans_rateLe rates
  exact List.pairwise_insertionSort (RateLe rates) rates.keys

/-- Two dictionaries with the same entries have one order. -/
theorem rateOrder_congr {rates rates' : Dict ℤ K} (h : ∀ a, rates'.get? a = rates.get? a) :
    rateOrder rates' = rateOrder rates := by
  have hle : RateLe rates' = RateLe rates := by
    funext a b
    simp only [RateLe, Dict.getD, h]
  have hkeys : rates'.keys.Perm rates.keys := by
    refine (List.perm_ext_iff_of_nodup rates'.nodup_keys rates.nodup_keys).mpr fun a => ?_
    rw [← Dict.mem_def, ← Dict.mem_def, Dict.mem_iff_get?, Dict.mem_iff_get?, h]
  refine List.Perm.eq_of_pairwise (fun a b _ _ => antisymm_rateLe)
    (hle ▸ pairwise_rateOrder rates') (pairwise_rateOrder rates) ?_
  exact (rateOrder_perm rates').trans (hkeys.trans (rateOrder_perm rates).symm)

/-! ### The load -/

/-- The total rate of the adapters of a shard. -/
def shardRate (r : APISRouter K) (s : ℕ) : K :=
  ((r.shardAdapters s).map fun a => r.estimator.getAllRates.getD a 0).sum

/-- Zero when there is no rate. -/
def largestRate (rates : Dict ℤ K) : K :=
  (rates.keys.map fun a => rates.getD a 0).foldr max 0

theorem le_foldr_max {b : K} : ∀ {l : List K}, b ∈ l → b ≤ l.foldr max 0
  | _ :: l, hb => by
      rcases List.mem_cons.mp hb with rfl | hb
      · exact le_max_left _ _
      · exact (le_foldr_max hb).trans (le_max_right _ _)

theorem foldr_max_nonneg : ∀ l : List K, 0 ≤ l.foldr max 0
  | [] => le_rfl
  | _ :: l => (foldr_max_nonneg l).trans (le_max_right _ _)

theorem shardRate_rebalance (r : APISRouter K) {s : ℕ} (hs : s < r.nShards) :
    r.rebalance.shardRate s
      = handsFrom r.nShards
          ((rateOrder r.estimator.getAllRates).map fun a =>
            r.estimator.getAllRates.getD a 0) s := by
  have hdeal := handsFrom_eq (fun a => r.estimator.getAllRates.getD a 0)
    (rateOrder r.estimator.getAllRates) 0 s hs
  rw [Nat.zero_add, Nat.mod_eq_of_lt hs] at hdeal
  rw [shardRate, shardAdapters, entries_rebalance, List.filter_map, List.map_map, List.map_map,
    ← hdeal]
  rfl

/-- **Rate-sorted round robin** spreads the traffic: every adapter with a rate has a
shard, a shard carries no less than those after it and at most the largest rate
more, and the assignment is a function of the map. -/
theorem rebalance_balances [IsStrictOrderedRing K] (r : APISRouter K)
    (hnonneg : ∀ a ∈ r.estimator.getAllRates, 0 ≤ r.estimator.getAllRates.getD a 0) :
    (∀ a ∈ r.estimator.getAllRates, ∃ s < r.nShards, r.rebalance.assignment.get? a = some s)
      ∧ (∀ i j, i < j → j < r.nShards → r.rebalance.shardRate j ≤ r.rebalance.shardRate i
        ∧ r.rebalance.shardRate i
          ≤ r.rebalance.shardRate j + largestRate r.estimator.getAllRates)
      ∧ ∀ r' : APISRouter K, r'.nShards = r.nShards →
        (∀ a, r'.estimator.getAllRates.get? a = r.estimator.getAllRates.get? a) →
        r'.rebalance.assignment = r.rebalance.assignment := by
  have hmem : ∀ a, a ∈ rateOrder r.estimator.getAllRates ↔ a ∈ r.estimator.getAllRates :=
    fun a => (rateOrder_perm _).mem_iff
  refine ⟨fun a ha => ?_, fun i j hij hj => ?_, fun r' hshards hrates => ?_⟩
  · have hkey : a ∈ r.rebalance.assignment := (dealt_rebalance r).keys a |>.mpr ha
    obtain ⟨s, hs⟩ := Dict.mem_iff_get?.mp hkey
    exact ⟨s, (dealt_rebalance r).lt_nShards (mem_shardAdapters.mpr hs), hs⟩
  · rw [shardRate_rebalance r (hij.trans hj), shardRate_rebalance r hj]
    refine handsFrom_balanced (foldr_max_nonneg _) ?_ ?_ ?_ hij.le hj
    · exact List.forall_mem_map.mpr fun a ha => hnonneg a ((hmem a).mp ha)
    · exact List.forall_mem_map.mpr fun a ha =>
        le_foldr_max (List.mem_map_of_mem ((hmem a).mp ha))
    · refine List.pairwise_map.mpr ((pairwise_rateOrder _).imp ?_)
      rintro a b (hlt | ⟨heq, -⟩)
      · exact hlt.le
      · exact heq.le
  · refine Dict.ext ?_
    rw [entries_rebalance, entries_rebalance, rateOrder_congr hrates, hshards]

theorem tenth_pos : (0 : ℚ) < 1 / 10 := by norm_num

theorem tenth_lt_one : (1 / 10 : ℚ) < 1 := by norm_num

/-- Five adapters on two shards. -/
def fiveAdapters : APISRouter ℚ where
  nShards := 2
  nShards_pos := by decide
  rebalanceS := 30
  estimator :=
    (ArrivalRateEstimator.init (1 / 10) tenth_pos tenth_lt_one).setRates
      (Dict.empty.insertAll [(0, 9), (1, 7), (2, 5), (3, 3), (4, 1)])
  assignment := .empty
  lastRebalance := none
  nRebalances := 0

theorem fiveAdapters_balances :
    (∀ a ∈ fiveAdapters.estimator.getAllRates, 0 ≤ fiveAdapters.estimator.getAllRates.getD a 0)
      ∧ fiveAdapters.rebalance.shardRate 1 ≤ fiveAdapters.rebalance.shardRate 0
      ∧ fiveAdapters.rebalance.shardRate 0 ≤ fiveAdapters.rebalance.shardRate 1
        + largestRate fiveAdapters.estimator.getAllRates := by
  have hnonneg : ∀ a ∈ fiveAdapters.estimator.getAllRates,
      0 ≤ fiveAdapters.estimator.getAllRates.getD a 0 := by
    decide +kernel
  exact ⟨hnonneg, (rebalance_balances fiveAdapters hnonneg).2.1 0 1 (by decide) (by decide)⟩

end APISRouter

end AdapterSlots
