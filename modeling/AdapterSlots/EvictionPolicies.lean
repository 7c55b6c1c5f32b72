import AdapterSlots.Lib.Simulation
import AdapterSlots.WarmCache

/-!
# The two rate-based policies

`topk` evicts the warm adapter with the lowest rate, `predictive` the one
with the lowest Poisson score, the probability of a request within the load
time. The score grows with the rate (`evictionScore_le_iff`), so the two
can differ only in ties: `topk` takes the least recently used adapter of
the tied ones, `predictive` the least name, and to `predictive` all rates
that are not positive tie.

`predictive_evicts_as_topk` is the statement about runs. While no eviction
has to choose among ties (`Decided`), the two caches simulate each other:
the same replies, the same warm set in the same order, the same counters.
-/

namespace AdapterSlots

open Lib

namespace CountedWarmCache

/-! ## Scores and rates -/

/-- Rates that are not positive count as zero. -/
theorem evictionScore_eq_max {env : Env ℝ} (hexp : env.exp = Real.exp) {lam tau : ℝ}
    (htau : 0 < tau) :
    WarmCacheManager.evictionScore env lam tau = 1 - Real.exp (-max lam 0 * tau) := by
  rcases le_total lam 0 with hle | hge
  · rw [max_eq_right hle, neg_zero, zero_mul, Real.exp_zero, sub_self]
    exact if_pos (.inl hle)
  · have hzero : env.exp 0 = 1 := hexp ▸ Real.exp_zero
    rw [max_eq_left hge, evictionScore_eq hzero hge htau, hexp]

theorem evictionScore_le_iff {env : Env ℝ} (hexp : env.exp = Real.exp) {lam lam' tau : ℝ}
    (htau : 0 < tau) :
    WarmCacheManager.evictionScore env lam tau ≤ WarmCacheManager.evictionScore env lam' tau
      ↔ max lam 0 ≤ max lam' 0 := by
  rw [evictionScore_eq_max hexp htau, evictionScore_eq_max hexp htau, sub_le_sub_iff_left,
    Real.exp_le_exp, neg_mul, neg_mul, neg_le_neg_iff, mul_le_mul_iff_of_pos_right htau]

/-- No two of the adapters tie. -/
def Separated (rates : Dict String ℝ) (ks : List String) : Prop :=
  ∀ k ∈ ks, ∀ k' ∈ ks, max (rates.getD k 0) 0 = max (rates.getD k' 0) 0 → k = k'

/-- Without ties the two rules choose one victim. -/
theorem target_eq_lowestRate {env : Env ℝ} (hexp : env.exp = Real.exp) {tau : ℝ} (htau : 0 < tau)
    {rates : Dict String ℝ} {ks : List String} (hne : ks ≠ []) (hsep : Separated rates ks) :
    WarmCacheManager.getEvictionTarget env tau rates ks
      = (WarmCacheManager.lowestRate rates ks none).map Prod.snd := by
  obtain ⟨v, hv, hlow, hleast⟩ := lowestRate_spec rates hne
  obtain ⟨v', hv', htarget, hleast'⟩ := getEvictionTarget_spec env tau rates hne
  have hle : max (rates.getD v' 0) 0 ≤ max (rates.getD v 0) 0 :=
    (evictionScore_le_iff hexp htau).mp (hleast' v hv)
  have hge : max (rates.getD v 0) 0 ≤ max (rates.getD v' 0) 0 :=
    max_le_max_right 0 (hleast v' hv')
  rw [hlow, htarget, hsep v' hv' v hv (le_antisymm hle hge)]

/-! ## One policy for the other -/

/-- The cache with another policy. -/
def withPolicy (c : CountedWarmCache ℝ) (policy : EvictionPolicy) : CountedWarmCache ℝ :=
  { c with policy := policy }

/-- A call that evicts by rates does not choose among ties. -/
def Decided (c : CountedWarmCache ℝ) (a : Call ℝ) : Prop :=
  a.adapterId ∈ c.warm ∨ c.warm.keys.length < c.kWarmMax ∨ (a.rates.getD .empty).keys = []
    ∨ Separated (a.rates.getD .empty) c.warm.keys

/-- The policies that read rates. -/
def RateBased (policy : EvictionPolicy) : Prop := policy = .topk ∨ policy = .predictive

variable {env : Env ℝ} {c c' : CountedWarmCache ℝ} {a : Call ℝ} {policy policy' : EvictionPolicy}

theorem chooseEviction_rateBased (hexp : env.exp = Real.exp) {m : WarmCacheManager ℝ}
    (htau : 0 < m.tauLoadMs) {rates : Dict String ℝ}
    (hsep : rates.keys = [] ∨ Separated rates m.warm.keys) (hpol : RateBased m.policy) :
    m.chooseEviction env rates = .ok (if m.warm.keys = [] ∨ rates.keys = [] then m.warm.keys.head?
      else (WarmCacheManager.lowestRate rates m.warm.keys none).map Prod.snd) := by
  unfold WarmCacheManager.chooseEviction
  by_cases hnone : m.warm.keys = [] ∨ rates.keys = []
  · simp only [if_pos hnone]
  · simp only [if_neg hnone]
    obtain ⟨hne, hrates⟩ := not_or.mp hnone
    rcases hpol with hpol | hpol
    · simp only [hpol]
    · simp only [hpol, if_neg (not_le.mpr htau)]
      rw [target_eq_lowestRate hexp (by positivity) hne (hsep.resolve_left hrates)]

theorem chooseEviction_withPolicy (hexp : env.exp = Real.exp) {m : WarmCacheManager ℝ}
    (htau : 0 < m.tauLoadMs) {rates : Dict String ℝ}
    (hsep : rates.keys = [] ∨ Separated rates m.warm.keys) (hpol : RateBased m.policy)
    (hpol' : RateBased policy) :
    ({ m with policy := policy } : WarmCacheManager ℝ).chooseEviction env rates
      = m.chooseEviction env rates := by
  rw [chooseEviction_rateBased hexp htau hsep hpol]
  exact chooseEviction_rateBased hexp (m := { m with policy := policy }) htau hsep hpol'

/-- Where the victims agree, a load with another policy is the same load. -/
theorem load_withPolicy {k : String} {t : ℝ} {rates : Rates ℝ}
    (h : c.kWarmMax ≤ c.warm.keys.length →
      (c.withPolicy policy).chooseEviction env (rates.getD .empty)
        = c.chooseEviction env (rates.getD .empty)) :
    (c.withPolicy policy).load env k t rates
      = ((c.load env k t rates).1.withPolicy policy, (c.load env k t rates).2) := by
  unfold load
  by_cases hfull : c.kWarmMax ≤ c.warm.keys.length
  · have hfull' : (c.withPolicy policy).kWarmMax ≤ (c.withPolicy policy).warm.keys.length := hfull
    rw [if_pos hfull, if_pos hfull', h hfull]
    cases c.chooseEviction env (rates.getD .empty) with
    | error e => rfl
    | ok victim =>
        cases victim with
        | none => rfl
        | some v => rfl
  · have hfull' : ¬ (c.withPolicy policy).kWarmMax ≤ (c.withPolicy policy).warm.keys.length :=
      hfull
    rw [if_neg hfull, if_neg hfull']
    rfl

/-- A call that is decided does not depend on which of the two policies the cache has. -/
theorem call_withPolicy (hexp : env.exp = Real.exp) (htau : 0 < c.tauLoadMs)
    (hpol : RateBased c.policy) (hpol' : RateBased policy) (hdec : Decided c a) :
    (c.withPolicy policy).call env a = ((c.call env a).1.withPolicy policy, (c.call env a).2) := by
  have hload : a.adapterId ∉ c.warm → ∀ b : CountedWarmCache ℝ,
      b.toWarmCacheManager = c.toWarmCacheManager →
      (b.withPolicy policy).load env a.adapterId a.t a.rates
        = ((b.load env a.adapterId a.t a.rates).1.withPolicy policy,
          (b.load env a.adapterId a.t a.rates).2) := by
    intro hcold b hb
    refine load_withPolicy fun hfull => ?_
    rw [hb] at hfull
    have hsep := (hdec.resolve_left hcold).resolve_left (not_lt.mpr hfull)
    refine chooseEviction_withPolicy hexp ?_ ?_ ?_ hpol' <;> rw [hb]
    · exact htau
    · exact hsep
    · exact hpol
  unfold call
  split
  · unfold request
    by_cases hwarm : a.adapterId ∈ c.warm
    · have hwarm' : a.adapterId ∈ (c.withPolicy policy).warm := hwarm
      simp only [hwarm, hwarm', if_true]
      rfl
    · have hwarm' : a.adapterId ∉ (c.withPolicy policy).warm := hwarm
      simp only [hwarm, hwarm', if_false]
      have h := hload hwarm
        { c with stats := (c.stats.seen a.adapterId).miss a.adapterId c.tauLoadMs } rfl
      exact congrArg (fun r => (r.1, r.2.map fun _ => Reply.requested false c.tauLoadMs)) h
  · unfold prefetch
    by_cases hwarm : a.adapterId ∈ c.warm
    · have hwarm' : a.adapterId ∈ (c.withPolicy policy).warm := hwarm
      rw [if_pos hwarm, if_pos hwarm']
    · have hwarm' : a.adapterId ∉ (c.withPolicy policy).warm := hwarm
      rw [if_neg hwarm, if_neg hwarm', hload hwarm c rfl]

/-! ## Runs -/

/-- What a step needs in order to be matched under the other policy. -/
structure Matchable (tauLoadMs : ℝ) (c : CountedWarmCache ℝ) (a : Call ℝ) : Prop where
  tau : c.tauLoadMs = tauLoadMs
  policy : RateBased c.policy
  decided : Decided c a

theorem withPolicy_simulates (hexp : env.exp = Real.exp) {tauLoadMs : ℝ} (htau : 0 < tauLoadMs)
    (hpol : RateBased policy) :
    Simulates (Step env) (Step env) (fun c c' => c' = c.withPolicy policy)
      (fun _ _ out out' => out' = out) (Matchable tauLoadMs) := by
  rintro c _ a out c₁ rfl hok hstep
  have h := call_withPolicy hexp (hok.tau.symm ▸ htau) hok.policy hpol hok.decided
  have hcall : c.call env a = (c₁, out) := hstep
  rw [hcall] at h
  exact ⟨out, c₁.withPolicy policy, h, rfl, rfl⟩

/-- A run without ties is a run under the other policy. -/
theorem run_withPolicy (hexp : env.exp = Real.exp) {kWarmMax : ℕ} {hk : 0 < kWarmMax}
    {tauLoadMs : ℝ} (htau : 0 < tauLoadMs) (hpol : RateBased policy) (hpol' : RateBased policy')
    {tr : History ℝ} (h : Exec (Step env) (init kWarmMax hk tauLoadMs policy) tr c)
    (hdec : ∀ e ∈ tr, Decided e.pre e.label) :
    ∃ tr', Exec (Step env) (init kWarmMax hk tauLoadMs policy') tr' (c.withPolicy policy')
      ∧ tr'.map Event.label = tr.map Event.label ∧ tr'.map Event.out = tr.map Event.out := by
  have hok : ∀ e ∈ tr, Matchable tauLoadMs e.pre e.label := by
    intro e he
    obtain ⟨tr₁, tr₂, rfl⟩ := List.append_of_mem he
    have hpre := consistent_of_run (h.before_event rfl)
    exact ⟨hpre.tau, hpre.policy.symm ▸ hpol, hdec e he⟩
  obtain ⟨tr', c', hrun, rfl, hall⟩ := h.simulate (withPolicy_simulates hexp htau hpol') rfl hok
  exact ⟨tr', hrun, labels_of_matched hall, outputs_of_matched (fun _ _ _ _ h => h) hall⟩

/-- **PredictiveLFU is top-K** as long as no eviction chooses among ties: every run of a
cache with one of the two policies is a run of the cache with the other one,
with the same calls and replies and, but for the policy, the same cache at
the end. -/
theorem predictive_evicts_as_topk (hexp : env.exp = Real.exp) {kWarmMax : ℕ} {hk : 0 < kWarmMax}
    {tauLoadMs : ℝ} (htau : 0 < tauLoadMs) (tr : History ℝ) (c : CountedWarmCache ℝ)
    (hdec : ∀ e ∈ tr, Decided e.pre e.label) :
    (Exec (Step env) (init kWarmMax hk tauLoadMs .topk) tr c →
        ∃ tr', Exec (Step env) (init kWarmMax hk tauLoadMs .predictive) tr'
            (c.withPolicy .predictive)
          ∧ tr'.map Event.label = tr.map Event.label ∧ tr'.map Event.out = tr.map Event.out)
      ∧ (Exec (Step env) (init kWarmMax hk tauLoadMs .predictive) tr c →
        ∃ tr', Exec (Step env) (init kWarmMax hk tauLoadMs .topk) tr' (c.withPolicy .topk)
          ∧ tr'.map Event.label = tr.map Event.label ∧ tr'.map Event.out = tr.map Event.out) :=
  ⟨fun h => run_withPolicy hexp htau (.inl rfl) (.inr rfl) h hdec,
    fun h => run_withPolicy hexp htau (.inr rfl) (.inl rfl) h hdec⟩

/-- The third request has to evict one of two adapters. -/
def twoRates : List (Call ℝ) :=
  [⟨true, "a", none, 0⟩, ⟨true, "b", none, 1⟩,
    ⟨true, "c", some ((Dict.ofKeys ["a"] 1).insert "b" 2), 2⟩]

theorem twoRates_evict :
    let call := fun (a : Call ℝ) (c : CountedWarmCache ℝ) => c.call realEnv a
    let tr := history call (init 2 two_pos 200 .topk) twoRates
    ∃ tr', Exec (Step realEnv) (init 2 two_pos 200 .predictive) tr'
        ((final call (init 2 two_pos 200 .topk) twoRates).withPolicy .predictive)
      ∧ tr'.map Event.label = twoRates ∧ tr'.map Event.out = tr.map Event.out := by
  intro call tr
  refine (predictive_evicts_as_topk rfl (by norm_num) tr _ fun e he => ?_).1
    (exec_history call twoRates _)
  rcases List.mem_cons.mp he with rfl | he
  · exact .inr (.inl Nat.two_pos)
  · rcases List.mem_cons.mp he with rfl | he
    · exact .inr (.inl Nat.one_lt_two)
    · obtain rfl := List.mem_singleton.mp he
      refine .inr (.inr (.inr fun k hk k' hk' heq => ?_))
      have ha : ((Dict.ofKeys ["a"] (1 : ℝ)).insert "b" 2).getD "a" 0 = 1 := rfl
      have hb : ((Dict.ofKeys ["a"] (1 : ℝ)).insert "b" 2).getD "b" 0 = 2 := rfl
      replace hk : k ∈ ["a", "b"] := hk
      replace hk' : k' ∈ ["a", "b"] := hk'
      replace heq : max (((Dict.ofKeys ["a"] (1 : ℝ)).insert "b" 2).getD k 0) 0
        = max (((Dict.ofKeys ["a"] (1 : ℝ)).insert "b" 2).getD k' 0) 0 := heq
      simp only [List.mem_cons, List.not_mem_nil, or_false] at hk hk'
      rcases hk with rfl | rfl <;> rcases hk' with rfl | rfl
      · rfl
      · rw [ha, hb] at heq
        norm_num at heq
      · rw [ha, hb] at heq
        norm_num at heq
      · rfl

end CountedWarmCache

end AdapterSlots
