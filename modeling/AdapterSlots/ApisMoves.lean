import AdapterSlots.ApisRouter
import AdapterSlots.Lib.Switches

/-!
# Moves between the shards

Requests for an adapter follow its shard, so a request that is answered with
another shard than the one before it finds the adapter's KV cache and weights
elsewhere. `moves_are_rare` bounds these moves by the time the run takes: each
needs a rebalance, and rebalances are `rebalance_s` apart.
-/

namespace AdapterSlots

open Lib

variable {K : Type} [Field K] [LinearOrder K]

namespace APISRouter

/-- The shards the requests for an adapter were sent to. -/
def replies (a : ℤ) (tr : List (Event (APISRouter K) (ℤ × K) ℕ)) : List ℕ :=
  (tr.filter fun e => decide (e.label.1 = a)).map Event.out

theorem replies_snoc (a : ℤ) (tr : List (Event (APISRouter K) (ℤ × K) ℕ))
    (e : Event (APISRouter K) (ℤ × K) ℕ) :
    replies a (tr ++ [e]) = if e.label.1 = a then replies a tr ++ [e.out] else replies a tr := by
  unfold replies
  rw [List.filter_append, List.map_append, List.filter_cons]
  by_cases ha : e.label.1 = a
  · rw [if_pos (decide_eq_true ha), if_pos ha]
    rfl
  · rw [if_neg (by simpa using ha), if_neg ha]
    exact List.append_nil _

theorem nRebalances_route (r : APISRouter K) (a : ℤ) (tNow : K) :
    r.RebalanceDue tNow ∧ (r.route a tNow).1.nRebalances = r.nRebalances + 1
        ∧ (r.route a tNow).1.lastRebalance = some tNow
      ∨ ¬ r.RebalanceDue tNow ∧ (r.route a tNow).1.nRebalances = r.nRebalances
        ∧ (r.route a tNow).1.lastRebalance = some (r.lastRebalance.getD tNow) := by
  unfold route refresh RebalanceDue
  cases hlast : r.lastRebalance with
  | none => exact .inr ⟨fun ⟨_, h, _⟩ => (by cases h), rfl, rfl⟩
  | some last =>
      by_cases hdue : r.rebalanceS ≤ tNow - last
      · refine .inl ⟨⟨last, rfl, hdue⟩, ?_⟩
        simp only [if_pos hdue]
        exact ⟨rfl, rfl⟩
      · refine .inr ⟨?_, ?_⟩
        · rintro ⟨last', hlast', hdue'⟩
          obtain rfl := Option.some.inj hlast'
          exact hdue hdue'
        · simp only [if_neg hdue]
          exact ⟨rfl, rfl⟩

theorem rebalanceS_route (r : APISRouter K) (a : ℤ) (tNow : K) :
    (r.route a tNow).1.rebalanceS = r.rebalanceS := by
  rcases refresh_cases { r with estimator := r.estimator.update a tNow } tNow with
    ⟨-, h⟩ | ⟨-, last, h⟩
  all_goals
    simp only [route, h]
    rfl

/-! ## A stretch of a run -/

/-- What a stretch from `r₀` has done so far to adapter `a`: each of its moves, the next
one included if its shard has changed since, took a rebalance. -/
structure Moved (r₀ : APISRouter K) (a : ℤ) (tr : List (Event (APISRouter K) (ℤ × K) ℕ))
    (r : APISRouter K) : Prop where
  dealt : Dealt r
  rebalances : r₀.nRebalances ≤ r.nRebalances
  unknown : a ∉ r.assignment → replies a tr = []
  known : ∀ s, a ∈ r.shardAdapters s →
    switches (replies a tr ++ [s]) ≤ r.nRebalances - r₀.nRebalances

section Stretch

variable {r₀ r : APISRouter K} {a : ℤ} {tr : List (Event (APISRouter K) (ℤ × K) ℕ)}

theorem shard_unique {s s' : ℕ} (h : a ∈ r.shardAdapters s) (h' : a ∈ r.shardAdapters s') :
    s = s' :=
  Option.some.inj ((mem_shardAdapters.mp h).symm.trans (mem_shardAdapters.mp h'))

/-- The next shard of `a`, whatever the call. -/
theorem Moved.next (h : Moved r₀ a tr r) (c : ℤ) (tNow : K) {s : ℕ}
    (hs : a ∈ (r.route c tNow).1.shardAdapters s) : switches (replies a tr ++ [s])
      ≤ (r.route c tNow).1.nRebalances - r₀.nRebalances := by
  by_cases ha : a ∈ r.assignment
  · obtain ⟨s₁, hs₁⟩ := Dict.mem_iff_get?.mp ha
    have hknown := h.known s₁ (mem_shardAdapters.mpr hs₁)
    have hreb := h.rebalances
    rcases nRebalances_route r c tNow with ⟨-, hn, -⟩ | ⟨hdue, hn, -⟩
    · have hle := switches_snoc_le (replies a tr) s
      have hle₁ := switches_le_snoc (replies a tr) s₁
      omega
    · have hstay := mem_shardAdapters_route (a := c) hdue (mem_shardAdapters.mpr hs₁)
      rw [hn, shard_unique hs hstay]
      exact hknown
  · rw [h.unknown ha]
    exact Nat.zero_le _

theorem Moved.route (h : Moved r₀ a tr r) (c : ℤ × K) {shard : ℕ} {r' : APISRouter K}
    (hreq : Request r c shard r') : Moved r₀ a (tr ++ [⟨r, c, shard, r'⟩]) r' := by
  obtain rfl : (r.route c.1 c.2).1 = r' := congrArg Prod.fst hreq
  obtain rfl : (r.route c.1 c.2).2 = shard := congrArg Prod.snd hreq
  have hdealt := h.dealt.route c.1 c.2
  have hkeys := mem_rateEstimate_route r c.1 c.2 (b := a)
  rw [← hdealt.keys, ← h.dealt.keys] at hkeys
  refine ⟨hdealt, ?_, fun ha => ?_, fun s hs => ?_⟩
  · rcases nRebalances_route r c.1 c.2 with ⟨-, hn, -⟩ | ⟨-, hn, -⟩
    · exact h.rebalances.trans (hn ▸ Nat.le_succ _)
    · exact h.rebalances.trans hn.ge
  · rw [hkeys, not_or] at ha
    rw [replies_snoc, if_neg (Ne.symm ha.1)]
    exact h.unknown ha.2
  · rw [replies_snoc]
    split
    · rename_i hc
      have hc : c.1 = a := hc
      have hout := mem_shardAdapters_out r c.1 c.2
      rw [hc] at hout hs
      rw [shard_unique hs hout, hc, switches_repeat]
      exact h.next a c.2 hout
    · exact h.next c.1 c.2 hs

theorem moved_of_exec (hdealt : Dealt r₀) (h : Exec Request r₀ tr r) : Moved r₀ a tr r := by
  induction h with
  | nil => exact ⟨hdealt, Nat.le_refl _, fun _ => rfl, fun s _ => Nat.zero_le _⟩
  | snoc hpath hreq ih => exact ih.route _ hreq

/-! ## Rebalances are spaced -/

theorem rebalanceS_of_exec (h : Exec Request r₀ tr r) : r.rebalanceS = r₀.rebalanceS := by
  induction h with
  | nil => rfl
  | @snoc tr r r' c shard hpath hreq ih =>
      obtain rfl : (r.route c.1 c.2).1 = r' := congrArg Prod.fst hreq
      exact (rebalanceS_route r c.1 c.2).trans ih

/-- The rebalances of a stretch with readings from `t₀` to `t`. The interval that ends at
the first of them may have begun before the stretch. -/
def Spaced (r₀ : APISRouter K) (t₀ t : K) (r : APISRouter K) : Prop :=
  (r.nRebalances = r₀.nRebalances ∧ r.lastRebalance = r₀.lastRebalance)
    ∨ ∃ (n : ℕ) (last : K), r.nRebalances = r₀.nRebalances + n ∧ r.lastRebalance = some last
      ∧ t₀ ≤ last ∧ last ≤ t
      ∧ n * r₀.rebalanceS ≤ last - t₀ + if r₀.lastRebalance = none then 0 else r₀.rebalanceS

variable [IsStrictOrderedRing K] {t₀ t : K}

theorem Spaced.route (h : Spaced r₀ t₀ t r) (hS : r.rebalanceS = r₀.rebalanceS) (c : ℤ)
    {tNow : K} (hlo : t₀ ≤ tNow) (hhi : tNow ≤ t) : Spaced r₀ t₀ t (r.route c tNow).1 := by
  rcases nRebalances_route r c tNow with ⟨⟨last, hlast, hdue⟩, hn, hnow⟩ | ⟨-, hn, hnow⟩
  · -- the interval that ends here began in the stretch or before it
    rw [hS] at hdue
    rcases h with ⟨hsame, hold⟩ | ⟨n, last', hcount, hlast', -, -, hspace⟩
    · refine .inr ⟨1, tNow, by rw [hn, hsame], hnow, hlo, hhi, ?_⟩
      rw [hold] at hlast
      rw [if_neg (by rw [hlast]; simp), Nat.cast_one, one_mul]
      linarith
    · obtain rfl : last' = last := Option.some.inj (hlast'.symm.trans hlast)
      refine .inr ⟨n + 1, tNow, by rw [hn, hcount, Nat.add_assoc], hnow, hlo, hhi, ?_⟩
      rw [Nat.cast_add, Nat.cast_one, add_mul, one_mul]
      linarith
  · rcases h with ⟨hsame, hold⟩ | ⟨n, last, hcount, hlast, hbound, hspace⟩
    · cases hstart : r₀.lastRebalance with
      | none =>
          rw [hold, hstart] at hnow
          refine .inr ⟨0, tNow, hn.trans hsame, hnow, hlo, hhi, ?_⟩
          rw [if_pos hstart, Nat.cast_zero, zero_mul, add_zero]
          exact sub_nonneg.mpr hlo
      | some last =>
          rw [hold, hstart] at hnow
          exact .inl ⟨hn.trans hsame, hnow.trans hstart.symm⟩
    · rw [hlast] at hnow
      exact .inr ⟨n, last, hn.trans hcount, hnow, hbound, hspace⟩

theorem spaced_of_exec (hin : ∀ e ∈ tr, t₀ ≤ e.label.2 ∧ e.label.2 ≤ t)
    (h : Exec Request r₀ tr r) : Spaced r₀ t₀ t r := by
  induction h with
  | nil => exact .inl ⟨rfl, rfl⟩
  | @snoc tr r r' c shard hpath hreq ih =>
      obtain rfl : (r.route c.1 c.2).1 = r' := congrArg Prod.fst hreq
      obtain ⟨hlo, hhi⟩ := hin ⟨r, c, shard, (r.route c.1 c.2).1⟩ (by simp)
      exact (ih fun e he => hin e (List.mem_append_left _ he)).route (rebalanceS_of_exec hpath)
        c.1 hlo hhi

/-- The moves of an adapter in a stretch. -/
theorem switches_le_of_exec (hdealt : Dealt r₀) (hS : 0 ≤ r₀.rebalanceS) (ht : t₀ ≤ t)
    (hin : ∀ e ∈ tr, t₀ ≤ e.label.2 ∧ e.label.2 ≤ t) (h : Exec Request r₀ tr r) (a : ℤ) :
    (switches (replies a tr) : K) * r₀.rebalanceS
      ≤ t - t₀ + if r₀.lastRebalance = none then 0 else r₀.rebalanceS := by
  have hslack : 0 ≤ if r₀.lastRebalance = none then 0 else r₀.rebalanceS := by
    split
    · exact le_refl _
    · exact hS
  have hmoved := moved_of_exec (a := a) hdealt h
  have hle : switches (replies a tr) ≤ r.nRebalances - r₀.nRebalances := by
    by_cases ha : a ∈ r.assignment
    · obtain ⟨s, hs⟩ := Dict.mem_iff_get?.mp ha
      exact (switches_le_snoc _ s).trans (hmoved.known s (mem_shardAdapters.mpr hs))
    · rw [hmoved.unknown ha]
      exact Nat.zero_le _
  rcases spaced_of_exec hin h with ⟨hsame, -⟩ | ⟨n, last, hcount, -, -, hhi, hspace⟩
  · rw [hsame, Nat.sub_self, Nat.le_zero] at hle
    rw [hle, Nat.cast_zero, zero_mul]
    linarith
  · rw [hcount, Nat.add_sub_cancel_left] at hle
    have hmul : (switches (replies a tr) : K) * r₀.rebalanceS ≤ n * r₀.rebalanceS :=
      mul_le_mul_of_nonneg_right (Nat.cast_le.mpr hle) hS
    linarith

end Stretch

/-! ## Runs -/

section Runs

variable {nShards : ℕ} {hn : 0 < nShards} {rebalanceS alpha : K} {hpos : 0 < alpha}
  {hlt : alpha < 1} {initialRates : Option (Dict ℤ K)}

theorem settings_init :
    (init nShards hn rebalanceS alpha hpos hlt initialRates).rebalanceS = rebalanceS
      ∧ (init nShards hn rebalanceS alpha hpos hlt initialRates).lastRebalance = none := by
  unfold init
  cases initialRates with
  | none => exact ⟨rfl, rfl⟩
  | some rates =>
      simp only
      split <;> exact ⟨rfl, rfl⟩

/-- **Moves are rare.** In every stretch of a run, under any clock, the shard an adapter
is sent to changes at most once in `rebalance_s`, and once more when the run began
before the stretch. -/
theorem moves_are_rare [IsStrictOrderedRing K] (hS : 0 ≤ rebalanceS)
    {tr₁ tr₂ : List (Event (APISRouter K) (ℤ × K) ℕ)} {r : APISRouter K}
    (h : Exec Request (init nShards hn rebalanceS alpha hpos hlt initialRates) (tr₁ ++ tr₂) r)
    {t₀ t : K} (ht : t₀ ≤ t) (hin : ∀ e ∈ tr₂, t₀ ≤ e.label.2 ∧ e.label.2 ≤ t) (a : ℤ) :
    (switches (replies a tr₂) : K) * rebalanceS
      ≤ t - t₀ + if tr₁ = [] then 0 else rebalanceS := by
  obtain ⟨hinterval, hlast⟩ :
      (init nShards hn rebalanceS alpha hpos hlt initialRates).rebalanceS = rebalanceS
        ∧ (init nShards hn rebalanceS alpha hpos hlt initialRates).lastRebalance = none :=
    settings_init
  cases tr₂ with
  | nil =>
      have hzero : switches (replies a ([] : List (Event (APISRouter K) (ℤ × K) ℕ))) = 0 := rfl
      rw [hzero, Nat.cast_zero, zero_mul]
      split
      · linarith
      · linarith
  | cons e tr₂ =>
      have hbefore := h.before_event rfl
      have hstep := h.step_of_mem e (by simp)
      have hS₁ : e.pre.rebalanceS = rebalanceS := (rebalanceS_of_exec hbefore).trans hinterval
      have hbound := switches_le_of_exec (dealt_of_run hbefore).1 (hS₁ ▸ hS) ht hin
        (.cons hstep (h.after_event rfl)) a
      rw [hS₁] at hbound
      refine hbound.trans (add_le_add_right ?_ _)
      by_cases hnil : tr₁ = []
      · rw [if_pos hnil, hbefore.eq_of_nil hnil, if_pos hlast]
      · rw [if_neg hnil]
        split
        · exact hS
        · exact le_refl _

theorem fifth_pos : (0 : ℚ) < 1 / 5 := by decide +kernel

theorem fifth_lt_one : (1 / 5 : ℚ) < 1 := by decide +kernel

/-- A router that rebalances every second. -/
def restless : APISRouter ℚ :=
  init 2 Nat.two_pos 1 (1 / 5) fifth_pos fifth_lt_one (some (Dict.ofKeys [5, 6] 1))

/-- Adapter 6 becomes the faster one. -/
def restlessCalls : List (ℤ × ℚ) := [(6, 0), (6, 1 / 10), (6, 3 / 2)]

def serve (c : ℤ × ℚ) (r : APISRouter ℚ) : APISRouter ℚ × ℕ := r.route c.1 c.2

/-- It moves once in two seconds. -/
theorem restless_moves :
    ∃ tr r, Exec Request restless ([] ++ tr) r ∧ replies 6 tr = [1, 1, 0]
      ∧ (switches (replies 6 tr) : ℚ) * 1 ≤ 2 - 0 + if ([] : List (Event (APISRouter ℚ)
        (ℤ × ℚ) ℕ)) = [] then 0 else 1 := by
  have hexec : Exec Request restless ([] ++ history serve restless restlessCalls)
      (final serve restless restlessCalls) := exec_history serve restlessCalls restless
  have hin : ∀ c ∈ restlessCalls, 0 ≤ c.2 ∧ c.2 ≤ 2 := by decide +kernel
  exact ⟨_, _, hexec, by decide +kernel, moves_are_rare (by decide) hexec (by decide)
    (fun e he => hin _ (label_mem_of_history e he)) 6⟩

end Runs

end APISRouter

end AdapterSlots
