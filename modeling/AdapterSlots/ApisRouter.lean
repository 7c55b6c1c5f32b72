import Mathlib.Data.Int.CardIntervalMod
import AdapterSlots.Lib.Exec
import AdapterSlots.Rates

/-!
# The APIS router

`APISRouter` of `apis_router.py` spreads the adapters over independent
shards. Two paths write the assignment: `rebalance` deals all adapters out in
the order of their rates, and the first request of a new adapter appends it
to the shard its position gives. Both keep the adapter at position `i` of the
dictionary on shard `i % n` (`Dealt`), so the shards stay balanced over every
run of requests.
-/

namespace AdapterSlots

open Lib

variable {K : Type} [Field K] [LinearOrder K]

structure APISRouter (K : Type) [Field K] [LinearOrder K] where
  nShards : ℕ
  nShards_pos : 0 < nShards
  rebalanceS : K
  estimator : ArrivalRateEstimator K ℤ
  assignment : Dict ℤ ℕ
  lastRebalance : Option K
  nRebalances : ℕ

namespace APISRouter

/-- Highest rate first; equal rates in the order of the decimal names. -/
def rateOrder (rates : Dict ℤ K) : List ℤ :=
  rates.keys.insertionSort fun a b => rates.getD b 0 < rates.getD a 0
    ∨ rates.getD b 0 = rates.getD a 0 ∧ toString a ≤ toString b

def rebalance (r : APISRouter K) : APISRouter K :=
  { r with
    assignment := Dict.empty.insertAll
      ((rateOrder r.estimator.getAllRates).zipIdx.map fun e => (e.1, e.2 % r.nShards))
    nRebalances := r.nRebalances + 1 }

/-- The constructor; an empty map of initial rates counts as none. -/
def init (nShards : ℕ) (hn : 0 < nShards) (rebalanceS alpha : K) (hpos : 0 < alpha)
    (hlt : alpha < 1) (initialRates : Option (Dict ℤ K)) : APISRouter K :=
  let r : APISRouter K := ⟨nShards, hn, rebalanceS, .init alpha hpos hlt, .empty, none, 0⟩
  match initialRates with
  | none => r
  | some rates =>
      if rates.keys = [] then r
      else rebalance { r with estimator := r.estimator.setRates rates }

/-- The first request starts the clock; later ones rebalance when it has run for
`rebalance_s`. -/
def refresh (r : APISRouter K) (tNow : K) : APISRouter K :=
  match r.lastRebalance with
  | none => { r with lastRebalance := some tNow }
  | some last =>
      if r.rebalanceS ≤ tNow - last then { r.rebalance with lastRebalance := some tNow } else r

/-- An adapter without a shard joins the next one in round-robin order. -/
def join (r : APISRouter K) (a : ℤ) : APISRouter K :=
  { r with assignment := r.assignment.setDefault a (r.assignment.keys.length % r.nShards) }

def route (r : APISRouter K) (a : ℤ) (tNow : K) : APISRouter K × ℕ :=
  let r' := (refresh { r with estimator := r.estimator.update a tNow } tNow).join a
  (r', r'.assignment.getD a 0)

/-- The adapters of a shard. -/
def shardAdapters (r : APISRouter K) (s : ℕ) : List ℤ :=
  (r.assignment.entries.filter fun e => e.2 = s).map Prod.fst

/-- The call runs `rebalance`. -/
def RebalanceDue (r : APISRouter K) (tNow : K) : Prop :=
  ∃ last ∈ r.lastRebalance, r.rebalanceS ≤ tNow - last

/-! ## Round robin -/

/-- Position `i` has shard `i % n`, and the adapters with an estimate are those with
a position. -/
structure Dealt (r : APISRouter K) : Prop where
  values : r.assignment.values = (List.range r.assignment.keys.length).map (· % r.nShards)
  keys : ∀ a, a ∈ r.assignment ↔ a ∈ r.estimator.rateEstimate

theorem rateOrder_perm (rates : Dict ℤ K) : (rateOrder rates).Perm rates.keys :=
  List.perm_insertionSort _ _

theorem entries_rebalance (r : APISRouter K) : r.rebalance.assignment.entries
    = (rateOrder r.estimator.getAllRates).zipIdx.map fun e => (e.1, e.2 % r.nShards) := by
  refine Dict.entries_insertAll ?_ fun k _ hk => by cases hk
  have hfst : (fun e : ℤ × ℕ => (e.1, e.2 % r.nShards).1) = Prod.fst := rfl
  rw [List.map_map, Function.comp_def, hfst, List.zipIdx_map_fst]
  exact (rateOrder_perm _).nodup_iff.mpr (Dict.nodup_keys _)

theorem keys_rebalance (r : APISRouter K) :
    r.rebalance.assignment.keys = rateOrder r.estimator.getAllRates := by
  have hfst : (fun e : ℤ × ℕ => (e.1, e.2 % r.nShards).1) = Prod.fst := rfl
  rw [Dict.keys, entries_rebalance, List.map_map, Function.comp_def, hfst, List.zipIdx_map_fst]

theorem dealt_rebalance (r : APISRouter K) : Dealt r.rebalance := by
  constructor
  · have hsnd : (fun e : ℤ × ℕ => (e.1, e.2 % r.nShards).2) = (· % r.nShards) ∘ Prod.snd := rfl
    rw [keys_rebalance, Dict.values, entries_rebalance, List.map_map, Function.comp_def, hsnd,
      ← List.map_map, List.zipIdx_map_snd, List.range_eq_range']
    rfl
  · intro a
    rw [Dict.mem_def, keys_rebalance, (rateOrder_perm _).mem_iff]
    rfl

theorem dealt_init (nShards : ℕ) (hn : 0 < nShards) (rebalanceS alpha : K) (hpos : 0 < alpha)
    (hlt : alpha < 1) (initialRates : Option (Dict ℤ K)) :
    Dealt (init nShards hn rebalanceS alpha hpos hlt initialRates) := by
  have hempty : Dealt (⟨nShards, hn, rebalanceS, .init alpha hpos hlt, .empty, none, 0⟩ :
      APISRouter K) := ⟨rfl, fun _ => Iff.rfl⟩
  unfold init
  cases initialRates with
  | none => exact hempty
  | some rates =>
      simp only
      split
      · exact hempty
      · exact dealt_rebalance _

theorem Dealt.join {r : APISRouter K} {a : ℤ} (h : r.assignment.values
      = (List.range r.assignment.keys.length).map (· % r.nShards))
    (hkeys : ∀ b, b ∈ r.estimator.rateEstimate ↔ b = a ∨ b ∈ r.assignment) :
    Dealt (r.join a) := by
  constructor
  · by_cases ha : a ∈ r.assignment
    · have heq : (r.join a).assignment = r.assignment := if_pos ha
      rw [heq]
      exact h
    · have heq : (r.join a).assignment
          = r.assignment.insert a (r.assignment.keys.length % r.nShards) := if_neg ha
      rw [heq, Dict.keys_insert, if_neg ha, List.length_append, List.length_singleton,
        List.range_succ, List.map_append, List.map_singleton, Dict.values,
        Dict.entries_insert_of_not_mem ha, List.map_append, ← Dict.values, h]
      rfl
  · exact fun b => Dict.mem_setDefault.trans (hkeys b).symm

/-- A call rebalances when it is due, and leaves the assignment alone otherwise. -/
theorem refresh_cases (r : APISRouter K) (tNow : K) :
    (r.RebalanceDue tNow ∧ r.refresh tNow = { r.rebalance with lastRebalance := some tNow })
      ∨ (¬ r.RebalanceDue tNow ∧ ∃ last, r.refresh tNow = { r with lastRebalance := last }) := by
  unfold refresh RebalanceDue
  cases hlast : r.lastRebalance with
  | none => exact .inr ⟨fun ⟨_, h, _⟩ => (by cases h), some tNow, rfl⟩
  | some last =>
      by_cases hdue : r.rebalanceS ≤ tNow - last
      · exact .inl ⟨⟨last, rfl, hdue⟩, if_pos hdue⟩
      · refine .inr ⟨?_, some last, ?_⟩
        · rintro ⟨last', hlast', hdue'⟩
          obtain rfl := Option.some.inj hlast'
          exact hdue hdue'
        · simp only [if_neg hdue, ← hlast]

theorem nShards_route (r : APISRouter K) (a : ℤ) (tNow : K) :
    (r.route a tNow).1.nShards = r.nShards := by
  rcases refresh_cases { r with estimator := r.estimator.update a tNow } tNow with
    ⟨-, h⟩ | ⟨-, last, h⟩
  all_goals
    simp only [route, h]
    rfl

/-- The estimates a call leaves: those before it and the caller's. -/
theorem mem_rateEstimate_route (r : APISRouter K) (a : ℤ) (tNow : K) {b : ℤ} :
    b ∈ (r.route a tNow).1.estimator.rateEstimate ↔ b = a ∨ b ∈ r.estimator.rateEstimate := by
  have hupd : b ∈ (r.estimator.update a tNow).rateEstimate ↔ b = a ∨ b ∈ r.estimator.rateEstimate :=
    Dict.mem_insert
  rcases refresh_cases { r with estimator := r.estimator.update a tNow } tNow with
    ⟨-, h⟩ | ⟨-, last, h⟩
  all_goals
    simp only [route, h]
    exact hupd

/-- Both paths deal round robin. -/
theorem Dealt.route {r : APISRouter K} (h : Dealt r) (a : ℤ) (tNow : K) :
    Dealt (r.route a tNow).1 := by
  rcases refresh_cases { r with estimator := r.estimator.update a tNow } tNow with
    ⟨-, hr⟩ | ⟨-, last, hr⟩
  · have hdealt := dealt_rebalance { r with estimator := r.estimator.update a tNow }
    simp only [APISRouter.route, hr]
    refine Dealt.join hdealt.values fun b => ?_
    rw [hdealt.keys]
    exact Dict.mem_insert.trans
      ⟨.inr ∘ Dict.mem_insert.mpr, fun hb => hb.elim .inl Dict.mem_insert.mp⟩
  · simp only [APISRouter.route, hr]
    refine Dealt.join h.values fun b => ?_
    rw [h.keys]
    exact Dict.mem_insert

/-! ## Shards -/

theorem mem_shardAdapters {r : APISRouter K} {s : ℕ} {a : ℤ} :
    a ∈ r.shardAdapters s ↔ r.assignment.get? a = some s := by
  rw [← Dict.mem_entries_iff, shardAdapters, List.mem_map]
  constructor
  · rintro ⟨e, he, rfl⟩
    obtain ⟨he, hs⟩ := List.mem_filter.mp he
    rwa [← of_decide_eq_true hs]
  · exact fun h => ⟨_, List.mem_filter.mpr ⟨h, decide_eq_true rfl⟩, rfl⟩

/-- The adapters of a shard are as many as its positions. -/
theorem Dealt.length_shardAdapters {r : APISRouter K} (h : Dealt r) (s : ℕ) :
    (r.shardAdapters s).length
      = Nat.count (fun i => i % r.nShards = s) r.assignment.keys.length := by
  have hcount : (r.shardAdapters s).length = r.assignment.values.count s := by
    rw [shardAdapters, List.length_map, ← List.countP_eq_length_filter, Dict.values,
      List.count, List.countP_map]
    rfl
  rw [hcount, h.values, List.count, List.countP_map, Nat.count]
  rfl

/-- The shard of an adapter is in range. -/
theorem Dealt.lt_nShards {r : APISRouter K} (h : Dealt r) {s : ℕ} {a : ℤ}
    (ha : a ∈ r.shardAdapters s) : s < r.nShards := by
  have hs : s ∈ r.assignment.values :=
    List.mem_map.mpr ⟨(a, s), Dict.mem_entries_iff.mpr (mem_shardAdapters.mp ha), rfl⟩
  rw [h.values] at hs
  obtain ⟨i, -, rfl⟩ := List.mem_map.mp hs
  exact Nat.mod_lt _ r.nShards_pos

/-- Without a rebalance every adapter stays where it is. -/
theorem mem_shardAdapters_route {r : APISRouter K} {a b : ℤ} {tNow : K} {s : ℕ}
    (hdue : ¬ r.RebalanceDue tNow) (hb : b ∈ r.shardAdapters s) :
    b ∈ (r.route a tNow).1.shardAdapters s := by
  rw [mem_shardAdapters] at hb ⊢
  rcases refresh_cases { r with estimator := r.estimator.update a tNow } tNow with
    ⟨h, -⟩ | ⟨-, last, h⟩
  · exact absurd h hdue
  · simp only [route, h, join, Dict.setDefault]
    split
    · exact hb
    · rename_i ha
      have hne : a ≠ b := fun heq => ha (Dict.mem_iff_get?.mpr ⟨s, heq ▸ hb⟩)
      rw [Dict.get?_insert, if_neg hne]
      exact hb

/-- A call returns the shard of its adapter. -/
theorem mem_shardAdapters_out (r : APISRouter K) (a : ℤ) (tNow : K) :
    a ∈ (r.route a tNow).1.shardAdapters (r.route a tNow).2 := by
  have hmem : a ∈ (r.route a tNow).1.assignment := Dict.mem_setDefault.mpr (.inl rfl)
  obtain ⟨s, hs⟩ := Dict.mem_iff_get?.mp hmem
  have hout : (r.route a tNow).2 = s := by
    show (r.route a tNow).1.assignment.getD a 0 = s
    rw [Dict.getD, hs]
    rfl
  rw [mem_shardAdapters, hout, hs]

/-! ## Runs -/

/-- One request; its output is the shard it goes to. -/
def Request (r : APISRouter K) (c : ℤ × K) (shard : ℕ) (r' : APISRouter K) : Prop :=
  r.route c.1 c.2 = (r', shard)

/-- The adapters are spread evenly over the shards. -/
structure Balanced (r : APISRouter K) : Prop where
  positions : ∀ s, (r.shardAdapters s).length
    = Nat.count (fun i => i % r.nShards = s) r.assignment.keys.length
  close : ∀ s < r.nShards, ∀ s' < r.nShards,
    (r.shardAdapters s).length ≤ (r.shardAdapters s').length + 1
  ceil : ∀ s, (r.shardAdapters s).length
    ≤ (r.assignment.keys.length + r.nShards - 1) / r.nShards

omit [Field K] [LinearOrder K] in
/-- One more than the quotient is reached only when something is left over. -/
theorem div_add_ite_le_ceil {n : ℕ} (hn : 0 < n) (N s : ℕ) :
    N / n + (if s < N % n then 1 else 0) ≤ (N + n - 1) / n := by
  rw [Nat.le_div_iff_mul_le hn, Nat.add_mul]
  have hN := Nat.div_add_mod' N n
  split
  · omega
  · omega

theorem Dealt.balanced {r : APISRouter K} (h : Dealt r) : Balanced r := by
  have hlen : ∀ s < r.nShards, (r.shardAdapters s).length
      = r.assignment.keys.length / r.nShards
        + if s < r.assignment.keys.length % r.nShards then 1 else 0 := by
    intro s hs
    rw [h.length_shardAdapters, ← Nat.mod_eq_of_lt hs, ← Nat.count_modEq_card _ r.nShards_pos]
    rfl
  refine ⟨h.length_shardAdapters, fun s hs s' hs' => ?_, fun s => ?_⟩
  · rw [hlen s hs, hlen s' hs']
    split <;> split <;> omega
  · rcases Nat.lt_or_ge s r.nShards with hs | hs
    · rw [hlen s hs]
      exact div_add_ite_le_ceil r.nShards_pos _ s
    · refine (List.length_eq_zero_iff.mpr (List.eq_nil_iff_forall_not_mem.mpr ?_)).le.trans
        (Nat.zero_le _)
      exact fun a ha => Nat.not_lt.mpr hs (h.lt_nShards ha)

theorem nShards_init (nShards : ℕ) (hn : 0 < nShards) (rebalanceS alpha : K) (hpos : 0 < alpha)
    (hlt : alpha < 1) (initialRates : Option (Dict ℤ K)) :
    (init nShards hn rebalanceS alpha hpos hlt initialRates).nShards = nShards := by
  unfold init
  cases initialRates with
  | none => rfl
  | some rates =>
      simp only
      split <;> rfl

/-- The round-robin invariant of a run; no estimate is ever forgotten. -/
theorem dealt_of_run {nShards : ℕ} {hn : 0 < nShards} {rebalanceS alpha : K}
    {hpos : 0 < alpha} {hlt : alpha < 1} {initialRates : Option (Dict ℤ K)}
    {tr : List (Event (APISRouter K) (ℤ × K) ℕ)} {r : APISRouter K}
    (h : Exec Request (init nShards hn rebalanceS alpha hpos hlt initialRates) tr r) :
    Dealt r ∧ r.nShards = nShards ∧ ∀ e ∈ tr, e.label.1 ∈ r.estimator.rateEstimate := by
  induction h with
  | nil =>
      exact ⟨dealt_init _ _ _ _ _ _ _, nShards_init _ _ _ _ _ _ _, fun e he => by cases he⟩
  | @snoc tr r r' c shard hpath hreq ih =>
      obtain ⟨hdealt, hsame, hrouted⟩ := ih
      obtain rfl : (r.route c.1 c.2).1 = r' := congrArg Prod.fst hreq
      refine ⟨hdealt.route c.1 c.2, (nShards_route r c.1 c.2).trans hsame, fun e he => ?_⟩
      refine (mem_rateEstimate_route r c.1 c.2).mpr ?_
      rcases List.mem_append.mp he with hold | hnew
      · exact .inr (hrouted e hold)
      · obtain rfl := List.mem_singleton.mp hnew
        exact .inl rfl

/-- **APIS** keeps the shards balanced in every run, never loses an adapter it has
routed, and moves adapters only when it rebalances. -/
theorem shards_stay_balanced {nShards : ℕ} {hn : 0 < nShards} {rebalanceS alpha : K}
    {hpos : 0 < alpha} {hlt : alpha < 1} {initialRates : Option (Dict ℤ K)}
    {tr : List (Event (APISRouter K) (ℤ × K) ℕ)} {r : APISRouter K}
    (h : Exec Request (init nShards hn rebalanceS alpha hpos hlt initialRates) tr r) :
    Balanced r
      ∧ (∀ e ∈ tr, e.label.1 ∈ e.post.shardAdapters e.out
        ∧ ∃ s < nShards, ∀ s', e.label.1 ∈ r.shardAdapters s' ↔ s' = s)
      ∧ ∀ e ∈ tr, ¬ e.pre.RebalanceDue e.label.2 →
        ∀ a s, a ∈ e.pre.shardAdapters s → a ∈ e.post.shardAdapters s := by
  have hstep : ∀ e ∈ tr, e.post = (e.pre.route e.label.1 e.label.2).1
      ∧ e.out = (e.pre.route e.label.1 e.label.2).2 := by
    intro e he
    have hroute : e.pre.route e.label.1 e.label.2 = (e.post, e.out) := h.step_of_mem e he
    rw [hroute]
    exact ⟨rfl, rfl⟩
  obtain ⟨hdealt, hn, hrouted⟩ := dealt_of_run h
  refine ⟨hdealt.balanced, fun e he => ⟨?_, ?_⟩, fun e he hdue a s ha => ?_⟩
  · rw [(hstep e he).1, (hstep e he).2]
    exact mem_shardAdapters_out e.pre _ _
  · obtain ⟨s, hs⟩ := Dict.mem_iff_get?.mp ((hdealt.keys _).mpr (hrouted e he))
    refine ⟨s, hn ▸ hdealt.lt_nShards (mem_shardAdapters.mpr hs), fun s' => ?_⟩
    rw [mem_shardAdapters, hs, Option.some.injEq, eq_comm]
  · rw [(hstep e he).1]
    exact mem_shardAdapters_route hdue ha

/-- Three adapters on two shards. -/
def threeOnTwo : APISRouter ℚ :=
  init 2 Nat.two_pos 30 (1 / 5) (by decide +kernel) (by decide +kernel)
    (some (Dict.ofKeys [5, 6, 7] 1))

/-- A fourth joins the second shard. -/
theorem threeOnTwo_join_balanced :
    ∃ tr r, Exec Request threeOnTwo tr r ∧ r.shardAdapters 1 = [6, 8] ∧ Balanced r := by
  have h : Exec Request threeOnTwo [⟨_, (8, 0), 1, (threeOnTwo.route 8 0).1⟩] _ :=
    Exec.single (by
      have hshard : (threeOnTwo.route 8 0).2 = 1 := by decide +kernel
      rw [Request, ← hshard])
  exact ⟨_, _, h, by decide +kernel, (shards_stay_balanced h).1⟩

end APISRouter

end AdapterSlots
