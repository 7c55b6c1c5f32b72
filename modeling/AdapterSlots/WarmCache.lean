import Mathlib.Analysis.Complex.Exponential
import AdapterSlots.Lib.Exec
import AdapterSlots.Lib.Recency
import AdapterSlots.Policy

/-!
# The warm set and its statistics

`WarmCacheManager` with the counters of `cache_manager.py`, over runs of
`request` and `prefetch` calls. A call may raise: `PredictivePrefetcher`
refuses a load time that is not positive, after the counters of the request
have been written.

`lowestRate_spec` and `getEvictionTarget_spec` say what the rate-based
policies choose; `OldestFirst` carries the choice of the others. The
invariant of a run is `Consistent`.
-/

namespace AdapterSlots

open Lib

variable {K : Type} [Field K] [LinearOrder K]

/-! ## The counters -/

structure WarmStats (K : Type) where
  hits : Dict String ℕ
  misses : Dict String ℕ
  coldStartMsTotal : Dict String K
  totalRequests : ℕ
  totalHits : ℕ
  totalMisses : ℕ
  totalEvictions : ℕ

namespace WarmStats

def init : WarmStats K := ⟨.empty, .empty, .empty, 0, 0, 0, 0⟩

/-- What a request counts before it looks the adapter up. -/
def seen (c : WarmStats K) (k : String) : WarmStats K :=
  { c with
    totalRequests := c.totalRequests + 1
    hits := c.hits.setDefault k 0
    misses := c.misses.setDefault k 0
    coldStartMsTotal := c.coldStartMsTotal.setDefault k 0 }

def hit (c : WarmStats K) (k : String) : WarmStats K :=
  { c with
    hits := c.hits.insert k (c.hits.getD k 0 + 1)
    totalHits := c.totalHits + 1 }

def miss (c : WarmStats K) (k : String) (tauLoadMs : K) : WarmStats K :=
  { c with
    misses := c.misses.insert k (c.misses.getD k 0 + 1)
    totalMisses := c.totalMisses + 1
    coldStartMsTotal := c.coldStartMsTotal.insert k (c.coldStartMsTotal.getD k 0 + tauLoadMs) }

def evicted (c : WarmStats K) : WarmStats K := { c with totalEvictions := c.totalEvictions + 1 }

end WarmStats

/-! ## Calls -/

structure CountedWarmCache (K : Type) extends WarmCacheManager K where
  stats : WarmStats K

namespace CountedWarmCache

/-- The constructor. -/
def init (kWarmMax : ℕ) (hk : 0 < kWarmMax) (tauLoadMs : K) (policy : EvictionPolicy) :
    CountedWarmCache K :=
  ⟨⟨kWarmMax, hk, tauLoadMs, policy, .empty⟩, .init⟩

/-- Rate estimates as the calls take them; no estimates and no map at all are the
same to the policies. -/
abbrev Rates (K : Type) := Option (Dict String K)

/-- `_load`. -/
def load (env : Env K) (c : CountedWarmCache K) (k : String) (t : K) (rates : Rates K) :
    CountedWarmCache K × Except PyError Unit :=
  if c.kWarmMax ≤ c.warm.keys.length then
    match c.chooseEviction env (rates.getD .empty) with
    | .error e => (c, .error e)
    | .ok none => ({ c with toWarmCacheManager := c.touch k t }, .ok ())
    | .ok (some victim) =>
        ({ toWarmCacheManager := WarmCacheManager.touch { c with warm := c.warm.erase victim } k t
           stats := c.stats.evicted }, .ok ())
  else ({ c with toWarmCacheManager := c.touch k t }, .ok ())

/-- What a call returns. -/
inductive Reply (K : Type) where
  /-- `(was_warm, cold_start_ms)` -/
  | requested (wasWarm : Bool) (coldStartMs : K)
  /-- whether a load was triggered -/
  | prefetched (loaded : Bool)
deriving DecidableEq

def request (env : Env K) (c : CountedWarmCache K) (k : String) (rates : Rates K) (t : K) :
    CountedWarmCache K × Except PyError (Reply K) :=
  let c := { c with stats := c.stats.seen k }
  if k ∈ c.warm then
    ({ toWarmCacheManager := c.touch k t, stats := c.stats.hit k }, .ok (.requested true 0))
  else
    let r := load env { c with stats := c.stats.miss k c.tauLoadMs } k t rates
    (r.1, r.2.map fun _ => .requested false c.tauLoadMs)

def prefetch (env : Env K) (c : CountedWarmCache K) (k : String) (rates : Rates K) (t : K) :
    CountedWarmCache K × Except PyError (Reply K) :=
  if k ∈ c.warm then (c, .ok (.prefetched false))
  else
    let r := c.load env k t rates
    (r.1, r.2.map fun _ => .prefetched true)

/-- A call with its arguments and the time it reads. -/
structure Call (K : Type) where
  isRequest : Bool
  adapterId : String
  rates : Rates K
  t : K

def call (env : Env K) (c : CountedWarmCache K) (a : Call K) :
    CountedWarmCache K × Except PyError (Reply K) :=
  if a.isRequest then c.request env a.adapterId a.rates a.t
  else c.prefetch env a.adapterId a.rates a.t

/-- One call; a call that raises leaves its counters. -/
def Step (env : Env K) (c : CountedWarmCache K) (a : Call K) (out : Except PyError (Reply K))
    (c' : CountedWarmCache K) : Prop :=
  c.call env a = (c', out)

/-- The warm set of the scheduler is this one without its counters. -/
theorem request_toWarmCacheManager (env : Env K) (c : CountedWarmCache K) (k : String)
    (rates : Rates K) (t : K) :
    c.toWarmCacheManager.request env k (rates.getD .empty) t
      = (c.request env k rates t).2.map fun _ =>
        ((c.request env k rates t).1.toWarmCacheManager, decide (k ∈ c.warm),
          if k ∈ c.warm then 0 else c.tauLoadMs) := by
  unfold WarmCacheManager.request request
  by_cases hk : k ∈ c.warm
  · simp only [hk, decide_true, if_true]
    rfl
  · simp only [hk, decide_false, if_false]
    unfold WarmCacheManager.load load
    by_cases hfull : c.kWarmMax ≤ c.warm.keys.length
    · simp only [if_pos hfull]
      cases hv : c.chooseEviction env (rates.getD .empty) with
      | error e => rfl
      | ok w => cases w <;> rfl
    · simp only [if_neg hfull]
      rfl

/-! ## The eviction rules -/

/-- The adapter whose key is the least of the warm ones; `age` is the time of the last
use. -/
def EvictsLeast (env : Env K) (policy : EvictionPolicy) (tauLoadMs : K) (rates : Dict String K)
    (age : String → ℕ) (warm : List String) (victim : String) : Prop :=
  victim ∈ warm ∧ ∀ k ∈ warm,
    if rates.keys = [] then age victim ≤ age k
    else match policy with
      | .lru => age victim ≤ age k
      | .topk => rates.getD victim 0 ≤ rates.getD k 0
      | .predictive => 1 - env.exp (-rates.getD victim 0 * (tauLoadMs / 1000))
          ≤ 1 - env.exp (-rates.getD k 0 * (tauLoadMs / 1000))

/-- The loop keeps the first adapter of those with the lowest rate so far. -/
theorem lowestRate_some (rates : Dict String K) : ∀ (ks : List String) (r₀ : K) (v₀ : String),
    ∃ r v, WarmCacheManager.lowestRate rates ks (some (r₀, v₀)) = some (r, v) ∧ r ≤ r₀
      ∧ (∀ k ∈ ks, r ≤ rates.getD k 0)
      ∧ (v = v₀ ∧ r = r₀ ∨ v ∈ ks ∧ r = rates.getD v 0)
  | [], r₀, v₀ => ⟨r₀, v₀, rfl, le_rfl, by simp, .inl ⟨rfl, rfl⟩⟩
  | k :: ks, r₀, v₀ => by
      rw [WarmCacheManager.lowestRate]
      by_cases hlt : rates.getD k 0 < r₀
      · obtain ⟨r, v, hr, hle, hall, hv⟩ := lowestRate_some rates ks (rates.getD k 0) k
        simp only [if_pos hlt]
        refine ⟨r, v, hr, hle.trans hlt.le, fun b hb => ?_, .inr ?_⟩
        · rcases List.mem_cons.mp hb with rfl | hb
          · exact hle
          · exact hall b hb
        · rcases hv with ⟨rfl, rfl⟩ | ⟨hmem, hrv⟩
          · exact ⟨List.mem_cons_self .., rfl⟩
          · exact ⟨List.mem_cons_of_mem _ hmem, hrv⟩
      · obtain ⟨r, v, hr, hle, hall, hv⟩ := lowestRate_some rates ks r₀ v₀
        simp only [if_neg hlt]
        refine ⟨r, v, hr, hle, fun b hb => ?_, ?_⟩
        · rcases List.mem_cons.mp hb with rfl | hb
          · exact hle.trans (not_lt.mp hlt)
          · exact hall b hb
        · rcases hv with h | ⟨hmem, hrv⟩
          · exact .inl h
          · exact .inr ⟨List.mem_cons_of_mem _ hmem, hrv⟩

theorem lowestRate_spec (rates : Dict String K) {ks : List String} (hne : ks ≠ []) :
    ∃ v ∈ ks, (WarmCacheManager.lowestRate rates ks none).map Prod.snd = some v
      ∧ ∀ k ∈ ks, rates.getD v 0 ≤ rates.getD k 0 := by
  obtain ⟨k, ks, rfl⟩ := List.exists_cons_of_ne_nil hne
  obtain ⟨r, v, hr, hle, hall, hv⟩ := lowestRate_some rates ks (rates.getD k 0) k
  have hrv : r = rates.getD v 0 := by
    rcases hv with ⟨rfl, rfl⟩ | ⟨-, hrv⟩
    · rfl
    · exact hrv
  refine ⟨v, ?_, congrArg (Option.map Prod.snd) hr, fun b hb => hrv ▸ ?_⟩
  · rcases hv with ⟨rfl, -⟩ | ⟨hmem, -⟩
    · exact List.mem_cons_self ..
    · exact List.mem_cons_of_mem _ hmem
  · rcases List.mem_cons.mp hb with rfl | hb
    · exact hle
    · exact hall b hb

omit [Field K] [LinearOrder K] in
/-- A sort under a total order begins with a least element. -/
theorem head_insertionSort {α : Type} (r : α → α → Prop) [DecidableRel r] [Std.Total r]
    [IsTrans α r] {l : List α} (hne : l ≠ []) :
    ∃ a ∈ l, (l.insertionSort r).head? = some a ∧ ∀ b ∈ l, r a b := by
  have hperm := List.perm_insertionSort r l
  cases hsort : l.insertionSort r with
  | nil => exact absurd (hperm.symm.trans (.of_eq hsort)).eq_nil hne
  | cons a as =>
      rw [hsort] at hperm
      have hpair : (a :: as).Pairwise r := hsort ▸ List.pairwise_insertionSort r l
      refine ⟨a, hperm.mem_iff.mp (List.mem_cons_self ..), rfl, fun b hb => ?_⟩
      rcases List.mem_cons.mp (hperm.mem_iff.mpr hb) with rfl | hb
      · exact (Std.Total.total b b).elim id id
      · exact List.rel_of_pairwise_cons hpair hb

/-- Lower scores first, equal scores by the name. -/
abbrev ScoreLe (a b : K × String) : Prop := a.1 < b.1 ∨ a.1 = b.1 ∧ a.2 ≤ b.2

omit [Field K] in
theorem total_scoreLe : Std.Total (ScoreLe : K × String → K × String → Prop) :=
  ⟨fun a b => by
    rcases lt_trichotomy a.1 b.1 with h | h | h
    · exact .inl (.inl h)
    · exact (le_total a.2 b.2).imp (fun hle => .inr ⟨h, hle⟩) fun hle => .inr ⟨h.symm, hle⟩
    · exact .inr (.inl h)⟩

omit [Field K] in
theorem isTrans_scoreLe : IsTrans (K × String) ScoreLe :=
  ⟨fun a b c hab hbc => by
    rcases hab with hab | ⟨hab, hab'⟩
    · rcases hbc with hbc | ⟨hbc, -⟩
      · exact .inl (hab.trans hbc)
      · exact .inl (hbc ▸ hab)
    · rcases hbc with hbc | ⟨hbc, hbc'⟩
      · exact .inl (hab ▸ hbc)
      · exact .inr ⟨hab.trans hbc, hab'.trans hbc'⟩⟩

theorem getEvictionTarget_spec (env : Env K) (tau : K) (rates : Dict String K) {ks : List String}
    (hne : ks ≠ []) :
    ∃ v ∈ ks, WarmCacheManager.getEvictionTarget env tau rates ks = some v
      ∧ ∀ k ∈ ks, WarmCacheManager.evictionScore env (rates.getD v 0) tau
        ≤ WarmCacheManager.evictionScore env (rates.getD k 0) tau := by
  have := total_scoreLe (K := K)
  have := isTrans_scoreLe (K := K)
  obtain ⟨a, ha, hhead, hleast⟩ := head_insertionSort ScoreLe
    (l := ks.map fun k => (WarmCacheManager.evictionScore env (rates.getD k 0) tau, k))
    (by simpa using hne)
  obtain ⟨v, hv, rfl⟩ := List.mem_map.mp ha
  refine ⟨v, hv, congrArg (Option.map Prod.snd) hhead, fun k hk => ?_⟩
  rcases hleast _ (List.mem_map_of_mem hk) with hlt | ⟨heq, -⟩
  · exact hlt.le
  · exact heq.le

/-- The choice in a warm set that is not empty is a warm adapter. -/
theorem chooseEviction_ok {env : Env K} {m : WarmCacheManager K} {rates : Dict String K}
    {w : Option String} (hne : m.warm.keys ≠ []) (h : m.chooseEviction env rates = .ok w) :
    ∃ v ∈ m.warm, w = some v := by
  obtain ⟨v₀, ks, hks⟩ := List.exists_cons_of_ne_nil hne
  have hv₀ : v₀ ∈ m.warm.keys := hks ▸ List.mem_cons_self ..
  have hhead : m.warm.keys.head? = some v₀ := hks ▸ rfl
  obtain ⟨v₁, hv₁, hlow, -⟩ := lowestRate_spec rates hne
  obtain ⟨v₂, hv₂, htarget, -⟩ := getEvictionTarget_spec env (m.tauLoadMs / 1000) rates hne
  unfold WarmCacheManager.chooseEviction at h
  simp only [hhead, hlow, htarget] at h
  split at h
  · exact ⟨v₀, hv₀, (Except.ok.inj h).symm⟩
  · split at h
    · exact ⟨v₀, hv₀, (Except.ok.inj h).symm⟩
    · exact ⟨v₁, hv₁, (Except.ok.inj h).symm⟩
    · split at h
      · cases h
      · exact ⟨v₂, hv₂, (Except.ok.inj h).symm⟩

theorem evictionScore_eq [IsStrictOrderedRing K] {env : Env K} (hexp : env.exp 0 = 1) {lam tau : K}
    (hlam : 0 ≤ lam) (htau : 0 < tau) :
    WarmCacheManager.evictionScore env lam tau = 1 - env.exp (-lam * tau) := by
  unfold WarmCacheManager.evictionScore
  split
  · rename_i h
    have hzero : lam = 0 := le_antisymm (h.resolve_right (not_le.mpr htau)) hlam
    rw [hzero, neg_zero, zero_mul, hexp, sub_self]
  · rfl

/-- What `_choose_eviction` returns on a warm set that is not empty. -/
theorem chooseEviction_cases [IsStrictOrderedRing K] {env : Env K} (hexp : env.exp 0 = 1)
    {m : WarmCacheManager K} {rates : Dict String K}
    (hrates : ∀ k r, rates.get? k = some r → 0 ≤ r) {l : List String}
    (horder : OldestFirst l m.warm.keys) (hne : m.warm.keys ≠ []) :
    (m.chooseEviction env rates = .error .valueError ∧ m.policy = .predictive ∧ m.tauLoadMs ≤ 0)
      ∨ ∃ v, m.chooseEviction env rates = .ok (some v)
        ∧ EvictsLeast env m.policy m.tauLoadMs rates (lastUse l) m.warm.keys v := by
  obtain ⟨v₀, ks, hks⟩ := List.exists_cons_of_ne_nil hne
  have hv₀ : v₀ ∈ m.warm.keys := hks ▸ List.mem_cons_self ..
  have hhead : m.warm.keys.head? = some v₀ := hks ▸ rfl
  have holdest : ∀ k ∈ m.warm.keys, lastUse l v₀ ≤ lastUse l k := fun k hk =>
    (hks ▸ horder : OldestFirst l (v₀ :: ks)).head_le (hks ▸ hk)
  have hnonneg : ∀ k, 0 ≤ rates.getD k 0 := by
    intro k
    rw [Dict.getD]
    cases hget : rates.get? k with
    | none => exact le_rfl
    | some r => exact hrates k r hget
  unfold WarmCacheManager.chooseEviction EvictsLeast
  by_cases hempty : rates.keys = []
  · simp only [hempty, or_true, if_true]
    exact .inr ⟨v₀, congrArg _ hhead, hv₀, holdest⟩
  · simp only [hne, hempty, or_self, if_false]
    cases hpol : m.policy with
    | lru => exact .inr ⟨v₀, congrArg _ hhead, hv₀, holdest⟩
    | topk =>
        obtain ⟨v, hv, hlow, hleast⟩ := lowestRate_spec rates hne
        exact .inr ⟨v, congrArg _ hlow, hv, hleast⟩
    | predictive =>
        by_cases htau : m.tauLoadMs ≤ 0
        · exact .inl ⟨if_pos htau, rfl, htau⟩
        · have hpos : 0 < m.tauLoadMs / 1000 := div_pos (not_le.mp htau) (by norm_num)
          obtain ⟨v, hv, htarget, hleast⟩ :=
            getEvictionTarget_spec env (m.tauLoadMs / 1000) rates hne
          refine .inr ⟨v, ?_, hv, fun k hk => ?_⟩
          · simp only [if_neg htau, htarget]
          · have hk' := hleast k hk
            rwa [evictionScore_eq hexp (hnonneg v) hpos, evictionScore_eq hexp (hnonneg k) hpos]
              at hk'

/-! ## What a call does -/

/-- The counters of a cold call before it loads. -/
def coldStats (c : CountedWarmCache K) (a : Call K) : WarmStats K :=
  if a.isRequest then (c.stats.seen a.adapterId).miss a.adapterId c.tauLoadMs else c.stats

def coldReply (c : CountedWarmCache K) (a : Call K) : Reply K :=
  if a.isRequest then .requested false c.tauLoadMs else .prefetched true

/-- The results of a call, one constructor for each way through it. -/
inductive Outcome (env : Env K) (c : CountedWarmCache K) (a : Call K) :
    Except PyError (Reply K) → CountedWarmCache K → Prop
  | hit : a.isRequest → a.adapterId ∈ c.warm → Outcome env c a (.ok (.requested true 0))
      ⟨c.touch a.adapterId a.t, (c.stats.seen a.adapterId).hit a.adapterId⟩
  | skip : ¬ a.isRequest → a.adapterId ∈ c.warm → Outcome env c a (.ok (.prefetched false)) c
  | load : a.adapterId ∉ c.warm → c.warm.keys.length < c.kWarmMax →
      Outcome env c a (.ok (coldReply c a)) ⟨c.touch a.adapterId a.t, coldStats c a⟩
  | evict (victim : String) : a.adapterId ∉ c.warm → c.kWarmMax ≤ c.warm.keys.length →
      victim ∈ c.warm → c.chooseEviction env (a.rates.getD .empty) = .ok (some victim) →
      Outcome env c a (.ok (coldReply c a))
        ⟨WarmCacheManager.touch { c with warm := c.warm.erase victim } a.adapterId a.t,
          (coldStats c a).evicted⟩
  | raise (e : PyError) : a.adapterId ∉ c.warm → c.kWarmMax ≤ c.warm.keys.length →
      c.chooseEviction env (a.rates.getD .empty) = .error e →
      Outcome env c a (.error e) { c with stats := coldStats c a }

theorem Outcome.of_step {env : Env K} {c c' : CountedWarmCache K} {a : Call K}
    {out : Except PyError (Reply K)} (h : Step env c a out c') : Outcome env c a out c' := by
  have hcold : ∀ {r : CountedWarmCache K × Except PyError Unit}, a.adapterId ∉ c.warm →
      CountedWarmCache.load env { c with stats := coldStats c a } a.adapterId a.t a.rates = r →
      Outcome env c a (r.2.map fun _ => coldReply c a) r.1 := by
    intro r hk hload
    subst hload
    unfold CountedWarmCache.load
    by_cases hfull : c.kWarmMax ≤ c.warm.keys.length
    · have hwarm : c.warm.keys ≠ [] := List.ne_nil_of_length_pos (c.kWarmMax_pos.trans_le hfull)
      simp only [if_pos hfull]
      cases hv : c.chooseEviction env (a.rates.getD .empty) with
      | error e => exact .raise e hk hfull hv
      | ok w =>
          obtain ⟨victim, hmem, rfl⟩ := chooseEviction_ok hwarm hv
          exact .evict victim hk hfull hmem hv
    · simp only [if_neg hfull]
      exact .load hk (not_le.mp hfull)
  unfold Step call at h
  by_cases hreq : a.isRequest
  · rw [if_pos hreq] at h
    unfold request at h
    by_cases hk : a.adapterId ∈ c.warm
    · simp only [if_pos hk] at h
      obtain ⟨rfl, rfl⟩ := Prod.mk.inj h
      exact .hit hreq hk
    · simp only [if_neg hk] at h
      obtain ⟨rfl, rfl⟩ := Prod.mk.inj h
      have hout := hcold hk rfl
      simpa only [coldStats, coldReply, if_pos hreq] using hout
  · rw [if_neg hreq] at h
    unfold prefetch at h
    by_cases hk : a.adapterId ∈ c.warm
    · simp only [if_pos hk] at h
      obtain ⟨rfl, rfl⟩ := Prod.mk.inj h
      exact .skip hreq hk
    · simp only [if_neg hk] at h
      obtain ⟨rfl, rfl⟩ := Prod.mk.inj h
      have hout := hcold hk rfl
      simpa only [coldStats, coldReply, if_neg hreq] using hout

/-! ## The invariant of a run -/

abbrev History (K : Type) :=
  List (Event (CountedWarmCache K) (Call K) (Except PyError (Reply K)))

/-- The call hit or loaded its adapter. -/
def usedAdapter (e : Event (CountedWarmCache K) (Call K) (Except PyError (Reply K))) :
    Option String :=
  match e.out with
  | .error _ => none
  | .ok (.prefetched false) => none
  | .ok _ => some e.label.adapterId

/-- The hits and loads of a run in their order. -/
def uses (tr : History K) : List String := tr.filterMap usedAdapter

def isLoad (e : Event (CountedWarmCache K) (Call K) (Except PyError (Reply K))) : Bool :=
  match e.out with
  | .ok (.requested false _) => true
  | .ok (.prefetched true) => true
  | _ => false

def loads (tr : History K) : ℕ := tr.countP isLoad

end CountedWarmCache

/-- The global counters are the sums of the per-adapter ones. -/
structure WarmStats.Agree (s : WarmStats K) : Prop where
  requests : s.totalRequests = s.totalHits + s.totalMisses
  hits : s.totalHits = s.hits.sumBy id
  misses : s.totalMisses = s.misses.sumBy id

omit [LinearOrder K] in
theorem WarmStats.Agree.hit {s : WarmStats K} (h : s.Agree) (k : String) :
    ((s.seen k).hit k).Agree := by
  refine ⟨?_, ?_, ?_⟩
  · have := h.requests
    show s.totalRequests + 1 = s.totalHits + 1 + s.totalMisses
    omega
  · refine Eq.trans ?_ (Dict.sumBy_count (s.hits.setDefault k 0) k).symm
    rw [Dict.sumBy_setDefault_zero, ← h.hits]
    rfl
  · exact h.misses.trans (Dict.sumBy_setDefault_zero s.misses k).symm

omit [LinearOrder K] in
theorem WarmStats.Agree.miss {s : WarmStats K} (h : s.Agree) (k : String) (tauLoadMs : K) :
    ((s.seen k).miss k tauLoadMs).Agree := by
  refine ⟨?_, ?_, ?_⟩
  · have := h.requests
    show s.totalRequests + 1 = s.totalHits + (s.totalMisses + 1)
    omega
  · exact h.hits.trans (Dict.sumBy_setDefault_zero s.hits k).symm
  · refine Eq.trans ?_ (Dict.sumBy_count (s.misses.setDefault k 0) k).symm
    rw [Dict.sumBy_setDefault_zero, ← h.misses]
    rfl

namespace CountedWarmCache

omit [LinearOrder K] in
theorem agree_coldStats {c : CountedWarmCache K} (h : c.stats.Agree) (a : Call K) :
    (coldStats c a).Agree := by
  unfold coldStats
  split
  · exact h.miss _ _
  · exact h

omit [LinearOrder K] in
theorem totalEvictions_coldStats (c : CountedWarmCache K) (a : Call K) :
    (coldStats c a).totalEvictions = c.stats.totalEvictions := by
  unfold coldStats
  split <;> rfl

omit [Field K] [LinearOrder K] in
theorem keys_touch (m : WarmCacheManager K) (k : String) (t : K) :
    (m.touch k t).warm.keys = m.warm.keys.filter (fun k' => decide (k' ≠ k)) ++ [k] := by
  have hnot : k ∉ m.warm.erase k := fun h => (Dict.mem_erase.mp h).2 rfl
  show ((m.warm.erase k).insert k t).keys = _
  rw [Dict.keys_insert, if_neg hnot, Dict.keys_erase]

omit [Field K] [LinearOrder K] in
theorem mem_touch {m : WarmCacheManager K} {k k' : String} {t : K} :
    k' ∈ (m.touch k t).warm ↔ k' = k ∨ k' ∈ m.warm := by
  show k' ∈ (m.warm.erase k).insert k t ↔ _
  rw [Dict.mem_insert, Dict.mem_erase]
  tauto

omit [Field K] [LinearOrder K] in
theorem length_touch_of_mem {m : WarmCacheManager K} {k : String} {t : K} (h : k ∈ m.warm) :
    (m.touch k t).warm.keys.length = m.warm.keys.length := by
  rw [keys_touch, ← Dict.keys_erase, List.length_append, List.length_singleton,
    Dict.length_keys_erase h]

omit [Field K] [LinearOrder K] in
theorem length_touch_of_not_mem {m : WarmCacheManager K} {k : String} {t : K} (h : k ∉ m.warm) :
    (m.touch k t).warm.keys.length = m.warm.keys.length + 1 := by
  rw [keys_touch, filter_ne_of_not_mem fun hin => h (Dict.mem_def.mpr hin), List.length_append,
    List.length_singleton]

/-- The invariant of a run with history `tr`. -/
structure Consistent (kWarmMax : ℕ) (policy : EvictionPolicy) (tauLoadMs : K) (tr : History K)
    (c : CountedWarmCache K) : Prop where
  size : c.kWarmMax = kWarmMax
  policy : c.policy = policy
  tau : c.tauLoadMs = tauLoadMs
  capacity : c.warm.keys.length ≤ c.kWarmMax
  order : OldestFirst (uses tr) c.warm.keys
  stats : c.stats.Agree
  loads : loads tr = c.stats.totalEvictions + c.warm.keys.length

section Steps

variable {env : Env K} {kWarmMax : ℕ} {policy : EvictionPolicy} {tauLoadMs : K} {tr : History K}
  {c c' : CountedWarmCache K} {a : Call K} {out : Except PyError (Reply K)}

omit [Field K] [LinearOrder K] in
theorem uses_snoc {e : Event (CountedWarmCache K) (Call K) (Except PyError (Reply K))} :
    uses (tr ++ [e]) = uses tr ++ (usedAdapter e).toList := by
  rw [uses, List.filterMap_append, ← uses]
  cases h : usedAdapter e with
  | none => simp [h]
  | some k => simp [h]

omit [Field K] [LinearOrder K] in
theorem loads_snoc {e : Event (CountedWarmCache K) (Call K) (Except PyError (Reply K))} :
    loads (tr ++ [e]) = loads tr + if isLoad e then 1 else 0 := by
  rw [loads, List.countP_append, List.countP_singleton, loads]

omit [Field K] [LinearOrder K] in
theorem usedAdapter_cold {e : Event (CountedWarmCache K) (Call K) (Except PyError (Reply K))}
    (h : e.out = .ok (coldReply c e.label)) : usedAdapter e = some e.label.adapterId := by
  unfold usedAdapter
  rw [h, coldReply]
  by_cases hreq : e.label.isRequest <;> simp [hreq]

omit [Field K] [LinearOrder K] in
theorem isLoad_cold {e : Event (CountedWarmCache K) (Call K) (Except PyError (Reply K))}
    (h : e.out = .ok (coldReply c e.label)) : isLoad e = true := by
  unfold isLoad
  rw [h, coldReply]
  by_cases hreq : e.label.isRequest <;> simp [hreq]

/-- Every way through a call keeps the invariant. -/
theorem Consistent.step (h : Consistent kWarmMax policy tauLoadMs tr c)
    (hout : Outcome env c a out c') :
    Consistent kWarmMax policy tauLoadMs (tr ++ [⟨c, a, out, c'⟩]) c' := by
  cases hout with
  | hit _ hk =>
      refine ⟨h.size, h.policy, h.tau, (length_touch_of_mem hk).trans_le h.capacity, ?_,
        h.stats.hit a.adapterId, ?_⟩
      · rw [uses_snoc, keys_touch]
        exact h.order.use a.adapterId
      · rw [loads_snoc, length_touch_of_mem hk]
        exact h.loads
  | skip _ hk =>
      refine ⟨h.size, h.policy, h.tau, h.capacity, ?_, h.stats, ?_⟩
      · rw [uses_snoc]
        exact (List.append_nil _).symm ▸ h.order
      · rw [loads_snoc]
        exact h.loads
  | load hk hroom =>
      refine ⟨h.size, h.policy, h.tau, (length_touch_of_not_mem hk).trans_le hroom, ?_,
        agree_coldStats h.stats a, ?_⟩
      · rw [uses_snoc, usedAdapter_cold rfl, keys_touch]
        exact h.order.use a.adapterId
      · rw [loads_snoc, isLoad_cold rfl, length_touch_of_not_mem hk, h.loads,
          totalEvictions_coldStats]
        rfl
  | evict victim hk hfull hmem hv =>
      have hk' : a.adapterId ∉ c.warm.erase victim := fun hin => hk (Dict.mem_erase.mp hin).1
      have hlen := Dict.length_keys_erase hmem
      have htouch : (WarmCacheManager.touch { c with warm := c.warm.erase victim } a.adapterId
          a.t).warm.keys.length = (c.warm.erase victim).keys.length + 1 :=
        length_touch_of_not_mem hk'
      refine ⟨h.size, h.policy, h.tau, (htouch.trans hlen).trans_le h.capacity, ?_,
        ?_, ?_⟩
      · rw [uses_snoc, usedAdapter_cold rfl, keys_touch, Dict.keys_erase]
        exact (h.order.sublist List.filter_sublist).use a.adapterId
      · obtain ⟨hreq, hhits, hmisses⟩ := agree_coldStats h.stats a
        exact ⟨hreq, hhits, hmisses⟩
      · rw [loads_snoc, isLoad_cold rfl, htouch, hlen, h.loads]
        show _ = (coldStats c a).totalEvictions + 1 + _
        rw [totalEvictions_coldStats, if_pos rfl]
        omega
  | raise e hk hfull hv =>
      refine ⟨h.size, h.policy, h.tau, h.capacity, ?_, agree_coldStats h.stats a, ?_⟩
      · rw [uses_snoc]
        exact (List.append_nil _).symm ▸ h.order
      · rw [loads_snoc, totalEvictions_coldStats]
        exact h.loads

theorem consistent_of_run {hk : 0 < kWarmMax}
    (h : Exec (Step env) (init kWarmMax hk tauLoadMs policy) tr c) :
    Consistent kWarmMax policy tauLoadMs tr c := by
  induction h with
  | nil =>
      exact ⟨rfl, rfl, rfl, Nat.zero_le _, OldestFirst.nil _, ⟨rfl, rfl, rfl⟩, rfl⟩
  | snoc _ hstep ih => exact ih.step (Outcome.of_step hstep)

/-- What a call reports, and what it does to the warm set; `l` are the hits and loads
before it. -/
structure Meets (env : Env K) (l : List String)
    (e : Event (CountedWarmCache K) (Call K) (Except PyError (Reply K))) : Prop where
  reported : e.label.isRequest → ∀ reply, e.out = .ok reply →
    ∃ ms, reply = .requested (decide (e.label.adapterId ∈ e.pre.warm)) ms
  warm : ∀ reply, e.out = .ok reply → e.label.adapterId ∈ e.post.warm
  entered : ∀ k ∈ e.post.warm, k = e.label.adapterId ∨ k ∈ e.pre.warm
  left : ∀ v ∈ e.pre.warm, v ∉ e.post.warm →
    v ≠ e.label.adapterId ∧ (∀ v' ∈ e.pre.warm, v' ∉ e.post.warm → v' = v)
      ∧ e.label.adapterId ∉ e.pre.warm ∧ e.pre.warm.keys.length = e.pre.kWarmMax
      ∧ EvictsLeast env e.pre.policy e.pre.tauLoadMs (e.label.rates.getD .empty) (lastUse l)
        e.pre.warm.keys v
  raised : ∀ err, e.out = .error err → e.post.warm = e.pre.warm ∧ e.label.adapterId ∉ e.pre.warm
    ∧ e.pre.policy = .predictive ∧ e.pre.tauLoadMs ≤ 0

omit [Field K] [LinearOrder K] in
/-- A touch of a smaller warm set loses what that lost. -/
theorem not_mem_of_not_mem_touch {m : WarmCacheManager K} {k v : String} {t : K}
    (h : v ∉ (m.touch k t).warm) : v ≠ k ∧ v ∉ m.warm := by
  rw [mem_touch, not_or] at h
  exact h

theorem Outcome.meets [IsStrictOrderedRing K] (hexp : env.exp 0 = 1)
    (h : Consistent kWarmMax policy tauLoadMs tr c)
    (hrates : ∀ rates ∈ a.rates, ∀ k r, rates.get? k = some r → 0 ≤ r)
    (hout : Outcome env c a out c') : Meets env (uses tr) ⟨c, a, out, c'⟩ := by
  have hnonneg : ∀ k r, (a.rates.getD .empty).get? k = some r → 0 ≤ r := by
    cases hr : a.rates with
    | none => exact fun k r hk => by cases hk
    | some rates => exact hrates rates hr
  have hfresh : ∀ {P : Prop} {v : String}, v ∈ c.warm →
      v ∉ (c.touch a.adapterId a.t).warm → P := fun hv hnot =>
    absurd hv (not_mem_of_not_mem_touch hnot).2
  cases hout with
  | hit hreq hk =>
      refine ⟨fun _ reply hr => ?_, fun _ _ => mem_touch.mpr (.inl rfl), fun _ => mem_touch.mp,
        fun v hv hnot => hfresh hv hnot, fun err he => by cases he⟩
      obtain rfl := Except.ok.inj hr
      exact ⟨0, by rw [decide_eq_true hk]⟩
  | skip hreq hk =>
      exact ⟨fun h => absurd h hreq, fun _ _ => hk, fun _ => .inr, fun v hv hnot => absurd hv hnot,
        fun err he => by cases he⟩
  | load hk hroom =>
      refine ⟨fun hreq reply hr => ?_, fun _ _ => mem_touch.mpr (.inl rfl), fun _ => mem_touch.mp,
        fun v hv hnot => hfresh hv hnot, fun err he => by cases he⟩
      obtain rfl := Except.ok.inj hr
      exact ⟨c.tauLoadMs, by rw [coldReply, if_pos hreq, decide_eq_false hk]⟩
  | evict victim hk hfull hmem hv =>
      have hleft : ∀ v ∈ c.warm, v ∉ (WarmCacheManager.touch
          { c with warm := c.warm.erase victim } a.adapterId a.t).warm → v = victim := by
        intro v hv hnot
        have hgone := (not_mem_of_not_mem_touch hnot).2
        by_contra hne
        exact hgone (Dict.mem_erase.mpr ⟨hv, hne⟩)
      refine ⟨fun hreq reply hr => ?_, fun _ _ => mem_touch.mpr (.inl rfl), fun k hin => ?_,
        fun v hv' hnot => ?_, fun err he => by cases he⟩
      · obtain rfl := Except.ok.inj hr
        exact ⟨c.tauLoadMs, by rw [coldReply, if_pos hreq, decide_eq_false hk]⟩
      · exact (mem_touch.mp hin).imp_right fun hin => (Dict.mem_erase.mp hin).1
      · obtain rfl := hleft v hv' hnot
        have hne : c.warm.keys ≠ [] := List.ne_nil_of_mem hv'
        refine ⟨(not_mem_of_not_mem_touch hnot).1, hleft, hk, le_antisymm h.capacity hfull, ?_⟩
        rcases chooseEviction_cases hexp hnonneg h.order hne with ⟨herr, -⟩ | ⟨v', hv'', hleast⟩
        · rw [hv] at herr
          cases herr
        · obtain rfl := Option.some.inj (Except.ok.inj (hv.symm.trans hv''))
          exact hleast
  | raise e hk hfull hv =>
      refine ⟨fun _ reply hr => (by cases hr), fun reply hr => (by cases hr), fun _ => .inr,
        fun v hv hnot => absurd hv hnot, fun err _ => ?_⟩
      have hne : c.warm.keys ≠ [] := List.ne_nil_of_length_pos (c.kWarmMax_pos.trans_le hfull)
      rcases chooseEviction_cases hexp hnonneg h.order hne with ⟨-, hpol, htau⟩ | ⟨v, hok, -⟩
      · exact ⟨rfl, hk, hpol, htau⟩
      · rw [hv] at hok
        cases hok

end Steps

/-- **The warm set** in every run: it never exceeds its size, every call does what
`Meets` says of it, the counters agree, and loads minus evictions are its size. -/
theorem warm_set_stays_consistent {env : Env ℝ} (hexp : env.exp = Real.exp) {kWarmMax : ℕ}
    {hk : 0 < kWarmMax} {policy : EvictionPolicy} {tauLoadMs : ℝ} {tr : History ℝ}
    {c : CountedWarmCache ℝ} (h : Exec (Step env) (init kWarmMax hk tauLoadMs policy) tr c)
    (hrates : ∀ e ∈ tr, ∀ rates ∈ e.label.rates, ∀ k r, rates.get? k = some r → 0 ≤ r) :
    c.warm.keys.length ≤ kWarmMax
      ∧ (∀ tr₁ e tr₂, tr = tr₁ ++ e :: tr₂ → Meets env (uses tr₁) e
        ∧ e.pre.kWarmMax = kWarmMax ∧ e.pre.policy = policy ∧ e.pre.tauLoadMs = tauLoadMs)
      ∧ c.stats.totalRequests = c.stats.totalHits + c.stats.totalMisses
      ∧ c.stats.totalHits = c.stats.hits.sumBy id
      ∧ c.stats.totalMisses = c.stats.misses.sumBy id
      ∧ loads tr = c.stats.totalEvictions + c.warm.keys.length := by
  have hexp0 : env.exp 0 = 1 := by rw [hexp, Real.exp_zero]
  have hend := consistent_of_run h
  refine ⟨hend.size ▸ hend.capacity, fun tr₁ e tr₂ heq => ?_, hend.stats.requests,
    hend.stats.hits, hend.stats.misses, hend.loads⟩
  have he : e ∈ tr := heq ▸ List.mem_append_right _ (List.mem_cons_self ..)
  have hpre := consistent_of_run (h.before_event heq)
  have hout := Outcome.of_step (h.step_of_mem e he)
  exact ⟨hout.meets hexp0 hpre (hrates e he), hpre.size, hpre.policy, hpre.tau⟩

/-! ### One warm slot -/

/-- The scheduler's part of the surroundings is not called here. -/
noncomputable def realEnv : Env ℝ where
  gammainc _ _ := 0
  gammaincinv _ _ := 0
  exp := Real.exp
  hash _ := 0
  setOrder l := l
  setOrder_perm _ _ := List.Perm.refl _

/-- A request for "a", then a prefetch of "b" with a rate known. -/
def evictingCalls : List (Call ℝ) :=
  [⟨true, "a", none, 0⟩, ⟨false, "b", some (Dict.ofKeys ["b"] 3), 1⟩]

/-- The prefetch evicts "a". -/
theorem one_slot_consistent : ∃ tr c,
    Exec (Step realEnv) (init 1 one_pos (200 : ℝ) .topk) tr c
      ∧ tr.map Event.label = evictingCalls ∧ c.warm.keys = ["b"] ∧ c.stats.totalEvictions = 1
      ∧ loads tr = c.stats.totalEvictions + c.warm.keys.length := by
  have h : Exec (Step realEnv) (init 1 one_pos (200 : ℝ) .topk)
      [⟨_, ⟨true, "a", none, 0⟩, _, _⟩, ⟨_, ⟨false, "b", some (Dict.ofKeys ["b"] 3), 1⟩, _, _⟩] _ :=
    .snoc (.snoc .nil rfl) rfl
  refine ⟨_, _, h, rfl, rfl, rfl, (warm_set_stays_consistent rfl h ?_).2.2.2.2.2⟩
  intro e he rates hrates k r hget
  rcases List.mem_cons.mp he with rfl | he
  · cases hrates
  · obtain rfl := List.mem_singleton.mp he
    obtain rfl := Option.some.inj hrates
    rw [Dict.get?_ofKeys] at hget
    split at hget
    · obtain rfl := Option.some.inj hget
      norm_num
    · cases hget

end CountedWarmCache

end AdapterSlots
