import Mathlib.Analysis.SpecialFunctions.Exp
import AdapterSlots.Lib.Endless
import AdapterSlots.RateEstimator
import AdapterSlots.SchedulerReturn

/-!
# What the rate estimate converges to

The erlang, cash and wgkp ticks tell the estimator about arrivals. A tick
updates the rate of an adapter once, however many of its sequences are new
(`tick_updates_once`), so the estimate follows the rate of the ticks with an
arrival, and not the rate of the tokens.

`rate_tracks_iff` says for `n` new sequences every `d` seconds when the
estimate converges to `n / d`.
-/

namespace AdapterSlots

open Lib AlignmentBuffer

variable {K : Type} [Field K] [LinearOrder K]

/-- The modes that estimate rates. -/
def Config.EstimatesRates (cfg : Config K) : Prop :=
  cfg.mode = .erlang ∨ cfg.mode = .cash ∨ cfg.mode = .wgkp

namespace AlignmentAwareScheduler

/-- The new sequences of `k` a tick offers: first-time groups without an enqueue
record. -/
def newArrivals (cfg : Config K) (s : AlignmentAwareScheduler K) (i : TickInput K) (k : String) :
    List SequenceGroup :=
  ((atSplit cfg s i).firstTimeGroups i).filter fun g =>
    decide (g.adapterId = k) && !(atSplit cfg s i).buffer.isBuffered g.seqGroupId

section Tick

variable {cfg : Config K} {env : Env K} {s s' s₁ : AlignmentAwareScheduler K} {i : TickInput K}
  {call : DispatchCall K} {out batch : List SequenceGroup} {k : String}

theorem newArrivals_ne_nil : newArrivals cfg s i k ≠ []
    ↔ ∃ g ∈ (atSplit cfg s i).firstTimeGroups i, g.adapterId = k
        ∧ g.seqGroupId ∉ (atSplit cfg s i).buffer.seqEnqueue := by
  rw [newArrivals, ne_eq, List.filter_eq_nil_iff]
  push Not
  refine exists_congr fun g => and_congr_right fun _ => ?_
  rw [Bool.and_eq_true, decide_eq_true_eq, Bool.not_eq_true', isBuffered, decide_eq_false_iff_not]

/-! ## The arrival loop -/

/-- One turn of the arrival loop: `k` is updated if it was, or if the group is its
first new one. -/
theorem mem_recordArrival (a : AlignmentAwareScheduler K × List String) (g : SequenceGroup) :
    k ∈ (recordArrival i a g).2
      ↔ k ∈ a.2 ∨ (g.adapterId = k ∧ g.seqGroupId ∉ a.1.buffer.seqEnqueue) := by
  have htest : (!a.1.buffer.isBuffered g.seqGroupId && decide (g.adapterId ∉ a.2)) = true
      ↔ g.seqGroupId ∉ a.1.buffer.seqEnqueue ∧ g.adapterId ∉ a.2 := by
    rw [Bool.and_eq_true, decide_eq_true_eq, Bool.not_eq_true', isBuffered,
      decide_eq_false_iff_not]
  unfold recordArrival
  by_cases hnew : g.seqGroupId ∉ a.1.buffer.seqEnqueue ∧ g.adapterId ∉ a.2
  · rw [if_pos (htest.mpr hnew), List.mem_append, List.mem_singleton, eq_comm]
    exact or_congr_right (iff_self_and.mpr fun _ => hnew.1)
  · rw [if_neg fun h => hnew (htest.mp h)]
    refine ⟨.inl, fun h => h.elim id ?_⟩
    rintro ⟨rfl, hrec⟩
    by_contra hk
    exact hnew ⟨hrec, hk⟩

theorem nodup_recordArrival {a : AlignmentAwareScheduler K × List String} (ha : a.2.Nodup)
    (g : SequenceGroup) : (recordArrival i a g).2.Nodup := by
  unfold recordArrival
  split
  · rename_i h
    rw [Bool.and_eq_true, decide_eq_true_eq] at h
    refine List.nodup_append.mpr ⟨ha, List.nodup_singleton _, ?_⟩
    rintro k hk _ hmem rfl
    exact h.2 (List.mem_singleton.mp hmem ▸ hk)
  · exact ha

theorem buffer_recordArrival (a : AlignmentAwareScheduler K × List String) (g : SequenceGroup) :
    (recordArrival i a g).1.buffer
      = a.1.buffer.enqueue g.adapterId g.seqGroupId (i.clock.enqueue g.seqGroupId) := by
  unfold recordArrival
  split <;> rfl

/-- The enqueue of one group does not hide another one's arrival. -/
theorem mem_updated {groups : List SequenceGroup}
    (hnd : (groups.map SequenceGroup.seqGroupId).Nodup)
    (a : AlignmentAwareScheduler K × List String) : k ∈ (groups.foldl (recordArrival i) a).2
      ↔ k ∈ a.2 ∨ ∃ g ∈ groups, g.adapterId = k ∧ g.seqGroupId ∉ a.1.buffer.seqEnqueue := by
  induction groups generalizing a with
  | nil => simp
  | cons g gs ih =>
      obtain ⟨hnot, hnd'⟩ := List.nodup_cons.mp hnd
      have hlater : ∀ g' ∈ gs, (g'.seqGroupId ∉ (recordArrival i a g).1.buffer.seqEnqueue
          ↔ g'.seqGroupId ∉ a.1.buffer.seqEnqueue) := by
        intro g' hg'
        have hne : g'.seqGroupId ≠ g.seqGroupId := fun heq =>
          hnot (heq ▸ List.mem_map.mpr ⟨g', hg', rfl⟩)
        rw [buffer_recordArrival, mem_seqEnqueue_enqueue, or_iff_right hne]
      rw [List.foldl_cons, ih hnd', mem_recordArrival, List.exists_mem_cons_iff, or_assoc]
      refine or_congr_right (or_congr_right (exists_congr fun g' => ?_))
      exact and_congr_right fun hg' => and_congr_right fun _ => hlater g' hg'

theorem nodup_updated (groups : List SequenceGroup) : (s.recordArrivals i groups).2.Nodup := by
  unfold recordArrivals
  suffices h : ∀ (gs : List SequenceGroup) (a : AlignmentAwareScheduler K × List String),
      a.2.Nodup → (gs.foldl (recordArrival i) a).2.Nodup from h groups (s, []) List.nodup_nil
  intro gs
  induction gs with
  | nil => exact fun a ha => ha
  | cons g gs ih => exact fun a ha => ih _ (nodup_recordArrival ha g)

/-- The calls of the estimator are those for the updated adapters. -/
theorem estimator_recordArrivals (groups : List SequenceGroup) :
    (s.recordArrivals i groups).1.estimator
      = s.estimator.run ((s.recordArrivals i groups).2.map fun k =>
          .update k i.clock.monotonic) := by
  unfold recordArrivals
  suffices h : ∀ (gs : List SequenceGroup) (a : AlignmentAwareScheduler K × List String),
      a.1.estimator = s.estimator.run (a.2.map fun k => .update k i.clock.monotonic) →
      (gs.foldl (recordArrival i) a).1.estimator
        = s.estimator.run ((gs.foldl (recordArrival i) a).2.map fun k =>
            .update k i.clock.monotonic) from h groups (s, []) rfl
  intro gs
  induction gs with
  | nil => exact fun a ha => ha
  | cons g gs ih =>
      intro a ha
      refine ih _ ?_
      unfold recordArrival
      split
      · show a.1.estimator.update g.adapterId i.clock.monotonic
          = s.estimator.run (List.map _ (a.2 ++ [g.adapterId]))
        rw [List.map_append, ArrivalRateEstimator.run, List.foldl_append, ha]
        rfl
      · exact ha

/-! ## The estimator over a tick -/

/-- The arrival loop of a tick runs from the split's buffer. -/
theorem estimator_prepareTick (hmode : cfg.EstimatesRates)
    {p : AlignmentAwareScheduler K × DispatchCall K} (h : s.prepareTick cfg env i = .ok p) :
    ∃ s₀ : AlignmentAwareScheduler K, s₀.core = (atSplit cfg s i).core
      ∧ s₀.estimator = s.estimator ∧ p.1.estimator
        = (s₀.recordArrivals i ((atSplit cfg s i).firstTimeGroups i)).1.estimator := by
  unfold prepareTick at h
  rcases hmode with hmode | hmode | hmode
  · simp only [hmode, prepareErlang] at h
    obtain ⟨r, hr, h⟩ := bind_eq_ok h
    obtain rfl := Except.ok.inj h
    obtain ⟨m, hm⟩ := applyColdStartBoost_eq hr
    have hsplit : atSplit cfg s i = s := if_neg (by simp [hmode])
    rw [hsplit]
    refine ⟨s, rfl, rfl, ?_⟩
    show r.1.estimator = _
    rw [hm]
  · simp only [hmode, prepareCash] at h
    obtain ⟨s₁, hs₁, h⟩ := bind_eq_ok h
    obtain ⟨r, hr, h⟩ := bind_eq_ok h
    obtain rfl := Except.ok.inj h
    obtain ⟨m, rfl⟩ := updatePrefetchCache_eq hs₁
    obtain ⟨⟨d, hd⟩, -⟩ := spec_cashOrder hr
    have hsplit : atSplit cfg s i = s := if_neg (by simp [hmode])
    rw [hsplit]
    refine ⟨s, rfl, rfl, ?_⟩
    show r.1.estimator = _
    rw [hd]
  · simp only [hmode, prepareWgkp] at h
    obtain ⟨s₁, hs₁, h⟩ := bind_eq_ok h
    obtain ⟨r, hr, h⟩ := bind_eq_ok h
    obtain rfl := Except.ok.inj h
    obtain ⟨m, rfl⟩ := updatePrefetchCache_eq hs₁
    obtain ⟨⟨d, hd⟩, -⟩ := spec_cashOrder hr
    have hsplit : atSplit cfg s i = s.forgetStale i := if_pos hmode
    rw [hsplit]
    refine ⟨(s.forgetStale i).learnLora ((s.forgetStale i).firstTimeGroups i), rfl, rfl, ?_⟩
    show r.1.estimator = _
    rw [hd]

theorem estimator_logWarStats (h : s.logWarStats cfg env batch = .ok s') :
    s'.estimator = s.estimator := by
  rcases logWarStats_eq h with rfl | rfl
  · rfl
  · rfl

theorem estimator_emitBatch (h : s.emitBatch cfg env i call = .ok (s', out)) :
    s'.estimator = s.estimator := by
  obtain ⟨s₁, hlog, h⟩ := bind_eq_ok h
  obtain ⟨rfl, -⟩ := Prod.mk.inj (Except.ok.inj h)
  refine (estimator_logWarStats hlog).trans ?_
  rfl

theorem estimator_emitBatchWgkp (h : s.emitBatchWgkp cfg env i call = .ok (s', out)) :
    s'.estimator = s.estimator := by
  obtain ⟨s₁, hlog, h⟩ := bind_eq_ok h
  obtain ⟨rfl, -⟩ := Prod.mk.inj (Except.ok.inj h)
  refine (estimator_logWarStats hlog).trans ?_
  unfold releaseEarly
  dsimp only
  split <;> rfl

theorem estimator_emitTick (hmode : cfg.EstimatesRates)
    (h : s.emitTick cfg env i call = .ok (s', out)) : s'.estimator = s.estimator := by
  unfold emitTick at h
  rcases hmode with hmode | hmode | hmode
  · simp only [hmode] at h
    exact estimator_emitBatch h
  · simp only [hmode] at h
    exact estimator_emitBatch h
  · simp only [hmode] at h
    exact estimator_emitBatchWgkp h

/-- A tick updates the rates of the adapters with a new sequence, each once. -/
theorem tick_updates_once (hmode : cfg.EstimatesRates) (h : Tick cfg env s i out s') :
    ∃ ks : List String, ks.Nodup ∧ (∀ k, k ∈ ks ↔ newArrivals cfg s i k ≠ [])
      ∧ s'.estimator = s.estimator.run (ks.map fun k => .update k i.clock.monotonic) := by
  unfold Tick at h
  rw [schedule_eq, scheduleInner] at h
  have hcount := core_atSplit_countCall cfg s i
  have hfirst : (atSplit cfg s.countCall i).firstTimeGroups i
      = (atSplit cfg s i).firstTimeGroups i := (split_of_post_eq (congrArg Prod.snd hcount)).1
  split at h
  · rename_i hnone
    obtain ⟨rfl, -⟩ := Prod.mk.inj (Except.ok.inj h)
    refine ⟨[], List.nodup_nil, fun k => iff_of_false List.not_mem_nil fun hne => ?_, rfl⟩
    obtain ⟨g, hg, -⟩ := newArrivals_ne_nil.mp hne
    rw [firstTimeGroups, hnone] at hg
    cases hg
  · obtain ⟨⟨s₁, call⟩, hprep, hemit⟩ := bind_eq_ok h
    obtain ⟨s₀, hcore, hest, harr⟩ := estimator_prepareTick hmode hprep
    refine ⟨(s₀.recordArrivals i ((atSplit cfg s i).firstTimeGroups i)).2, nodup_updated _,
      fun k => ?_, ?_⟩
    · have hbuf : s₀.buffer = (atSplit cfg s i).buffer := congrArg Prod.fst (hcore.trans hcount)
      rw [recordArrivals, mem_updated nodup_firstTimeGroups, or_iff_right List.not_mem_nil,
        newArrivals_ne_nil, hbuf]
    · rw [estimator_emitTick hmode hemit, harr, hfirst, estimator_recordArrivals, hest]
      rfl

end Tick

/-! ## One adapter over a tick -/

section Known

open ArrivalRateEstimator

omit [Field K] [LinearOrder K] in
/-- One adapter's part of the updates. -/
theorem filterMap_own_updates {ks : List String} (hnd : ks.Nodup) (t : K) (k : String) :
    (ks.map fun k' => RateCall.update k' t).filterMap (RateCall.own k)
      = if k ∈ ks then [.arrival t] else [] := by
  induction ks with
  | nil => rfl
  | cons k' ks ih =>
      obtain ⟨hnot, hnd'⟩ := List.nodup_cons.mp hnd
      rw [List.map_cons]
      by_cases hk : k' = k
      · subst hk
        have hown : RateCall.own k' (.update k' t) = some (.arrival t) := if_pos rfl
        rw [List.filterMap_cons_some hown, ih hnd', if_neg hnot, if_pos (List.mem_cons_self ..)]
      · have hown : RateCall.own k (.update k' t) = none := if_neg hk
        have hmem : k ∈ k' :: ks ↔ k ∈ ks := by
          rw [List.mem_cons, or_iff_right (Ne.symm hk)]
        rw [List.filterMap_cons_none hown, ih hnd']
        exact if_congr hmem.symm rfl rfl

variable {cfg : Config K} {env : Env K} {s s' : AlignmentAwareScheduler K} {i : TickInput K}
  {out : List SequenceGroup}

/-- A tick is one arrival of `k` if it offers new sequences of `k`, however many, and
none otherwise. -/
theorem known_tick (hmode : cfg.EstimatesRates) (h : Tick cfg env s i out s') (k : String) :
    s'.estimator.known k
      = if newArrivals cfg s i k = [] then s.estimator.known k
        else (s.estimator.known k).after s.estimator.alpha s.estimator.defaultRate
          (.arrival i.clock.monotonic) := by
  obtain ⟨ks, hnd, hmem, heq⟩ := tick_updates_once hmode h
  rw [heq, known_run, filterMap_own_updates hnd]
  by_cases hnone : newArrivals cfg s i k = []
  · rw [if_pos hnone, if_neg fun hk => (hmem k).mp hk hnone]
    rfl
  · rw [if_neg hnone, if_pos ((hmem k).mpr hnone)]
    rfl

theorem params_tick (hmode : cfg.EstimatesRates) (h : Tick cfg env s i out s') :
    s'.estimator.alpha = s.estimator.alpha
      ∧ s'.estimator.defaultRate = s.estimator.defaultRate := by
  obtain ⟨ks, -, -, heq⟩ := tick_updates_once hmode h
  rw [heq]
  exact params_run _ _

end Known

/-! ## Periodic arrivals -/

section Periodic

open ArrivalRateEstimator Filter

variable {cfg : Config ℝ} {env : Env ℝ} {r : Endless (Tick cfg env)} {k : String} {n : ℕ} {d : ℝ}
  {a : ℕ → ℕ}

/-- The ticks `a 0 < a 1 < …` are `d` seconds apart and offer `n` new sequences of `k`
each; from `a 0` on the others offer none. -/
structure Periodic (r : Endless (Tick cfg env)) (k : String) (n : ℕ) (d : ℝ) (a : ℕ → ℕ) :
    Prop where
  ticks : StrictMono a
  every : ∀ j, (r.label (a (j + 1))).clock.monotonic = (r.label (a j)).clock.monotonic + d
  offered : ∀ j, (newArrivals cfg (r.state (a j)) (r.label (a j)) k).length = n
  between : ∀ m, a 0 ≤ m → m ∉ Set.range a → newArrivals cfg (r.state m) (r.label m) k = []

theorem params_state (hmode : cfg.EstimatesRates) (r : Endless (Tick cfg env)) (m : ℕ) :
    (r.state m).estimator.alpha = (r.state 0).estimator.alpha
      ∧ (r.state m).estimator.defaultRate = (r.state 0).estimator.defaultRate := by
  induction m with
  | zero => exact ⟨rfl, rfl⟩
  | succ m ih =>
      obtain ⟨halpha, hdefault⟩ := params_tick hmode (r.step_at m)
      exact ⟨halpha.trans ih.1, hdefault.trans ih.2⟩

/-- Between the arrivals nothing is learnt of `k`. -/
theorem Periodic.known_between (h : Periodic r k n d a) (hmode : cfg.EstimatesRates) {m : ℕ}
    (hm : a 0 ≤ m) (hnot : m ∉ Set.range a) :
    (r.state (m + 1)).estimator.known k = (r.state m).estimator.known k := by
  rw [known_tick hmode (r.step_at m), if_pos (h.between m hm hnot)]

theorem Periodic.known_arrival (h : Periodic r k n d a) (hmode : cfg.EstimatesRates)
    (hn : 1 ≤ n) (j : ℕ) :
    (r.state (a j + 1)).estimator.known k
      = ((r.state (a j)).estimator.known k).after (r.state 0).estimator.alpha
          (r.state 0).estimator.defaultRate (.arrival (r.label (a j)).clock.monotonic) := by
  have hsome : newArrivals cfg (r.state (a j)) (r.label (a j)) k ≠ [] := by
    intro hnil
    have hlen := h.offered j
    rw [hnil, List.length_nil] at hlen
    omega
  obtain ⟨halpha, hdefault⟩ := params_state hmode r (a j)
  rw [known_tick hmode (r.step_at _), if_neg hsome, halpha, hdefault]

/-- After the first arrival the samples are those of one token every `d` seconds. -/
theorem Periodic.known_eq (h : Periodic r k n d a) (hmode : cfg.EstimatesRates) (hn : 1 ≤ n)
    (j : ℕ) :
    ((r.state (a j + 1)).estimator.known k).last = some (r.label (a j)).clock.monotonic
      ∧ ((r.state (a j + 1)).estimator.known k).rate
        = some (ewma (r.state 0).estimator.alpha ((r.state (a 0 + 1)).estimator.getRate k)
            (fun _ => 1 / max d (1 / 10 ^ 9)) j) := by
  induction j with
  | zero =>
      rw [ewma, getRate_eq_known, h.known_arrival hmode hn]
      exact ⟨rfl, rfl⟩
  | succ j ih =>
      obtain ⟨hlast, hrate⟩ := ih
      have hstay : (r.state (a (j + 1))).estimator.known k
          = (r.state (a j + 1)).estimator.known k :=
        eq_after_change (f := fun m => (r.state m).estimator.known k) h.ticks
          (fun _ hm hnot => h.known_between hmode hm hnot) (h.ticks (Nat.lt_succ_self j)) le_rfl
      have hiat : iat (r.label (a j)).clock.monotonic (r.label (a (j + 1))).clock.monotonic
          = max d (1 / 10 ^ 9) := by
        rw [h.every, iat, add_sub_cancel_left]
      rw [h.known_arrival hmode hn, hstay]
      refine ⟨rfl, ?_⟩
      simp only [Known.after, hlast, hrate, hiat, ewma, Option.getD_some, mul_one_div]

/-- The estimate converges to the rate of the ticks with an arrival. -/
theorem Periodic.tendsto_rate (h : Periodic r k n d a) (hmode : cfg.EstimatesRates)
    (hn : 1 ≤ n) :
    Tendsto (fun m => (r.state m).estimator.getRate k) atTop (nhds (1 / max d (1 / 10 ^ 9))) := by
  have hstay : ∀ m, a 0 ≤ m → m ∉ Set.range a →
      (r.state (m + 1)).estimator.getRate k = (r.state m).estimator.getRate k := by
    intro m hm hnot
    rw [getRate_eq_known, getRate_eq_known, h.known_between hmode hm hnot,
      (params_tick hmode (r.step_at m)).2]
  rw [tendsto_iff_of_changes h.ticks hstay]
  have hmean : ∀ j, ewma (r.state 0).estimator.alpha ((r.state (a 0 + 1)).estimator.getRate k)
      (fun _ => 1 / max d (1 / 10 ^ 9)) j = (r.state (a j + 1)).estimator.getRate k := by
    intro j
    have hrate := (h.known_eq hmode hn j).2
    rw [getRate_eq_known (r.state (a j + 1)).estimator, hrate]
    rfl
  exact (tendsto_ewma_const (r.state 0).estimator.alpha_pos (r.state 0).estimator.alpha_lt_one
    _ _).congr hmean

/-- **The rate estimate** converges to the token rate `n / d` exactly when each of the
ticks brings one token and `d` is not below the least inter-arrival time. -/
theorem rate_tracks_iff (hmode : cfg.EstimatesRates) (hn : 1 ≤ n) (hd : 0 < d)
    (h : Periodic r k n d a) :
    Tendsto (fun m => (r.state m).estimator.getRate k) atTop (nhds (n / d))
      ↔ n = 1 ∧ 1 / 10 ^ 9 ≤ d := by
  have hlim := h.tendsto_rate hmode hn
  have hmax : 0 < max d (1 / 10 ^ 9) := lt_max_of_lt_left hd
  constructor
  · intro htoken
    have heq : 1 / max d (1 / 10 ^ 9) = n / d := tendsto_nhds_unique hlim htoken
    have hprod : d = n * max d (1 / 10 ^ 9) := by
      rw [div_eq_div_iff hmax.ne' hd.ne', one_mul] at heq
      exact heq
    rcases le_or_gt (1 / 10 ^ 9 : ℝ) d with hle | hlt
    · rw [max_eq_left hle] at hprod
      have hone : (n : ℝ) = 1 := mul_right_cancel₀ hd.ne' (hprod.symm.trans (one_mul d).symm)
      exact ⟨Nat.cast_eq_one.mp hone, hle⟩
    · rw [max_eq_right hlt.le] at hprod
      have hcast : (1 : ℝ) ≤ n := Nat.one_le_cast.mpr hn
      nlinarith
  · rintro ⟨rfl, hle⟩
    rw [max_eq_left hle] at hlim
    rw [Nat.cast_one]
    exact hlim

end Periodic

/-! ## Known sequences -/

section Seen

variable {cfg : Config K} {env : Env K} {s s' : AlignmentAwareScheduler K} {i : TickInput K}
  {out : List SequenceGroup} {x : ℕ}

/-- The scheduler holds a record of the sequence. -/
def Seen (s : AlignmentAwareScheduler K) (x : ℕ) : Prop :=
  x ∈ s.buffer.seqEnqueue ∨ x ∈ s.postAlignmentSeqs

theorem Seen.of_atSplit (h : (atSplit cfg s i).Seen x) : s.Seen x := by
  unfold atSplit at h
  split at h
  · rcases h with hrec | hpost
    · exact .inl (Dict.mem_filterKeys.mp hrec).1
    · exact .inr (Finset.mem_sdiff.mp hpost).1
  · exact h

/-- A tick learns of no sequences but those it is offered. -/
theorem Seen.of_tick (h : Tick cfg env s i out s') (hx : s'.Seen x) :
    s.Seen x ∨ ∃ g ∈ i.sel.decodeGroups, g.seqGroupId = x := by
  rcases schedule_cases h with ⟨-, rfl, -⟩ | ⟨-, s₁, call, -, hprep, hemit⟩
  · exact .inl hx
  · have hfirst : ∀ g ∈ s₁.firstTimeGroups i, g ∈ i.sel.decodeGroups := fun g hg =>
      (mem_firstTimeGroups.mp hg).1
    rcases hx with hrec | hpost
    · have hrec₁ := hemit.recorded_of x hrec
      rw [hprep.buffer_eq, mem_seqEnqueue_enqueueGroups, ← hprep.split_eq.1] at hrec₁
      rcases hrec₁ with hold | hnew
      · exact .inl (Seen.of_atSplit (.inl hold))
      · obtain ⟨g, hg, hgx⟩ := List.mem_map.mp hnew
        exact .inr ⟨g, hfirst g hg, hgx⟩
    · rcases ((hemit.post x).mp hpost).1 with hold | hleft
      · rw [hprep.post_eq] at hold
        exact .inl (Seen.of_atSplit (.inr hold))
      · obtain ⟨g, hg, hgx⟩ := List.mem_map.mp hleft
        rcases List.mem_append.mp hg with hal | hdr
        · exact .inr ⟨g, hfirst g (mem_alignedGroups.mp hal).1, hgx⟩
        · exact .inr ⟨g, hfirst g (mem_drainedGroups hdr), hgx⟩

end Seen

/-! ### A steady stream -/

open Filter

/-- The distribution function of the Erlang distribution with rate one, which the
regularised gamma function is for a whole shape. -/
noncomputable def erlangCdf (n : ℕ) (x : ℝ) : ℝ :=
  1 - Real.exp (-x) * ∑ i ∈ Finset.range n, x ^ i / (i.factorial : ℝ)

/-- The shapes are numbers of missing tokens. -/
noncomputable def steadyEnv : Env ℝ where
  gammainc a x := erlangCdf ⌊a⌋₊ x
  gammaincinv n p := sInf {x | 0 ≤ x ∧ p ≤ erlangCdf n x}
  exp := Real.exp
  hash _ := 0
  setOrder l := l
  setOrder_perm _ _ := List.Perm.refl _

/-- The same values as real numbers. -/
noncomputable def realConfig (cfg : Config ℚ) : Config ℝ where
  mode := cfg.mode
  fixedDeadline := cfg.fixedDeadline
  logWar := cfg.logWar
  metricsFile := cfg.metricsFile
  tmaxMs := cfg.tmaxMs
  ttftSloMs := cfg.ttftSloMs
  warpSize := cfg.warpSize
  warpSize_pos := cfg.warpSize_pos
  warTarget := cfg.warTarget
  ewmaAlpha := cfg.ewmaAlpha
  ewmaAlpha_pos := Rat.cast_pos.mpr cfg.ewmaAlpha_pos
  ewmaAlpha_lt_one := by exact_mod_cast cfg.ewmaAlpha_lt_one
  piKp := cfg.piKp
  piKi := cfg.piKi
  piKp_pos := Rat.cast_pos.mpr cfg.piKp_pos
  piKi_pos := Rat.cast_pos.mpr cfg.piKi_pos
  piTmaxInitMs := cfg.piTmaxInitMs
  prefetch := cfg.prefetch
  kWarm := cfg.kWarm
  kWarm_pos := cfg.kWarm_pos
  tauLoadMs := cfg.tauLoadMs
  coldBoost := cfg.coldBoost
  pcieMinDeferralS := cfg.pcieMinDeferralS
  wgkpThreshold := cfg.wgkpThreshold
  apt := cfg.apt

/-- The erlang mode when no other variable is set. -/
noncomputable def steadyConfig : Config ℝ := realConfig (Config.default .erlang)

/-- The groups of tick `m`: `n` sequences of adapter "a" that no tick had before. -/
def steadyGroups (n m : ℕ) : List SequenceGroup :=
  (List.range n).map fun j => sampleGroup (n * m + j) "a" false

theorem nodup_steadyGroups (n m : ℕ) :
    ((steadyGroups n m).map SequenceGroup.seqGroupId).Nodup := by
  rw [steadyGroups, List.map_map]
  exact List.nodup_range.map fun j j' h => Nat.add_left_cancel h

noncomputable def steadyTick (n : ℕ) (d : ℝ) (m : ℕ) : TickInput ℝ where
  sel := ⟨steadyGroups n m, steadyGroups n m, nodup_steadyGroups n m⟩
  clock := ⟨m * d, fun _ => m * d, fun _ => m * d, m * d, m * d, m * d⟩
  isMerged := none

theorem decodeGroups_steadyTick (n : ℕ) (d : ℝ) (m : ℕ) :
    (steadyTick n d m).sel.decodeGroups = steadyGroups n m := by
  refine List.filter_eq_self.mpr fun g hg => ?_
  obtain ⟨j, -, rfl⟩ := List.mem_map.mp hg
  rfl

/-- The warm set works, and the sequences seen so far have numbers below `b`. -/
structure SteadyBelow (b : ℕ) (s : AlignmentAwareScheduler ℝ) : Prop where
  configured : Configured steadyConfig s
  below : ∀ x, s.Seen x → x < b

theorem steadyBelow_init (b : ℕ) : SteadyBelow b (init steadyConfig) where
  configured := configured_init
  below x hx := by
    rcases hx with hrec | hpost
    · cases hrec
    · cases hpost

/-- All sequences of the next tick are new. -/
theorem SteadyBelow.newArrivals {n m : ℕ} {s : AlignmentAwareScheduler ℝ}
    (h : SteadyBelow (n * m) s) (d : ℝ) :
    newArrivals steadyConfig s (steadyTick n d m) "a" = steadyGroups n m := by
  have hsplit : atSplit steadyConfig s (steadyTick n d m) = s := rfl
  have hfresh : ∀ g ∈ steadyGroups n m, ¬ s.Seen g.seqGroupId := by
    intro g hg hseen
    obtain ⟨j, -, rfl⟩ := List.mem_map.mp hg
    exact absurd (h.below _ hseen) (Nat.not_lt.mpr (Nat.le_add_right _ _))
  have hfirst : s.firstTimeGroups (steadyTick n d m) = steadyGroups n m := by
    rw [firstTimeGroups, decodeGroups_steadyTick]
    exact List.filter_eq_self.mpr fun g hg => decide_eq_true fun h => hfresh g hg (.inr h)
  rw [AlignmentAwareScheduler.newArrivals, hsplit, hfirst]
  refine List.filter_eq_self.mpr fun g hg => ?_
  have hbuf : s.buffer.isBuffered g.seqGroupId = false :=
    decide_eq_false fun h => hfresh g hg (.inl h)
  obtain ⟨j, -, rfl⟩ := List.mem_map.mp hg
  rw [hbuf]
  rfl

/-- The tick returns, and the next one has new sequences again. -/
theorem SteadyBelow.tick {n m : ℕ} {s : AlignmentAwareScheduler ℝ} (h : SteadyBelow (n * m) s)
    (d : ℝ) : ∃ out s', Tick steadyConfig steadyEnv s (steadyTick n d m) out s'
      ∧ SteadyBelow (n * (m + 1)) s' := by
  have hsound : steadyConfig.Sound := ⟨fun h => absurd rfl h, fun h => by cases h⟩
  have hnum : (steadyTick n d m).Numbered steadyConfig steadyEnv := by
    rintro (hlog | hmode)
    · cases hlog
    · cases hmode
  obtain ⟨⟨s', out⟩, hok, hconf⟩ := h.configured.tick_returns hsound hnum
  refine ⟨out, s', hok, hconf, fun x hx => ?_⟩
  rw [Nat.mul_succ]
  rcases hx.of_tick hok with hold | ⟨g, hg, rfl⟩
  · exact Nat.lt_add_right n (h.below x hold)
  · rw [decodeGroups_steadyTick] at hg
    obtain ⟨j, hj, rfl⟩ := List.mem_map.mp hg
    exact Nat.add_lt_add_left (List.mem_range.mp hj) _

/-- Every `d` seconds `n` new sequences, from the start. -/
theorem exists_steady (n : ℕ) (d : ℝ) :
    ∃ r : Endless (Tick steadyConfig steadyEnv), r.state 0 = init steadyConfig
      ∧ Periodic r "a" n d id := by
  obtain ⟨r, hinit, hlabel, hbelow⟩ := Endless.exists_of_step
    (fun m => SteadyBelow (n * m)) (steadyTick n d) (steadyBelow_init _) fun _ _ h => h.tick d
  refine ⟨r, hinit, strictMono_id, fun j => ?_, fun j => ?_, fun m _ hnot => ?_⟩
  · rw [hlabel]
    show ((j + 1 : ℕ) : ℝ) * d = j * d + d
    rw [Nat.cast_succ, add_one_mul]
  · rw [hlabel, id, (hbelow j).newArrivals, steadyGroups, List.length_map, List.length_range]
  · exact absurd ⟨m, rfl⟩ hnot

/-- One token a second. -/
theorem oneToken_tracked : ∃ r : Endless (Tick steadyConfig steadyEnv),
    r.state 0 = init steadyConfig ∧ Periodic r "a" 1 1 id
      ∧ Tendsto (fun m => (r.state m).estimator.getRate "a") atTop (nhds 1) := by
  obtain ⟨r, hinit, hper⟩ := exists_steady 1 1
  have hlim := (rate_tracks_iff (.inl rfl) le_rfl one_pos hper).mpr ⟨rfl, by norm_num⟩
  rw [Nat.cast_one, div_one] at hlim
  exact ⟨r, hinit, hper, hlim⟩

/-- Two tokens a second count as one. -/
theorem twoTokens_not_tracked :
    ¬ ∀ (cfg : Config ℝ) (env : Env ℝ), cfg.EstimatesRates →
      ∀ (r : Endless (Tick cfg env)) (k : String) (n : ℕ) (d : ℝ) (a : ℕ → ℕ), 1 ≤ n → 0 < d →
        Periodic r k n d a →
        Tendsto (fun m => (r.state m).estimator.getRate k) atTop (nhds (n / d)) := by
  intro h
  obtain ⟨r, -, hper⟩ := exists_steady 2 1
  have hclaim := h _ _ (.inl rfl) r "a" 2 1 id one_le_two one_pos hper
  have hlim := hper.tendsto_rate (.inl rfl) one_le_two
  have heq := tendsto_nhds_unique hlim hclaim
  norm_num at heq

end AlignmentAwareScheduler

end AdapterSlots
