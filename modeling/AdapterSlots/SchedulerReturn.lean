import AdapterSlots.Lib.Returns
import AdapterSlots.SchedulerRun
import AdapterSlots.War

/-!
# A tick returns

A tick can raise in three places: the predictive policy checks its load
time when it is first asked for a victim, `_penalize_cold` divides by the
boost, and a batch with an adapter number of more than 64 bits has no WAR.
Under a sound configuration and with numbers that fit it returns.

The warm set is the only part of the state this rests on. It is built with
the policy and the load time of the configuration, and keeps them
(`Configured`).
-/

namespace AdapterSlots

open Lib AlignmentBuffer

variable {K : Type} [Field K] [LinearOrder K]

/-- What the warm set and the boost of cold adapters rely on. -/
structure Config.Sound (cfg : Config K) : Prop where
  coldBoost_ne : cfg.prefetch ≠ none → cfg.coldBoost ≠ 0
  tauLoad_pos : cfg.prefetch = some .predictive → 0 < cfg.tauLoadMs

/-- The modes that compute the WAR of the batch. -/
def Config.ReadsWar (cfg : Config K) : Prop := cfg.logWar ∨ cfg.mode = .piAdaptive

/-- Where the WAR is computed, the scheduled adapters have numbers of 64 bits. -/
def TickInput.Numbered (cfg : Config K) (env : Env K) (i : TickInput K) : Prop :=
  cfg.ReadsWar → ∀ g ∈ i.sel.scheduled, Fits64 (adapterIdToInt env g.adapterId)

omit [LinearOrder K] in
theorem computeWarFromIds_returns {ids : List ℤ} (warpSize : ℕ) (h : ∀ n ∈ ids, Fits64 n) :
    Returns (computeWarFromIds (K := K) ids warpSize) fun _ => True := by
  unfold computeWarFromIds
  split
  · dsimp only
    split
    · exact .ok trivial
    · exact .ok trivial
  · rename_i hnot
    exact absurd h hnot

/-! ## The warm set -/

/-- The warm set works as it was configured. -/
def WarmCacheManager.Configured (cfg : Config K) (m : WarmCacheManager K) : Prop :=
  cfg.prefetch = some m.policy ∧ m.tauLoadMs = cfg.tauLoadMs

namespace WarmCacheManager

variable {cfg : Config K} {env : Env K} {m : WarmCacheManager K} {rates : Dict String K}

theorem chooseEviction_returns (hcfg : cfg.Sound) (hm : m.Configured cfg) :
    Returns (m.chooseEviction env rates) fun _ => True := by
  unfold chooseEviction
  dsimp only
  split
  · exact .ok trivial
  · split
    · exact .ok trivial
    · exact .ok trivial
    · rename_i hpolicy
      have htau : 0 < m.tauLoadMs := hm.2 ▸ hcfg.tauLoad_pos (hpolicy ▸ hm.1)
      rw [if_neg (not_le.mpr htau)]
      exact .ok trivial

theorem load_returns (hcfg : cfg.Sound) (hm : m.Configured cfg) (k : String) (t : K) :
    Returns (m.load env k t rates) (Configured cfg) := by
  unfold load
  split
  · exact (chooseEviction_returns hcfg hm).bind fun _ _ => .ok hm
  · exact .ok hm

theorem request_returns (hcfg : cfg.Sound) (hm : m.Configured cfg) (k : String) (t : K) :
    Returns (m.request env k rates t) fun r => r.1.Configured cfg := by
  unfold request
  split
  · exact .ok hm
  · exact (load_returns hcfg hm k t).bind fun _ hm' => .ok hm'

end WarmCacheManager

namespace AlignmentAwareScheduler

/-- Its warm set, if it has one, works as it was configured. -/
def Configured (cfg : Config K) (s : AlignmentAwareScheduler K) : Prop :=
  ∀ m, s.cacheMgr = some m → m.Configured cfg

section Tick

variable {cfg : Config K} {env : Env K} {s s' : AlignmentAwareScheduler K} {i : TickInput K}
  {call : DispatchCall K} {batch : List SequenceGroup}

theorem configured_init : Configured cfg (init cfg) := by
  intro m hm
  obtain ⟨policy, hpolicy, rfl⟩ := Option.map_eq_some_iff.mp hm
  exact ⟨hpolicy, rfl⟩

theorem Configured.of_eq (h : Configured cfg s) (heq : s'.cacheMgr = s.cacheMgr) :
    Configured cfg s' := fun m hm => h m (heq ▸ hm)

/-! ## Up to the dispatch -/

theorem cacheMgr_recordArrivals (groups : List SequenceGroup) :
    (s.recordArrivals i groups).1.cacheMgr = s.cacheMgr := by
  obtain ⟨e, he⟩ := recordArrivals_eq (s := s) (i := i) groups
  rw [he]

theorem updatePrefetchCache_returns (hcfg : cfg.Sound) (h : Configured cfg s) (l : List String) :
    Returns (s.updatePrefetchCache env i l) (Configured cfg) := by
  unfold updatePrefetchCache
  split
  · exact .ok h
  · rename_i m hm
    have hloop : Returns ((env.setOrder l).foldlM
        (fun m k => do
          let r ← m.request env k s.estimator.getAllRates (i.clock.request k)
          pure r.1)
        m) (WarmCacheManager.Configured cfg) := by
      refine Returns.foldlM (fun k _ m' hm' => ?_) (h m hm)
      exact (WarmCacheManager.request_returns hcfg hm' k _).bind fun _ hr => .ok hr
    refine hloop.bind fun m' hm' => .ok fun m₁ hm₁ => ?_
    obtain rfl := Option.some.inj hm₁
    exact hm'

theorem applyColdStartBoost_returns (hcfg : cfg.Sound) (h : Configured cfg s)
    (tmaxK : Dict String K) (l : List String) :
    Returns (s.applyColdStartBoost cfg env i tmaxK l) fun r => Configured cfg r.1 := by
  unfold applyColdStartBoost
  split
  · exact .ok h
  · exact (updatePrefetchCache_returns hcfg h l).bind fun _ hs' => .ok hs'

theorem coldScore_returns (hboost : cfg.coldBoost ≠ 0) (firstSeen : Option K) (frac : K) :
    Returns (coldScore cfg i firstSeen frac) fun _ => True := by
  unfold coldScore
  rw [if_neg hboost]
  dsimp only
  split
  · split
    · exact .ok trivial
    · split
      · exact .ok trivial
      · exact .ok trivial
  · exact .ok trivial

theorem penalizeOne_returns (hboost : cfg.coldBoost ≠ 0) (m : WarmCacheManager K)
    (a : Dict String K × Dict String K) (e : String × K) :
    Returns (penalizeOne cfg i m a e) fun _ => True := by
  unfold penalizeOne
  split
  · exact .ok trivial
  · exact (coldScore_returns hboost _ _).bind fun _ _ => .ok trivial

theorem penalizeCold_returns (hcfg : cfg.Sound) (h : Configured cfg s) (scores : Dict String K) :
    Returns (s.penalizeCold cfg i scores) fun r => Configured cfg r.1 := by
  unfold penalizeCold
  split
  · exact .ok h
  · rename_i m hm
    have hboost : cfg.coldBoost ≠ 0 :=
      hcfg.coldBoost_ne fun hnone => Option.some_ne_none _ ((h m hm).1.symm.trans hnone)
    refine Returns.bind (P := fun _ => True) ?_ fun _ _ => .ok h
    exact Returns.foldlM (fun e _ a _ => penalizeOne_returns hboost m a e) trivial

theorem cashOrder_returns (hcfg : cfg.Sound) (h : Configured cfg s) (tmaxK : Dict String K) :
    Returns (s.cashOrder cfg env i tmaxK) fun r => Configured cfg r.1 :=
  (penalizeCold_returns hcfg h _).bind fun _ hr => .ok hr

theorem prepareTick_returns (hcfg : cfg.Sound) (h : Configured cfg s) :
    Returns (s.prepareTick cfg env i) fun p => Configured cfg p.1 := by
  unfold prepareTick
  cases cfg.mode with
  | threshold => exact .ok h
  | piAdaptive => exact .ok h
  | erlang =>
      exact (applyColdStartBoost_returns hcfg (h.of_eq (cacheMgr_recordArrivals _)) _ _).bind
        fun _ hr => .ok hr
  | cash =>
      refine (updatePrefetchCache_returns hcfg (h.of_eq (cacheMgr_recordArrivals _)) _).bind
        fun s₁ hs₁ => ?_
      exact (cashOrder_returns hcfg hs₁ _).bind fun _ hr => .ok hr
  | wgkp =>
      have hs₀ : ∀ groups, Configured cfg ((s.forgetStale i).learnLora groups) := fun _ => h
      refine (updatePrefetchCache_returns hcfg ((hs₀ _).of_eq (cacheMgr_recordArrivals _)) _).bind
        fun s₁ hs₁ => ?_
      exact (cashOrder_returns hcfg hs₁ _).bind fun _ hr => .ok hr

/-! ## From the dispatch on -/

theorem logWarStats_returns (h : Configured cfg s)
    (hbatch : cfg.logWar → ∀ g ∈ batch, Fits64 (adapterIdToInt env g.adapterId)) :
    Returns (s.logWarStats cfg env batch) (Configured cfg) := by
  unfold logWarStats
  split
  · rename_i hlog
    have hids := List.forall_mem_map.mpr (hbatch hlog)
    refine (computeWarFromIds_returns _ hids).bind fun _ _ => .ok ?_
    split <;> exact h
  · exact .ok h

theorem updateTmax_returns (h : Configured cfg s)
    (hbatch : ∀ g ∈ batch, Fits64 (adapterIdToInt env g.adapterId)) :
    Returns (s.updateTmax env batch) (Configured cfg) := by
  unfold updateTmax
  split
  · exact .ok h
  · have hids := List.forall_mem_map.mpr hbatch
    exact (computeWarFromIds_returns _ hids).bind fun _ _ => .ok h

/-- The WAR is taken of groups that vLLM has scheduled. -/
theorem fits_of_numbered (hnum : i.Numbered cfg env) (hreads : cfg.ReadsWar) :
    ∀ g ∈ sortByAdapter (s.postAlignmentGroups i) ++ s.alignedGroups i call,
      Fits64 (adapterIdToInt env g.adapterId) := by
  intro g hg
  have hpart : g ∈ s.decodePart cfg i call := List.mem_append_left _ hg
  exact hnum hreads g (mem_decodeGroups.mp (mem_decodePart hpart)).1

theorem emitBatch_returns (h : Configured cfg s) (hnum : i.Numbered cfg env) :
    Returns (s.emitBatch cfg env i call) fun r => Configured cfg r.1 :=
  (logWarStats_returns (s := (s.dispatch i call).1) h fun hlog =>
    fits_of_numbered hnum (.inl hlog)).bind fun _ hs' => .ok hs'

theorem emitBatchPi_returns (hmode : cfg.mode = .piAdaptive) (h : Configured cfg s)
    (hnum : i.Numbered cfg env) :
    Returns (s.emitBatchPi cfg env i call) fun r => Configured cfg r.1 := by
  have hfits : ∀ g ∈ sortByAdapter (s.postAlignmentGroups i) ++ s.alignedGroups i call,
      Fits64 (adapterIdToInt env g.adapterId) := fits_of_numbered hnum (.inr hmode)
  refine (updateTmax_returns (s := (s.dispatch i call).1) h hfits).bind fun s₁ hs₁ => ?_
  have hdrop : Configured cfg (s₁.dropFinished i) := by
    unfold dropFinished
    split <;> exact hs₁
  exact (logWarStats_returns hdrop fun _ => hfits).bind fun _ hs' => .ok hs'

theorem cacheMgr_releaseEarly :
    (s.releaseEarly i (s.dispatch i call)).1.cacheMgr = s.cacheMgr := by
  unfold releaseEarly
  dsimp only
  split <;> rfl

theorem emitBatchWgkp_returns (h : Configured cfg s) (hnum : i.Numbered cfg env) :
    Returns (s.emitBatchWgkp cfg env i call) fun r => Configured cfg r.1 :=
  (logWarStats_returns (h.of_eq cacheMgr_releaseEarly) fun hlog =>
    fits_of_numbered hnum (.inl hlog)).bind fun _ hs' => .ok hs'

theorem emitTick_returns (h : Configured cfg s) (hnum : i.Numbered cfg env) :
    Returns (s.emitTick cfg env i call) fun r => Configured cfg r.1 := by
  unfold emitTick
  cases hmode : cfg.mode with
  | threshold => exact emitBatch_returns h hnum
  | piAdaptive => exact emitBatchPi_returns hmode h hnum
  | erlang => exact emitBatch_returns h hnum
  | cash => exact emitBatch_returns h hnum
  | wgkp => exact emitBatchWgkp_returns h hnum

/-- A tick from a state whose warm set is as configured returns, and leaves it so. -/
theorem Configured.tick_returns (h : Configured cfg s) (hcfg : cfg.Sound)
    (hnum : i.Numbered cfg env) :
    Returns (s.schedule cfg env i) fun r => Configured cfg r.1 := by
  have hcount : Configured cfg s.countCall := h
  rw [schedule_eq]
  unfold scheduleInner
  split
  · exact .ok hcount
  · exact (prepareTick_returns hcfg hcount).bind fun _ hp => emitTick_returns hp hnum

/-- After every run the next tick returns. -/
theorem exists_tick {tr : TickHistory K} (hcfg : cfg.Sound)
    (h : Exec (Tick cfg env) (init cfg) tr s) (hall : ∀ e ∈ tr, e.label.Numbered cfg env)
    (hnum : i.Numbered cfg env) : ∃ out s', Tick cfg env s i out s' := by
  obtain ⟨hs, -⟩ := h.invariant (Configured cfg) (fun _ i => i.Numbered cfg env)
    (fun _ _ _ _ hs hi htick => (hs.tick_returns hcfg hi).of_eq htick) configured_init hall
  obtain ⟨⟨s', out⟩, hok, -⟩ := hs.tick_returns hcfg hnum
  exact ⟨out, s', hok⟩

end Tick

end AlignmentAwareScheduler

end AdapterSlots
