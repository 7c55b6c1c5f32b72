import AdapterSlots.BufferDeadline
import AdapterSlots.BufferLoops
import AdapterSlots.SchedulerDeferral

/-!
# What one tick leaves alone

`Emitted` says what a tick does to the queues. Three more facts are needed
to follow a token over many ticks: the tail of a tick changes nothing of
the queues and of `enqueue_time` but what the dispatch and the drain do
(`sameQueues_emitTick`), the warp width and `T_SLO` are those of the
configuration for ever (`settings_of_run`), and the visiting order of a
tick names every registered adapter (`covers_of_prepareTick`).
-/

namespace AdapterSlots

open Lib AlignmentBuffer

variable {K : Type}

namespace AlignmentBuffer

/-! ## Buffers with the same queues -/

/-- The same queues with the same `enqueue_time`; records and counters may
differ, and `T_max`, which the PI tick writes. -/
structure SameQueues (b b' : AlignmentBuffer K) : Prop where
  queues : b'.queues = b.queues
  times : b'.enqueueTime = b.enqueueTime
  warp : b'.W = b.W
  slo : b'.ttftSlo = b.ttftSlo

theorem SameQueues.refl (b : AlignmentBuffer K) : SameQueues b b := ⟨rfl, rfl, rfl, rfl⟩

theorem SameQueues.trans {b b₁ b' : AlignmentBuffer K} (h : SameQueues b b₁)
    (h' : SameQueues b₁ b') : SameQueues b b' :=
  ⟨h'.queues.trans h.queues, h'.times.trans h.times, h'.warp.trans h.warp, h'.slo.trans h.slo⟩

theorem SameQueues.queue_eq {b b' : AlignmentBuffer K} (h : SameQueues b b') (k : String) :
    b'.queue k = b.queue k := by
  rw [queue, queue, h.queues]

theorem SameQueues.oldest_eq {b b' : AlignmentBuffer K} (h : SameQueues b b') (k : String) :
    b'.oldest k = b.oldest k := by
  rw [oldest, oldest, h.times]

theorem sameQueues_releaseGroups : ∀ (groups : List SequenceGroup) (b : AlignmentBuffer K),
    SameQueues b (groups.foldl (fun b g => b.release g.seqGroupId) b)
  | [], b => SameQueues.refl b
  | g :: gs, b =>
      have hrelease : SameQueues b (b.release g.seqGroupId) := ⟨rfl, rfl, rfl, rfl⟩
      hrelease.trans (sameQueues_releaseGroups gs _)

/-! ## The settings -/

/-- The warp width and `T_SLO`. -/
def settings (b : AlignmentBuffer K) : ℕ × K := (b.W, b.ttftSlo)

theorem SameQueues.settings_eq {b b' : AlignmentBuffer K} (h : SameQueues b b') :
    b'.settings = b.settings :=
  Prod.ext h.warp h.slo

/-- What no operation of the buffer changes. -/
def limits (b : AlignmentBuffer K) : ℕ × K × K := (b.W, b.tMax, b.ttftSlo)

theorem settings_of_limits {b b' : AlignmentBuffer K} (h : b'.limits = b.limits) :
    b'.settings = b.settings :=
  congrArg (fun l : ℕ × K × K => (l.1, l.2.2)) h

theorem limits_enqueue (b : AlignmentBuffer K) (k : String) (s : ℕ) (t : K) :
    (b.enqueue k s t).limits = b.limits := by
  unfold enqueue
  split
  · rfl
  · unfold registerAdapter
    split <;> rfl

theorem limits_enqueueGroups (clock : ℕ → K) : ∀ (groups : List SequenceGroup)
    (b : AlignmentBuffer K),
    (AlignmentAwareScheduler.enqueueGroups clock groups b).limits = b.limits
  | [], _ => rfl
  | g :: gs, b => by
      rw [AlignmentAwareScheduler.enqueueGroups, List.foldl_cons,
        ← AlignmentAwareScheduler.enqueueGroups, limits_enqueueGroups clock gs,
        limits_enqueue]

theorem limits_popBlocks (t : K) : ∀ (P : List Block) (b : AlignmentBuffer K),
    (P.foldl (popBlock t) b).limits = b.limits
  | [], _ => rfl
  | blk :: P, b => limits_popBlocks t P (popBlock t b blk)

theorem limits_apply [Field K] [LinearOrder K] (c : DispatchCall K) (b : AlignmentBuffer K)
    (m : Option ℤ) (t : K) : (c.apply b m t).1.limits = b.limits := by
  rw [c.apply_eq_plan]
  exact limits_popBlocks t _ b

theorem limits_drainSeq (b : AlignmentBuffer K) (k : String) (s : ℕ) :
    (b.drainSeq k s).limits = b.limits := by
  unfold drainSeq
  split <;> rfl

/-- The entries of the groups leave their queues. -/
def drainGroups (b : AlignmentBuffer K) (groups : List SequenceGroup) : AlignmentBuffer K :=
  (groups.map fun g => (g.adapterId, g.seqGroupId)).foldl (fun b g => b.drainSeq g.1 g.2) b

theorem drainGroups_cons (b : AlignmentBuffer K) (g : SequenceGroup) (gs : List SequenceGroup) :
    b.drainGroups (g :: gs) = (b.drainSeq g.adapterId g.seqGroupId).drainGroups gs :=
  rfl

theorem limits_drainGroups : ∀ (groups : List SequenceGroup) (b : AlignmentBuffer K),
    (b.drainGroups groups).limits = b.limits
  | [], _ => rfl
  | g :: gs, b => by
      rw [drainGroups_cons, limits_drainGroups gs, limits_drainSeq]

end AlignmentBuffer

namespace AlignmentAwareScheduler

variable [Field K] [LinearOrder K] {cfg : Config K} {env : Env K}
  {s s' s₁ : AlignmentAwareScheduler K} {i : TickInput K} {call : DispatchCall K}
  {out : List SequenceGroup} {tr : TickHistory K}

/-! ## The tail of a tick -/

theorem sameQueues_logWarStats {batch : List SequenceGroup}
    (h : s.logWarStats cfg env batch = .ok s') : SameQueues s.buffer s'.buffer := by
  rcases logWarStats_eq h with rfl | rfl
  · exact SameQueues.refl _
  · exact sameQueues_releaseGroups batch s.buffer

theorem sameQueues_updateTmax {batch : List SequenceGroup} (h : s.updateTmax env batch = .ok s') :
    SameQueues s.buffer s'.buffer := by
  unfold updateTmax at h
  split at h
  · obtain rfl := Except.ok.inj h
    exact SameQueues.refl _
  · obtain ⟨w, -, h⟩ := bind_eq_ok h
    obtain rfl := Except.ok.inj h
    exact ⟨rfl, rfl, rfl, rfl⟩

/-- The early release is the drain, up to enqueue records. -/
theorem sameQueues_releaseEarly (hmode : cfg.mode = .wgkp) :
    SameQueues ((s.dispatch i call).1.buffer.drainGroups (s.drainedGroups cfg i call))
      (s.releaseEarly i (s.dispatch i call)).1.buffer := by
  by_cases hempty : i.sel.prefillGroups = [] ∧ s.postAlignmentGroups i = []
      ∧ s.alignedGroups i call = []
  · have hal : (s.dispatch i call).2 = [] := hempty.2.2
    have hdr : s.drainedGroups cfg i call = s.firstTimeGroups i := if_pos ⟨hmode, hempty⟩
    have hall : ((s.firstTimeGroups i).map fun g => (g.adapterId, g.seqGroupId)).filter
        (fun g => decide (g.2 ∉ ([] : List ℕ)))
        = (s.firstTimeGroups i).map fun g => (g.adapterId, g.seqGroupId) :=
      List.filter_eq_self.mpr fun g _ => by simp
    have hr : (s.releaseEarly i (s.dispatch i call)).1
        = ((s.dispatch i call).1.drainBufferRemaining (s.firstTimeGroups i) []).1 := by
      simp only [releaseEarly, hal, hempty.1, hempty.2.1, and_self, if_true]
      rfl
    have hbuf : ((s.dispatch i call).1.buffer.drainRemaining
          ((s.firstTimeGroups i).map fun g => (g.adapterId, g.seqGroupId)) [])
        = (s.dispatch i call).1.buffer.drainGroups (s.firstTimeGroups i) := by
      rw [drainRemaining, hall]
      rfl
    rw [hr, hdr, ← hbuf]
    exact sameQueues_releaseGroups _ _
  · have hdr : s.drainedGroups cfg i call = [] := if_neg fun h => hempty h.2
    have hr : s.releaseEarly i (s.dispatch i call)
        = ((s.dispatch i call).1.releaseGroups (s.alignedGroups i call), []) := if_neg hempty
    rw [hr, hdr]
    exact sameQueues_releaseGroups _ _

/-- Behind the dispatch only a drain changes a queue. -/
theorem sameQueues_emitTick (h : s.emitTick cfg env i call = .ok (s', out)) :
    SameQueues
      ((call.apply s.buffer (some i.sel.decodeGroups.length) i.clock.formBatch).1.drainGroups
        (s.drainedGroups cfg i call))
      s'.buffer := by
  unfold emitTick at h
  cases hmode : cfg.mode <;> simp only [hmode] at h
  case wgkp =>
    obtain ⟨s₂, hlog, h⟩ := bind_eq_ok h
    obtain ⟨rfl, -⟩ := Prod.mk.inj (Except.ok.inj h)
    exact (sameQueues_releaseEarly hmode).trans (sameQueues_logWarStats hlog)
  case piAdaptive =>
    obtain ⟨s₂, htmax, h⟩ := bind_eq_ok h
    obtain ⟨s₃, hlog, h⟩ := bind_eq_ok h
    obtain ⟨rfl, -⟩ := Prod.mk.inj (Except.ok.inj h)
    have hlog' := sameQueues_logWarStats hlog
    rw [dropFinished_buffer] at hlog'
    rw [drainedGroups_of_ne (by simp [hmode])]
    exact (sameQueues_updateTmax htmax).trans hlog'
  all_goals
    obtain ⟨s₂, hlog, h⟩ := bind_eq_ok h
    obtain ⟨rfl, -⟩ := Prod.mk.inj (Except.ok.inj h)
    rw [drainedGroups_of_ne (by simp [hmode])]
    exact sameQueues_logWarStats hlog

/-- What the ticks before the dispatch keep of the past, besides the buffer and the
aligned set. -/
def steering (s : AlignmentAwareScheduler K) : ArrivalRateEstimator K
    × Option (WarmCacheManager K) × Option (AdaptivePromoThreshold K)
    × Dict String (ℕ × String) :=
  (s.estimator, s.cacheMgr, s.apt, s.loraInfo)

theorem steering_dispatch : (s.dispatch i call).1.steering = s.steering := rfl

theorem steering_logWarStats {batch : List SequenceGroup}
    (h : s.logWarStats cfg env batch = .ok s') : s'.steering = s.steering := by
  rcases logWarStats_eq h with rfl | rfl <;> rfl

theorem steering_updateTmax {batch : List SequenceGroup} (h : s.updateTmax env batch = .ok s') :
    s'.steering = s.steering := by
  unfold updateTmax at h
  split at h
  · obtain rfl := Except.ok.inj h
    rfl
  · obtain ⟨w, -, h⟩ := bind_eq_ok h
    obtain rfl := Except.ok.inj h
    rfl

theorem steering_dropFinished : (s.dropFinished i).steering = s.steering := by
  unfold dropFinished
  split <;> rfl

theorem steering_releaseEarly :
    (s.releaseEarly i (s.dispatch i call)).1.steering = s.steering := by
  unfold releaseEarly
  dsimp only
  split <;> rfl

/-- From the dispatch on a tick leaves it alone. -/
theorem steering_emitTick (h : s.emitTick cfg env i call = .ok (s', out)) :
    s'.steering = s.steering := by
  unfold emitTick at h
  cases hmode : cfg.mode <;> simp only [hmode] at h
  case wgkp =>
    obtain ⟨s₂, hlog, h⟩ := bind_eq_ok h
    obtain ⟨rfl, -⟩ := Prod.mk.inj (Except.ok.inj h)
    exact (steering_logWarStats hlog).trans steering_releaseEarly
  case piAdaptive =>
    obtain ⟨s₂, htmax, h⟩ := bind_eq_ok h
    obtain ⟨s₃, hlog, h⟩ := bind_eq_ok h
    obtain ⟨rfl, -⟩ := Prod.mk.inj (Except.ok.inj h)
    exact (steering_logWarStats hlog).trans
      (steering_dropFinished.trans ((steering_updateTmax htmax).trans steering_dispatch))
  all_goals
    obtain ⟨s₂, hlog, h⟩ := bind_eq_ok h
    obtain ⟨rfl, -⟩ := Prod.mk.inj (Except.ok.inj h)
    exact (steering_logWarStats hlog).trans steering_dispatch

theorem cacheMgr_emitTick (h : s.emitTick cfg env i call = .ok (s', out)) :
    s'.cacheMgr = s.cacheMgr :=
  congrArg (fun r => r.2.1) (steering_emitTick h)

/-! ## Settings for ever -/

theorem settings_atSplit (cfg : Config K) (s : AlignmentAwareScheduler K) (i : TickInput K) :
    (atSplit cfg s i).buffer.settings = s.buffer.settings := by
  unfold atSplit
  split <;> rfl

theorem Prepared.settings_eq (h : Prepared cfg s i s₁ call) :
    s₁.buffer.settings = s.buffer.settings := by
  rw [h.buffer_eq, settings_of_limits (limits_enqueueGroups ..), settings_atSplit]

theorem settings_emitTick (h : s.emitTick cfg env i call = .ok (s', out)) :
    s'.buffer.settings = s.buffer.settings := by
  rw [(sameQueues_emitTick h).settings_eq, settings_of_limits (limits_drainGroups ..),
    settings_of_limits (limits_apply ..)]

/-- The two ways a tick returns, with its tail. -/
theorem tick_cases (h : Tick cfg env s i out s') :
    (i.sel.decodeGroups = [] ∧ s' = s.countCall ∧ out = i.sel.scheduled)
      ∨ (i.sel.decodeGroups ≠ [] ∧ ∃ s₁ call,
          s.countCall.prepareTick cfg env i = .ok (s₁, call) ∧ Prepared cfg s i s₁ call
            ∧ s₁.emitTick cfg env i call = .ok (s', out)) := by
  unfold Tick at h
  rw [schedule_eq] at h
  unfold scheduleInner at h
  split at h
  · rename_i hnone
    obtain ⟨rfl, rfl⟩ := Prod.mk.inj (Except.ok.inj h)
    exact .inl ⟨hnone, rfl, rfl⟩
  · rename_i hsome
    obtain ⟨⟨s₁, call⟩, hprep, hemit⟩ := bind_eq_ok h
    exact .inr ⟨hsome, s₁, call, hprep, (prepared_of_prepareTick hprep).of_countCall, hemit⟩

/-- The warp width and `T_SLO` stay those of the configuration. -/
theorem settings_of_run (h : Exec (Tick cfg env) (init cfg) tr s) :
    s.buffer.settings = (cfg.warpSize, cfg.ttftSloMs / 1000) := by
  induction h with
  | nil => rfl
  | snoc _ htick ih =>
      rcases tick_cases htick with ⟨-, rfl, -⟩ | ⟨-, s₁, call, -, hspec, hemit⟩
      · exact ih
      · rw [settings_emitTick hemit, hspec.settings_eq, ih]

/-! ## Every queue is visited -/

/-- The penalised scores are those of the same adapters. -/
theorem mem_penalized {m : WarmCacheManager K} {k : String} : ∀ {es : List (String × K)}
    {a r : Dict String K × Dict String K}, es.foldlM (penalizeOne cfg i m) a = .ok r →
    (k ∈ r.2 ↔ k ∈ a.2 ∨ k ∈ es.map Prod.fst)
  | [], a, r, h => by
      obtain rfl := Except.ok.inj h
      exact (or_iff_left List.not_mem_nil).symm
  | e :: es, a, r, h => by
      obtain ⟨a', ha', h⟩ := bind_eq_ok h
      have hstep : k ∈ a'.2 ↔ k = e.1 ∨ k ∈ a.2 := by
        unfold penalizeOne at ha'
        split at ha'
        · obtain rfl := Except.ok.inj ha'
          exact Dict.mem_insert
        · obtain ⟨p, -, ha'⟩ := bind_eq_ok ha'
          obtain rfl := Except.ok.inj ha'
          exact Dict.mem_insert
      rw [mem_penalized h, hstep, List.map_cons, List.mem_cons]
      tauto

/-- The CASH order ranks the registered adapters. -/
theorem perm_cashOrder {tmaxK : Dict String K} {r : AlignmentAwareScheduler K × List String}
    (h : s.cashOrder cfg env i tmaxK = .ok r) : r.2.Perm r.1.buffer.queues.keys := by
  refine (List.perm_ext_iff_of_nodup (spec_cashOrder h).2 (Dict.nodup_keys _)).mpr fun k => ?_
  unfold cashOrder at h
  obtain ⟨p, hp, h⟩ := bind_eq_ok h
  obtain rfl := Except.ok.inj h
  refine (CASHDispatcher.rank_perm p.2).mem_iff.trans ?_
  obtain ⟨d, hd⟩ := penalizeCold_eq hp
  have hscores : k ∈ (CASHDispatcher.computeIndices env cfg.warpSize s.buffer.pendingCount
      (ages s.buffer i.clock.cashOrder) s.estimator.getAllRates
      (s.buffer.pendingCount.mapValues fun k _ => min (tmaxK.getD k (cfg.ttftSloMs / 1000))
        (cfg.ttftSloMs / 1000))).keys ↔ k ∈ s.buffer.queues.keys := by
    rw [CASHDispatcher.computeIndices, Dict.keys_mapValues, pendingCount, Dict.keys_mapValues]
  rw [hd, ← hscores]
  unfold penalizeCold at hp
  split at hp
  · obtain rfl := Except.ok.inj hp
    exact Iff.rfl
  · obtain ⟨q, hq, hp⟩ := bind_eq_ok hp
    obtain rfl := Except.ok.inj hp
    exact (mem_penalized hq).trans (or_iff_right List.not_mem_nil)

/-- The call a tick makes visits every queue, and none twice. -/
theorem covers_of_prepareTick (h : s.prepareTick cfg env i = .ok (s₁, call)) :
    call.Covers s₁.buffer := by
  refine ⟨(prepared_of_prepareTick h).ranked, ?_⟩
  unfold prepareTick at h
  cases hmode : cfg.mode <;> simp only [hmode] at h
  case threshold =>
    obtain ⟨rfl, rfl⟩ := Prod.mk.inj (Except.ok.inj h)
    exact fun k hk => hk
  case piAdaptive =>
    obtain ⟨rfl, rfl⟩ := Prod.mk.inj (Except.ok.inj h)
    exact fun k hk => hk
  case erlang =>
    obtain ⟨r, -, h⟩ := bind_eq_ok h
    obtain ⟨rfl, rfl⟩ := Prod.mk.inj (Except.ok.inj h)
    exact fun k hk => hk
  case cash =>
    obtain ⟨s₂, -, h⟩ := bind_eq_ok h
    obtain ⟨r, hr, h⟩ := bind_eq_ok h
    obtain ⟨rfl, rfl⟩ := Prod.mk.inj (Except.ok.inj h)
    exact fun k hk => (perm_cashOrder hr).mem_iff.mpr hk
  case wgkp =>
    obtain ⟨s₂, -, h⟩ := bind_eq_ok h
    obtain ⟨r, hr, h⟩ := bind_eq_ok h
    obtain ⟨rfl, rfl⟩ := Prod.mk.inj (Except.ok.inj h)
    exact fun k hk => (perm_cashOrder hr).mem_iff.mpr hk

end AlignmentAwareScheduler

end AdapterSlots
