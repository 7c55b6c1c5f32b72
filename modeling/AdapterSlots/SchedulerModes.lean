import AdapterSlots.Lib.Simulation
import AdapterSlots.BufferOrder
import AdapterSlots.SchedulerHolding
import AdapterSlots.SchedulerOrder
import AdapterSlots.SchedulerReturn

/-!
# The modes compared

With `AS_DEADLINE=fixed` the erlang and the cash ticks read the global
`T_max` for every queue. What is left of a mode is then its visiting order.

`erlang_runs_as_threshold`: an erlang scheduler without a warm set has the
runs of the threshold scheduler, with the same batches.
`cash_only_reorders`: while vLLM offers what waits, a run of the cash
scheduler is matched tick by tick by a run of the threshold scheduler that
emits the same groups; the rates, the warm set and the deferral of cold
adapters decide about the order of the adapter blocks dispatched in a tick
and about nothing else.

Both are simulations. The states they relate have equal buffers as Python
values (`SameState`) and one aligned set.
-/

namespace AdapterSlots

open Lib AlignmentBuffer

variable {K : Type}

/-! ## Equal buffers under the operations of a tick -/

namespace AlignmentBuffer

namespace SameState

variable {b b' : AlignmentBuffer K}

theorem symm (h : SameState b b') : SameState b' b where
  warp := h.warp.symm
  tMax := h.tMax.symm
  ttftSlo := h.ttftSlo.symm
  registered := h.registered.symm
  queues k := (h.queues k).symm
  shadow := h.shadow.symm
  shadowTime := h.shadowTime.symm
  enqueueTime k := (h.enqueueTime k).symm
  lastDispatch k := (h.lastDispatch k).symm
  nWarpsDispatched := h.nWarpsDispatched.symm
  nTimeoutDispatches := h.nTimeoutDispatches.symm
  nTokensEnqueued := h.nTokensEnqueued.symm
  nTokensDispatched := h.nTokensDispatched.symm
  seqEnqueue := h.seqEnqueue.symm

theorem oldest (h : SameState b b') (k : String) : b.oldest k = b'.oldest k := by
  rw [AlignmentBuffer.oldest, AlignmentBuffer.oldest, h.enqueueTime k]

theorem mem_queues (h : SameState b b') {k : String} : k ∈ b.queues ↔ k ∈ b'.queues := by
  rw [Dict.mem_def, Dict.mem_def, h.registered]

theorem registerAdapter (h : SameState b b') (k : String) :
    SameState (b.registerAdapter k) (b'.registerAdapter k) := by
  by_cases hk : k ∈ b.queues
  · have hk' := h.mem_queues.mp hk
    rw [AlignmentBuffer.registerAdapter, AlignmentBuffer.registerAdapter, if_pos hk, if_pos hk']
    exact h
  · have hk' := fun hk' => hk (h.mem_queues.mpr hk')
    rw [AlignmentBuffer.registerAdapter, AlignmentBuffer.registerAdapter, if_neg hk, if_neg hk']
    refine { h with registered := ?_, queues := ?_, shadow := ?_, enqueueTime := ?_ }
    · rw [Dict.keys_insert, Dict.keys_insert, if_neg hk, if_neg hk', h.registered]
    · intro k'
      rw [Dict.get?_insert, Dict.get?_insert, h.queues k']
    · exact congrArg (Dict.insert · k []) h.shadow
    · intro k'
      rw [Dict.get?_insert, Dict.get?_insert, h.enqueueTime k']

theorem appendToken (h : SameState b b') {k : String} (hk : k ∈ b.queues) (s : ℕ) (t : K) :
    SameState (b.appendToken k s t) (b'.appendToken k s t) := by
  have hq := h.queue k
  have ho := h.oldest k
  refine { h with registered := ?_, queues := ?_, enqueueTime := ?_, nTokensEnqueued := ?_,
                  seqEnqueue := ?_ }
  · exact (Dict.keys_insert_of_mem hk _).trans
      (h.registered.trans (Dict.keys_insert_of_mem (h.mem_queues.mp hk) _).symm)
  · intro k'
    show (b.queues.insert k _).get? k' = (b'.queues.insert k _).get? k'
    rw [Dict.get?_insert, Dict.get?_insert, hq, h.queues k']
  · intro k'
    show (if b.oldest k = none then _ else b.enqueueTime).get? k'
      = (if b'.oldest k = none then _ else b'.enqueueTime).get? k'
    rw [ho]
    split
    · rw [Dict.get?_insert, Dict.get?_insert, h.enqueueTime k']
    · exact h.enqueueTime k'
  · exact congrArg (· + 1) h.nTokensEnqueued
  · exact congrArg (Dict.insert · s t) h.seqEnqueue

theorem enqueue (h : SameState b b') (k : String) (s : ℕ) (t : K) :
    SameState (b.enqueue k s t) (b'.enqueue k s t) := by
  unfold AlignmentBuffer.enqueue
  rw [h.seqEnqueue]
  split
  · exact h
  · exact (h.registerAdapter k).appendToken
      ((mem_queues_registerAdapter b).mpr (.inl (Eq.refl k))) s t

theorem enqueueGroups (clock : ℕ → K) : ∀ (groups : List SequenceGroup)
    {b b' : AlignmentBuffer K}, SameState b b' →
    SameState (AlignmentAwareScheduler.enqueueGroups clock groups b)
      (AlignmentAwareScheduler.enqueueGroups clock groups b')
  | [], _, _, h => h
  | g :: gs, _, _, h => enqueueGroups clock gs (h.enqueue g.adapterId g.seqGroupId _)

end SameState

/-- Releasing groups filters the records. -/
theorem releaseGroups_eq (groups : List SequenceGroup) (b : AlignmentBuffer K) :
    groups.foldl (fun b g => b.release g.seqGroupId) b
      = { b with
          seqEnqueue := b.seqEnqueue.filterKeys fun x =>
            decide (x ∉ groups.map SequenceGroup.seqGroupId) } := by
  induction groups generalizing b with
  | nil =>
      have hall : (b.seqEnqueue.filterKeys fun x => decide (x ∉ ([] : List ℕ)))
          = b.seqEnqueue := by
        refine Dict.ext (List.filter_eq_self.mpr fun e _ => by simp)
      simp only [List.foldl_nil, List.map_nil, hall]
  | cons g gs ih =>
      rw [List.foldl_cons, ih]
      have hrec : (b.seqEnqueue.erase g.seqGroupId).filterKeys
            (fun x => decide (x ∉ gs.map SequenceGroup.seqGroupId))
          = b.seqEnqueue.filterKeys
            fun x => decide (x ∉ (g :: gs).map SequenceGroup.seqGroupId) := by
        refine Dict.ext ?_
        show List.filter _ (List.filter _ _) = List.filter _ _
        rw [List.filter_filter]
        refine List.filter_congr fun e _ => ?_
        dsimp only
        rw [← Bool.decide_and]
        refine decide_eq_decide.mpr ?_
        rw [List.map_cons, List.mem_cons, not_or, and_comm]
      simp only [release, hrec]

theorem SameState.releaseGroups {b b' : AlignmentBuffer K} (h : SameState b b')
    {groups groups' : List SequenceGroup} (hp : groups.Perm groups') :
    SameState (groups.foldl (fun b g => b.release g.seqGroupId) b)
      (groups'.foldl (fun b g => b.release g.seqGroupId) b') := by
  rw [releaseGroups_eq, releaseGroups_eq]
  refine { h with seqEnqueue := ?_ }
  dsimp only
  rw [h.seqEnqueue]
  refine congrArg (Dict.filterKeys · b'.seqEnqueue) (funext fun x => ?_)
  exact decide_eq_decide.mpr (not_congr (hp.map SequenceGroup.seqGroupId).mem_iff)

/-! ## Dispatches on equal buffers -/

section Dispatch

variable [Field K] [LinearOrder K] {b b' : AlignmentBuffer K} {c c' : DispatchCall K}
  {m : Option ℤ} {t : K}

/-- The rules agree on the adapters a call visits. -/
def AgreeOn (ks : List String) (rule rule' : String → ℕ → K → ℕ → Verdict) : Prop :=
  ∀ k ∈ ks, rule k = rule' k

omit [LinearOrder K] in
theorem SameState.age (h : SameState b b') (k : String) : b.age k t = b'.age k t := by
  rw [AlignmentBuffer.age, AlignmentBuffer.age, h.oldest k]

omit [LinearOrder K] in
theorem dispatchPlan_agree {rule rule' : String → ℕ → K → ℕ → Verdict} {budget : ℤ}
    (h : SameState b b') : ∀ {ks : List String} {sent : ℕ}, AgreeOn ks rule rule' →
    dispatchPlan rule budget t b ks sent = dispatchPlan rule' budget t b' ks sent
  | [], _, _ => rfl
  | k :: ks, sent, hrule => by
      have htail : ∀ sent, dispatchPlan rule budget t b ks sent
          = dispatchPlan rule' budget t b' ks sent :=
        fun _ => dispatchPlan_agree h fun k' hk' => hrule k' (List.mem_cons_of_mem _ hk')
      simp only [dispatchPlan, h.queue k, h.age k, hrule k (List.mem_cons_self ..), htail]

omit [LinearOrder K] in
theorem freeBlock_agree {rule rule' : String → ℕ → K → ℕ → Verdict} {k : String}
    (h : SameState b b') (hrule : rule k = rule' k) :
    freeBlock rule t b k = freeBlock rule' t b' k := by
  simp only [freeBlock, h.queue k, h.age k, hrule]

/-- Two calls that visit the same adapters in the same order. -/
theorem plan_agree (h : SameState b b') (hc : c.RankedNodup) (hc' : c'.RankedNodup)
    (hbudget : b.budget m = b'.budget m) (hv : c.visiting b = c'.visiting b')
    (hrule : AgreeOn (c.visiting b) (c.rule b) (c'.rule b')) :
    c.plan b m t = c'.plan b' m t := by
  rw [c.plan_eq_dispatchPlan hc, c'.plan_eq_dispatchPlan hc', hbudget, ← hv]
  exact dispatchPlan_agree h hrule

omit [Field K] [LinearOrder K] in
theorem listedTokens_le_totalQueued (b : AlignmentBuffer K) {ks : List String} (hnd : ks.Nodup) :
    b.listedTokens ks ≤ b.totalQueued := by
  refine le_trans (le_of_eq ?_) (Dict.sum_map_get?_le List.length b.queues hnd)
  rw [listedTokens]
  congr 1
  refine List.map_congr_left fun k _ => ?_
  rw [queue, Dict.getD]
  cases b.queues.get? k <;> rfl

/-- Two calls that visit the same adapters, with a budget for all tokens. -/
theorem plan_perm_agree (h : SameState b b') (hc : c.RankedNodup) (hc' : c'.RankedNodup)
    (hv : (c.visiting b).Perm (c'.visiting b'))
    (hrule : AgreeOn (c.visiting b) (c.rule b) (c'.rule b'))
    (hroom : (b.totalQueued : ℤ) ≤ b.budget m) (hbudget : b.budget m = b'.budget m) :
    (c.plan b m t).Perm (c'.plan b' m t) := by
  have hlisted : b'.listedTokens (c'.visiting b') = b.listedTokens (c.visiting b) := by
    rw [listedTokens, listedTokens, ← (hv.map _).sum_eq]
    exact congrArg _ (List.map_congr_left fun k _ => by rw [h.queue k])
  have hle := b.listedTokens_le_totalQueued (c.nodup_visiting hc b)
  have hplan : c.plan b m t = (c.visiting b).filterMap (freeBlock (c'.rule b') t b') := by
    rw [c.plan_eq_dispatchPlan hc,
      dispatchPlan_of_room (c.roomFree b) (c.ruleOk b) (by omega)]
    exact List.filterMap_congr fun k hk => freeBlock_agree h (hrule k hk)
  have hplan' : c'.plan b' m t = (c'.visiting b').filterMap (freeBlock (c'.rule b') t b') := by
    rw [c'.plan_eq_dispatchPlan hc',
      dispatchPlan_of_room (c'.roomFree b') (c'.ruleOk b') (by omega)]
  rw [hplan, hplan']
  exact hv.filterMap _

omit [Field K] in
theorem SameState.rule_threshold (h : SameState b b') :
    deadlineRule b.W (fun _ => min b.tMax b.ttftSlo)
      = deadlineRule b'.W fun _ => min b'.tMax b'.ttftSlo := by
  rw [h.warp, h.tMax, h.ttftSlo]

/-- Permuted plans lead to equal buffers. -/
theorem SameState.apply (h : SameState b b') (hc : c.RankedNodup)
    (hp : (c.plan b m t).Perm (c'.plan b' m t)) :
    SameState (c.apply b m t).1 (c'.apply b' m t).1 := by
  have hreg : ∀ blk ∈ c.plan b m t, blk.adapter ∈ b.queues := fun blk hblk =>
    mem_queues_of_fits (c.fits_plan b m t) (List.mem_map.mpr ⟨blk, hblk, Eq.refl _⟩)
  rw [c.apply_eq_plan, c'.apply_eq_plan]
  refine (popBlocks_perm hp (c.nodup_plan b m t hc) hreg).trans (popBlocks_congr h ?_)
  exact fun blk hblk => hreg blk (hp.mem_iff.mpr hblk)

end Dispatch

end AlignmentBuffer

/-! ## Two schedulers -/

variable [Field K] [LinearOrder K]

/-- The configuration in the given mode with `AS_DEADLINE=fixed`. -/
def Config.fixed (cfg : Config K) (mode : Mode) : Config K :=
  { cfg with
    mode := mode
    fixedDeadline := true }

namespace AlignmentAwareScheduler

/-- Equal buffers and one aligned set. -/
structure Alike (s t : AlignmentAwareScheduler K) : Prop where
  buffer : SameState s.buffer t.buffer
  post : t.postAlignmentSeqs = s.postAlignmentSeqs

section Alike

variable {adapterOf : ℕ → String} {cfg cfg' : Config K} {env : Env K}
  {s s' t : AlignmentAwareScheduler K} {i : TickInput K} {call call' : DispatchCall K}
  {out : List SequenceGroup}

/-- The groups of this tick whose tokens a block pops, in order. -/
def blockGroups (s : AlignmentAwareScheduler K) (i : TickInput K) (blk : Block) :
    List SequenceGroup :=
  (((s.buffer.queue blk.adapter).take blk.n).map Prod.fst).filterMap fun x =>
    (Dict.empty.insertAll ((s.firstTimeGroups i).map fun g => (g.seqGroupId, g)) :
      Dict ℕ SequenceGroup).get? x

theorem alignedGroups_eq_blockGroups (hranked : call.RankedNodup) :
    s.alignedGroups i call = (s.blocks i call).flatMap (s.blockGroups i) := by
  show List.filterMap _ (s.dispatchedPairs i call) = _
  rw [dispatchedPairs_eq hranked, List.filterMap_flatMap]
  refine List.flatMap_congr fun blk _ => ?_
  rw [List.filterMap_map]
  rfl

/-- The groups of a block have its adapter. -/
theorem adapterId_of_blockGroups (h : Waiting adapterOf s) (hfix : i.FixedAdapter adapterOf)
    {blk : Block} : ∀ g ∈ s.blockGroups i blk, g.adapterId = blk.adapter := by
  intro g hg
  obtain ⟨x, hx, hget⟩ := List.mem_filterMap.mp hg
  obtain ⟨hfirst, rfl⟩ := (get?_seqIdToSg nodup_firstTimeGroups).mp hget
  rw [adapterId_of_decode hfix (mem_firstTimeGroups.mp hfirst).1]
  exact h.own _ _ (List.map_subset _ (List.take_subset ..) hx)

theorem Alike.blockGroups_eq (h : Alike s t) : t.blockGroups i = s.blockGroups i := by
  funext blk
  rw [blockGroups, blockGroups, (split_of_post_eq h.post).1, h.buffer.queue]

/-- The same groups, and those of each adapter in the same order. -/
structure SameGroups (gs gs' : List SequenceGroup) : Prop where
  perm : gs.Perm gs'
  perAdapter : ∀ k, gs'.filter (fun g => decide (g.adapterId = k))
    = gs.filter fun g => decide (g.adapterId = k)

theorem filter_flatMap_of_key {α β κ : Type} [DecidableEq κ] {f : α → List β} {key : α → κ}
    {key' : β → κ} (h : ∀ a, ∀ x ∈ f a, key' x = key a) (k : κ) : ∀ l : List α,
    (l.flatMap f).filter (fun x => decide (key' x = k))
      = (l.filter fun a => decide (key a = k)).flatMap f
  | [] => rfl
  | a :: l => by
      rw [List.flatMap_cons, List.filter_append, filter_flatMap_of_key h k l]
      by_cases hk : key a = k
      · have hall : (f a).filter (fun x => decide (key' x = k)) = f a :=
          List.filter_eq_self.mpr fun x hx => decide_eq_true ((h a x hx).trans hk)
        rw [hall, List.filter_cons_of_pos (by simpa using hk), List.flatMap_cons]
      · have hnone : (f a).filter (fun x => decide (key' x = k)) = [] :=
          List.filter_eq_nil_iff.mpr fun x hx hx' =>
            hk ((h a x hx).symm.trans (of_decide_eq_true hx'))
        rw [hnone, List.filter_cons_of_neg (by simpa using hk), List.nil_append]

/-- Permuted blocks let the same groups go. -/
theorem Alike.alignedGroups (h : Alike s t) (hw : Waiting adapterOf s)
    (hfix : i.FixedAdapter adapterOf) (hc : call.RankedNodup) (hc' : call'.RankedNodup)
    (hp : (s.blocks i call).Perm (t.blocks i call')) :
    SameGroups (s.alignedGroups i call) (t.alignedGroups i call') := by
  rw [alignedGroups_eq_blockGroups hc, alignedGroups_eq_blockGroups hc', h.blockGroups_eq]
  refine ⟨hp.flatMap_right _, fun k => ?_⟩
  rw [filter_flatMap_of_key (fun _ => adapterId_of_blockGroups hw hfix),
    filter_flatMap_of_key (fun _ => adapterId_of_blockGroups hw hfix),
    filter_adapter_perm hp (DispatchCall.nodup_plan _ _ _ hc)]

/-- The dispatch leaves equal buffers, and the same aligned set. -/
theorem Alike.dispatch (h : Alike s t) (hc : call.RankedNodup)
    (hp : (s.blocks i call).Perm (t.blocks i call'))
    (hal : (s.alignedGroups i call).Perm (t.alignedGroups i call')) :
    Alike (s.dispatch i call).1 (t.dispatch i call').1 := by
  refine ⟨h.buffer.apply hc hp, ?_⟩
  show t.postAlignmentSeqs ∪ ((t.alignedGroups i call').map SequenceGroup.seqGroupId).toFinset
    = s.postAlignmentSeqs ∪ ((s.alignedGroups i call).map SequenceGroup.seqGroupId).toFinset
  rw [h.post, List.toFinset_eq_of_perm _ _ (hal.map SequenceGroup.seqGroupId)]

omit [LinearOrder K] in
/-- A batch whose WAR is computed has adapter numbers that fit. -/
theorem fits_of_computeWarFromIds {ids : List ℤ} {W : ℕ} {w : K}
    (h : computeWarFromIds ids W = .ok w) : ∀ n ∈ ids, Fits64 n := by
  unfold computeWarFromIds at h
  split at h
  · assumption
  · cases h

/-- Two configurations that agree on the batch log. -/
structure SameLog (cfg cfg' : Config K) : Prop where
  logWar : cfg'.logWar = cfg.logWar
  metricsFile : cfg'.metricsFile = cfg.metricsFile

theorem sameLog_fixed (cfg : Config K) (mode mode' : Mode) :
    SameLog (cfg.fixed mode) (cfg.fixed mode') := ⟨rfl, rfl⟩

/-- The batch log of the same groups. -/
theorem Alike.logWarStats (h : Alike s t) (hlog : SameLog cfg cfg')
    {batch batch' : List SequenceGroup} (hp : batch.Perm batch')
    (hs : s.logWarStats cfg env batch = .ok s') :
    ∃ t', t.logWarStats cfg' env batch' = .ok t' ∧ Alike s' t' := by
  unfold AlignmentAwareScheduler.logWarStats at hs ⊢
  rw [hlog.logWar, hlog.metricsFile]
  split at hs
  · rename_i hon
    rw [if_pos hon]
    obtain ⟨w, hw, hs⟩ := bind_eq_ok hs
    obtain rfl := Except.ok.inj hs
    have hfits : ∀ n ∈ batch'.map fun g => adapterIdToInt env g.adapterId, Fits64 n :=
      fun n hn => fits_of_computeWarFromIds hw n ((hp.map _).mem_iff.mpr hn)
    obtain ⟨w', hw', -⟩ := computeWarFromIds_returns (K := K) t.buffer.W hfits
    rw [hw']
    split
    · exact ⟨t.releaseGroups batch', rfl, h.buffer.releaseGroups hp, h.post⟩
    · exact ⟨t, rfl, h⟩
  · rename_i hoff
    rw [if_neg hoff]
    obtain rfl := Except.ok.inj hs
    exact ⟨t, rfl, h⟩

end Alike

/-! ## The ticks with fixed deadlines -/

section Ticks

variable {adapterOf : ℕ → String} {cfg : Config K} {env : Env K}
  {s s' s₁ t t' t₁ : AlignmentAwareScheduler K} {i : TickInput K} {call call' : DispatchCall K}
  {out out' : List SequenceGroup}

theorem tick_of_parts {cfg : Config K} (hsome : i.sel.decodeGroups ≠ [])
    (hprep : s.countCall.prepareTick cfg env i = .ok (s₁, call))
    (htail : s₁.emitTick cfg env i call = .ok (s', out)) : Tick cfg env s i out s' := by
  unfold Tick
  rw [schedule_eq, scheduleInner, if_neg hsome, hprep]
  exact htail

theorem tick_of_nil {cfg : Config K} (hnone : i.sel.decodeGroups = []) :
    Tick cfg env s i i.sel.scheduled s.countCall := by
  unfold Tick
  rw [schedule_eq, scheduleInner, if_pos hnone]
  rfl

/-- With fixed deadlines every queue has `T_max`. -/
theorem get?_deadlines (hfixed : cfg.fixedDeadline = true) {k : String} (hk : k ∈ s.buffer.queues) :
    (s.deadlines cfg env).get? k = some s.buffer.tMax := by
  rw [deadlines, if_pos hfixed, Dict.get?_ofKeys, if_pos (List.mem_append_left _ hk)]

/-- The call of a tick with fixed deadlines. -/
structure FixedCall (s₁ : AlignmentAwareScheduler K) (call : DispatchCall K) : Prop where
  ranked : call.RankedNodup
  visiting : (call.visiting s₁.buffer).Perm s₁.buffer.queues.keys
  rule : AgreeOn (call.visiting s₁.buffer) (call.rule s₁.buffer)
    (DispatchCall.threshold.rule s₁.buffer)

omit [Field K] in
theorem agreeOn_of_deadlines {b : AlignmentBuffer K} {tmaxK : Dict String K} {ks : List String}
    (hks : ∀ k ∈ ks, k ∈ b.queues) (h : ∀ k ∈ b.queues, tmaxK.get? k = some b.tMax) :
    AgreeOn ks (deadlineRule b.W fun k => min (tmaxK.getD k b.ttftSlo) b.ttftSlo)
      (deadlineRule b.W fun _ => min b.tMax b.ttftSlo) := by
  intro k hk
  refine deadlineRule_congr ?_
  rw [Dict.getD, h k (hks k hk), Option.getD_some]

omit [Field K] [LinearOrder K] in
theorem rankedNodup_threshold : (DispatchCall.threshold : DispatchCall K).RankedNodup := trivial

/-- An erlang tick without a warm set. -/
theorem prepareTick_erlang (cfg : Config K) (env : Env K) (i : TickInput K)
    (hnone : s.cacheMgr = none) :
    s.prepareTick (cfg.fixed .erlang) env i
      = .ok ((s.recordArrivals i (s.firstTimeGroups i)).1,
          .erlang ((s.recordArrivals i (s.firstTimeGroups i)).1.deadlines (cfg.fixed .erlang)
            env)) := by
  have hcache : (s.recordArrivals i (s.firstTimeGroups i)).1.cacheMgr = none :=
    (cacheMgr_recordArrivals _).trans hnone
  change s.prepareErlang (cfg.fixed .erlang) env i = _
  unfold prepareErlang applyColdStartBoost
  simp only [hcache]
  rfl

theorem fixedCall_erlang :
    FixedCall s (.erlang (s.deadlines (cfg.fixed .erlang) env)) :=
  ⟨trivial, List.Perm.refl _,
    agreeOn_of_deadlines (fun _ hk => hk) fun _ hk => get?_deadlines rfl hk⟩

/-- A cash tick, with any warm set. -/
theorem fixedCall_cash (h : s.prepareTick (cfg.fixed .cash) env i = .ok (s₁, call)) :
    FixedCall s₁ call := by
  have hranked := (prepared_of_prepareTick h).ranked
  change s.prepareCash (cfg.fixed .cash) env i = .ok (s₁, call) at h
  obtain ⟨s₂, hs₂, h⟩ := bind_eq_ok h
  obtain ⟨r, hr, h⟩ := bind_eq_ok h
  obtain ⟨rfl, rfl⟩ := Prod.mk.inj (Except.ok.inj h)
  have hperm := perm_cashOrder hr
  refine ⟨hranked, hperm, agreeOn_of_deadlines (fun k hk => hperm.mem_iff.mp hk) fun k hk => ?_⟩
  obtain ⟨⟨d, hd⟩, -⟩ := spec_cashOrder hr
  obtain ⟨m, hm⟩ := updatePrefetchCache_eq hs₂
  rw [hd, hm] at hk ⊢
  exact get?_deadlines rfl hk

/-! ## What the two ticks share -/

theorem Prepared.alike {mode mode' : Mode} (hs : Prepared (cfg.fixed mode) s i s₁ call)
    (ht : Prepared (cfg.fixed mode') t i t₁ call') (hmode : mode ≠ .wgkp) (hmode' : mode' ≠ .wgkp)
    (h : Alike s t) : Alike s₁ t₁ := by
  have hsplit : atSplit (cfg.fixed mode) s i = s := if_neg hmode
  have hsplit' : atSplit (cfg.fixed mode') t i = t := if_neg hmode'
  refine ⟨?_, ?_⟩
  · rw [hs.buffer_eq, ht.buffer_eq, hsplit, hsplit', (split_of_post_eq h.post).1]
    exact h.buffer.enqueueGroups _ _
  · rw [hs.post_eq, ht.post_eq, hsplit, hsplit', h.post]

/-- The tails of the threshold, erlang and cash ticks. -/
theorem Alike.emitBatch {cfg cfg' : Config K} (h : Alike s t) (hlog : SameLog cfg cfg')
    (hc : call.RankedNodup)
    (hp : (s.blocks i call).Perm (t.blocks i call'))
    (hal : (s.alignedGroups i call).Perm (t.alignedGroups i call'))
    (hs : s.emitBatch cfg env i call = .ok (s', out)) :
    out = i.sel.prefillGroups ++ (sortByAdapter (s.postAlignmentGroups i)
        ++ s.alignedGroups i call)
      ∧ ∃ t', t.emitBatch cfg' env i call' = .ok (t', i.sel.prefillGroups
            ++ (sortByAdapter (s.postAlignmentGroups i) ++ t.alignedGroups i call'))
          ∧ Alike s' t' := by
  obtain ⟨s₂, hs₂, hs⟩ := bind_eq_ok hs
  obtain ⟨rfl, rfl⟩ := Prod.mk.inj (Except.ok.inj hs)
  refine ⟨rfl, ?_⟩
  have hkept := (split_of_post_eq (i := i) h.post).2
  obtain ⟨t', ht', halike⟩ := (h.dispatch hc hp hal).logWarStats hlog
    (hal.append_left (sortByAdapter (s.postAlignmentGroups i))) hs₂
  refine ⟨t', ?_, halike⟩
  unfold AlignmentAwareScheduler.emitBatch
  rw [hkept]
  change (do
    let s' ← (t.dispatch i call').1.logWarStats cfg' env
      (sortByAdapter (s.postAlignmentGroups i) ++ t.alignedGroups i call')
    pure (s', i.sel.prefillGroups
      ++ (sortByAdapter (s.postAlignmentGroups i) ++ t.alignedGroups i call'))) = _
  rw [ht']
  rfl

/-- A selection without decode groups, split as a tick splits it. -/
theorem scheduled_of_nil (s : AlignmentAwareScheduler K) (hnone : i.sel.decodeGroups = []) :
    i.sel.scheduled
      = i.sel.prefillGroups ++ (sortByAdapter (s.postAlignmentGroups i) ++ []) := by
  have hpre : i.sel.prefillGroups = i.sel.scheduled := by
    refine List.filter_eq_self.mpr fun g hg => ?_
    simpa using List.filter_eq_nil_iff.mp hnone g hg
  rw [hpre, postAlignmentGroups, hnone, List.append_nil]
  exact (List.append_nil _).symm

/-- Two batches that differ in the order of the adapters dispatched now. -/
def OnlyReordered (s : AlignmentAwareScheduler K) (i : TickInput K)
    (out out' : List SequenceGroup) : Prop :=
  ∃ gs gs', out = i.sel.prefillGroups ++ (sortByAdapter (s.postAlignmentGroups i) ++ gs)
    ∧ out' = i.sel.prefillGroups ++ (sortByAdapter (s.postAlignmentGroups i) ++ gs')
    ∧ SameGroups gs gs'

/-! ## The simulations -/

/-- What a cash tick needs in order to be matched. -/
structure Matchable (adapterOf : ℕ → String) (s : AlignmentAwareScheduler K) (i : TickInput K) :
    Prop where
  waiting : Waiting adapterOf s
  fixed : i.FixedAdapter adapterOf
  attended : Attended s i

theorem cash_simulates (adapterOf : ℕ → String) (cfg : Config K) (env : Env K) :
    Simulates (Tick (cfg.fixed .cash) env) (Tick (cfg.fixed .threshold) env) Alike OnlyReordered
      (Matchable adapterOf) := by
  intro s t i out s' h hok htick
  rcases tick_cases htick with ⟨hnone, rfl, rfl⟩ | ⟨hsome, s₁, call, hprep, hspec, htail⟩
  · exact ⟨i.sel.scheduled, t.countCall, tick_of_nil hnone, ⟨h.buffer, h.post⟩, [], [],
      scheduled_of_nil s hnone, scheduled_of_nil s hnone, List.Perm.refl _, fun _ => rfl⟩
  · have hprep' : t.countCall.prepareTick (cfg.fixed .threshold) env i
        = .ok (t.countCall.enqueueDecodeGroups i (t.countCall.firstTimeGroups i), .threshold) := rfl
    have hspec' := (prepared_of_prepareTick hprep').of_countCall
    have h₁ := hspec.alike hspec' (by decide) (by decide) h
    have hw₁ := hok.waiting.prepared hok.fixed hspec
    have hbudget := (hspec.budget hw₁ (hok.attended.resolve_left hsome)).2
    obtain ⟨hranked, hvisit, hrule⟩ := fixedCall_cash hprep
    have hp : (s₁.blocks i call).Perm ((t.countCall.enqueueDecodeGroups i
        (t.countCall.firstTimeGroups i)).blocks i .threshold) := by
      refine plan_perm_agree h₁.buffer hranked trivial ?_ ?_ (Int.ofNat_le.mpr hbudget) rfl
      · exact hvisit.trans (List.Perm.of_eq h₁.buffer.registered)
      · exact fun k hk => (hrule k hk).trans (congrFun h₁.buffer.rule_threshold k)
    have hal := h₁.alignedGroups hw₁ hok.fixed hranked rankedNodup_threshold hp
    obtain ⟨rfl, t', ht', h'⟩ := h₁.emitBatch (sameLog_fixed cfg .cash .threshold) hranked hp
      hal.perm htail
    refine ⟨_, t', tick_of_parts hsome hprep' ht', h', _, _, ?_, ?_, hal⟩
    · rw [(hspec.split_eq).2]
      rfl
    · rw [(hspec.split_eq).2]
      rfl

theorem Alike.symm (h : Alike s t) : Alike t s := ⟨h.buffer.symm, h.post.symm⟩

/-- Equal blocks let the same groups go in the same order. -/
theorem Alike.alignedGroups_eq (h : Alike s t) (hc : call.RankedNodup) (hc' : call'.RankedNodup)
    (hp : s.blocks i call = t.blocks i call') :
    s.alignedGroups i call = t.alignedGroups i call' := by
  rw [alignedGroups_eq_blockGroups hc, alignedGroups_eq_blockGroups hc', h.blockGroups_eq, hp]

/-- The states of an erlang and a threshold tick at the dispatch, and their blocks. -/
theorem prepared_erlang (cfg : Config K) (env : Env K) (i : TickInput K) (h : Alike s t)
    (hnone : s.cacheMgr = none) :
    ∃ s₁ call t₁, s.countCall.prepareTick (cfg.fixed .erlang) env i = .ok (s₁, call)
      ∧ t.countCall.prepareTick (cfg.fixed .threshold) env i = .ok (t₁, .threshold)
      ∧ Alike s₁ t₁ ∧ s₁.cacheMgr = none ∧ call.RankedNodup
      ∧ s₁.blocks i call = t₁.blocks i .threshold := by
  have hprep := prepareTick_erlang cfg env i (s := s.countCall) hnone
  have hprep' : t.countCall.prepareTick (cfg.fixed .threshold) env i
      = .ok (t.countCall.enqueueDecodeGroups i (t.countCall.firstTimeGroups i), .threshold) := rfl
  have h₁ := (prepared_of_prepareTick hprep).of_countCall.alike
    (prepared_of_prepareTick hprep').of_countCall (by decide) (by decide) h
  refine ⟨_, _, _, hprep, hprep', h₁, (cacheMgr_recordArrivals _).trans hnone, trivial, ?_⟩
  refine plan_agree h₁.buffer trivial trivial rfl h₁.buffer.registered fun k hk => ?_
  exact (fixedCall_erlang.rule k hk).trans (congrFun h₁.buffer.rule_threshold k)

theorem erlang_simulates : Simulates (Tick (cfg.fixed .erlang) env)
    (Tick (cfg.fixed .threshold) env) (fun s t => Alike s t ∧ s.cacheMgr = none)
    (fun _ _ out out' => out' = out) (fun _ _ => True) := by
  rintro s t i out s' ⟨h, hnone⟩ - htick
  rcases tick_cases htick with ⟨hdec, rfl, rfl⟩ | ⟨hsome, s₁, call, hprep, -, htail⟩
  · exact ⟨_, _, tick_of_nil hdec, ⟨⟨h.buffer, h.post⟩, hnone⟩, rfl⟩
  · obtain ⟨s₂, call₂, t₁, hprep₂, hprep', h₁, hcache, hranked, hblocks⟩ :=
      prepared_erlang cfg env i h hnone
    obtain ⟨rfl, rfl⟩ := Prod.mk.inj (Except.ok.inj (hprep.symm.trans hprep₂))
    have hal := h₁.alignedGroups_eq hranked rankedNodup_threshold hblocks
    obtain ⟨rfl, t', ht', h'⟩ := h₁.emitBatch (sameLog_fixed cfg .erlang .threshold) hranked
      (List.Perm.of_eq hblocks) (List.Perm.of_eq hal) htail
    exact ⟨_, t', tick_of_parts hsome hprep' ht', ⟨h', (cacheMgr_emitTick htail).trans hcache⟩,
      by rw [hal]⟩

theorem threshold_simulates : Simulates (Tick (cfg.fixed .threshold) env)
    (Tick (cfg.fixed .erlang) env) (fun t s => Alike s t ∧ s.cacheMgr = none)
    (fun _ _ out out' => out' = out) (fun _ _ => True) := by
  rintro t s i out t' ⟨h, hnone⟩ - htick
  rcases tick_cases htick with ⟨hdec, rfl, rfl⟩ | ⟨hsome, t₁, call, hprep, -, htail⟩
  · exact ⟨_, _, tick_of_nil hdec, ⟨⟨h.buffer, h.post⟩, hnone⟩, rfl⟩
  · obtain ⟨s₁, call₁, t₂, hprep₁, hprep₂, h₁, hcache, hranked, hblocks⟩ :=
      prepared_erlang cfg env i h hnone
    obtain ⟨rfl, rfl⟩ := Prod.mk.inj (Except.ok.inj (hprep.symm.trans hprep₂))
    have hal := h₁.alignedGroups_eq hranked rankedNodup_threshold hblocks
    obtain ⟨rfl, s', hs', h'⟩ := h₁.symm.emitBatch (sameLog_fixed cfg .threshold .erlang)
      rankedNodup_threshold (List.Perm.of_eq hblocks.symm) (List.Perm.of_eq hal.symm) htail
    have htail' : s₁.emitTick (cfg.fixed .erlang) env i call₁ = .ok (s', _) := hs'
    exact ⟨_, s', tick_of_parts hsome hprep₁ hs',
      ⟨h'.symm, (cacheMgr_emitTick htail').trans hcache⟩, by rw [hal]⟩

end Ticks

/-! ## Runs -/

section Runs

variable {adapterOf : ℕ → String} {cfg : Config K} {env : Env K}
  {s : AlignmentAwareScheduler K} {tr : TickHistory K}

theorem alike_init {mode mode' : Mode} (h : mode ≠ .piAdaptive) (h' : mode' ≠ .piAdaptive) :
    Alike (init (cfg.fixed mode)) (init (cfg.fixed mode')) := by
  have hbuf : (init (cfg.fixed mode)).buffer = (init (cfg.fixed mode')).buffer := by
    unfold init
    rw [if_neg (show (cfg.fixed mode).mode ≠ .piAdaptive from h),
      if_neg (show (cfg.fixed mode').mode ≠ .piAdaptive from h')]
    rfl
  exact ⟨hbuf ▸ SameState.rfl, rfl⟩

/-- **Erlang with fixed deadlines is the threshold mode.** Without a warm set the two
schedulers have the same runs: the same labels, the same batches, and equal
buffers and aligned sets at the end. -/
theorem erlang_runs_as_threshold (hnone : cfg.prefetch = none) :
    (∀ tr s, Exec (Tick (cfg.fixed .erlang) env) (init (cfg.fixed .erlang)) tr s →
        ∃ tr' t, Exec (Tick (cfg.fixed .threshold) env) (init (cfg.fixed .threshold)) tr' t
          ∧ tr'.map Event.label = tr.map Event.label ∧ tr'.map Event.out = tr.map Event.out
          ∧ Alike s t)
      ∧ ∀ tr t, Exec (Tick (cfg.fixed .threshold) env) (init (cfg.fixed .threshold)) tr t →
        ∃ tr' s, Exec (Tick (cfg.fixed .erlang) env) (init (cfg.fixed .erlang)) tr' s
          ∧ tr'.map Event.label = tr.map Event.label ∧ tr'.map Event.out = tr.map Event.out
          ∧ Alike s t := by
  have hcache : (init (cfg.fixed .erlang)).cacheMgr = none := congrArg (Option.map _) hnone
  have hinit : Alike (init (cfg.fixed .erlang)) (init (cfg.fixed .threshold)) :=
    alike_init (by decide) (by decide)
  constructor
  · intro tr s h
    obtain ⟨tr', t, h', hR, hall⟩ := h.simulate erlang_simulates ⟨hinit, hcache⟩ fun _ _ => trivial
    exact ⟨tr', t, h', labels_of_matched hall, outputs_of_matched (fun _ _ _ _ h => h) hall, hR.1⟩
  · intro tr t h
    obtain ⟨tr', s, h', hR, hall⟩ := h.simulate threshold_simulates ⟨hinit, hcache⟩
      fun _ _ => trivial
    exact ⟨tr', s, h', labels_of_matched hall, outputs_of_matched (fun _ _ _ _ h => h) hall, hR.1⟩

/-- The run of `heldThenRun` in erlang mode. -/
theorem heldThenRun_erlang :
    ∃ tr s, Exec (Tick ((Config.default .threshold).fixed .erlang) sampleEnv)
        (init ((Config.default .threshold).fixed .erlang)) tr s
      ∧ tr.map Event.label = heldThenRun
      ∧ (tr.map Event.out).map (fun out => out.map SequenceGroup.seqGroupId)
        = [[9], [1, 2], [2, 1]] := by
  obtain ⟨tr, s, hexec, hlabels, hout⟩ := exists_run
    ((Config.default .threshold).fixed .threshold) sampleEnv heldThenRun
    (fun e => e.out.map SequenceGroup.seqGroupId) (l := [[9], [1, 2], [2, 1]]) (by decide +kernel)
  obtain ⟨tr', s', hexec', hlabels', hout', -⟩ :=
    (erlang_runs_as_threshold (Eq.refl (Config.default .threshold).prefetch)).2 tr s hexec
  refine ⟨tr', s', hexec', hlabels'.trans hlabels, ?_⟩
  rw [hout', List.map_map]
  exact hout

/-- **Cash only reorders.** With fixed deadlines an attended run of the cash scheduler is
matched by a run of the threshold scheduler: in each tick the same groups are
emitted, in the same order up to the order of the adapters dispatched in
that tick, and the buffers stay equal. -/
theorem cash_only_reorders
    (h : Exec (Tick (cfg.fixed .cash) env) (init (cfg.fixed .cash)) tr s)
    (hfix : ∀ e ∈ tr, e.label.FixedAdapter adapterOf)
    (hatt : ∀ e ∈ tr, Attended e.pre e.label) :
    ∃ tr' t, Exec (Tick (cfg.fixed .threshold) env) (init (cfg.fixed .threshold)) tr' t
      ∧ Alike s t ∧ List.Forall₂ (Matched Alike OnlyReordered) tr tr' := by
  have hwait := (waiting_of_run h hfix).2
  exact h.simulate (cash_simulates adapterOf cfg env)
    (alike_init (by decide) (by decide)) fun e he =>
      ⟨(hwait e he).1, hfix e he, hatt e he⟩

/-- Two sequences that are held, dispatched and then run, in cash mode. -/
theorem offerBoth_cash :
    ∃ tr s tr' t, Exec (Tick ((Config.default .cash).fixed .cash) sampleEnv)
        (init ((Config.default .cash).fixed .cash)) tr s
      ∧ tr.map (fun e => e.out.map SequenceGroup.seqGroupId) = [[], [1, 2], [1, 2]]
      ∧ Exec (Tick ((Config.default .cash).fixed .threshold) sampleEnv)
        (init ((Config.default .cash).fixed .threshold)) tr' t
      ∧ List.Forall₂ (Matched Alike OnlyReordered) tr tr' := by
  have hfix : ∀ i ∈ [offerBoth 0, offerBoth 1, offerBoth 2],
      i.FixedAdapter fun x => if x = 1 then "a" else "b" := by
    unfold TickInput.FixedAdapter
    decide
  obtain ⟨tr, s, hexec, hlabels, hf⟩ := exists_run ((Config.default .cash).fixed .cash) sampleEnv
    [offerBoth 0, offerBoth 1, offerBoth 2]
    (fun e => (decide (Attended e.pre e.label), e.out.map SequenceGroup.seqGroupId))
    (l := [(true, []), (true, [1, 2]), (true, [1, 2])]) (by decide +kernel)
  have hatt : tr.map (fun e => decide (Attended e.pre e.label)) = [true, true, true] := by
    have hfst := congrArg (List.map Prod.fst) hf
    rw [List.map_map] at hfst
    exact hfst
  have hout := congrArg (List.map Prod.snd) hf
  rw [List.map_map] at hout
  obtain ⟨tr', t, hexec', -, hall⟩ := cash_only_reorders hexec
    (fun e he => hfix _ (hlabels ▸ List.mem_map.mpr ⟨e, he, rfl⟩)) fun e he => by
      have hmem : decide (Attended e.pre e.label) ∈ [true, true, true] :=
        hatt ▸ List.mem_map.mpr ⟨e, he, rfl⟩
      simpa using hmem
  exact ⟨tr, s, tr', t, hexec, hout, hexec', hall⟩

end Runs

end AlignmentAwareScheduler

end AdapterSlots
