import Mathlib.Data.Finset.Basic
import AdapterSlots.Lib.Contiguous
import AdapterSlots.BufferDispatch
import AdapterSlots.Policy

/-!
# The scheduler tick

`AlignmentAwareScheduler._schedule` (`vllm_scheduler.py`). A tick takes
vLLM's selection, splits it into prefill and decode groups, lets the decode
groups that were aligned before pass, puts the others through the alignment
buffer and reorders the batch.

The five modes differ in what they do before the dispatch (`prepare...`:
rate estimates, deadlines, visiting order, and in wgkp mode the cleanup of
the aligned set) and after it (`emitBatch...`: PI update, drain, batch log).
The text of the batch log is not modelled, only what writing it does to the
buffer: the enqueue records of the logged groups are popped.
-/

namespace AdapterSlots

open Lib AlignmentBuffer

/-! ## vLLM's side -/

structure LoraRequest where
  loraName : String
  loraIntId : ℕ
  loraPath : String
deriving DecidableEq, Repr

/-- A sequence; `running` stands for status `RUNNING`. -/
structure Sequence where
  seqId : ℕ
  running : Bool
  len : ℕ
  promptLen : ℕ
deriving DecidableEq, Repr

/-- A sequence group; `id` is the identity of the object. -/
structure SequenceGroup where
  id : ℕ
  seqs : List Sequence
  isPrefill : Bool
  loraRequest : Option LoraRequest
deriving DecidableEq, Repr

namespace SequenceGroup

/-- `_adapter_id_of`. -/
def adapterId (g : SequenceGroup) : String :=
  match g.loraRequest with
  | none => "__base__"
  | some lr => lr.loraName

/-- `_seq_group_id`. -/
def seqGroupId (g : SequenceGroup) : ℕ :=
  match g.seqs with
  | [] => g.id
  | q :: _ => q.seqId

/-- The test of `_split_groups`. -/
def isDecode (g : SequenceGroup) : Bool :=
  let seqs := g.seqs.filter Sequence.running
  !g.isPrefill && !seqs.isEmpty && seqs.all fun q => decide (q.promptLen < q.len)

end SequenceGroup

/-- What vLLM's `_schedule` leaves: `scheduled_seq_groups` and `self.running`.
Scheduled groups have sequences of their own. -/
structure Selection where
  scheduled : List SequenceGroup
  running : List SequenceGroup
  nodup : (scheduled.map SequenceGroup.seqGroupId).Nodup

namespace Selection

def prefillGroups (sel : Selection) : List SequenceGroup :=
  sel.scheduled.filter fun g => !g.isDecode

def decodeGroups (sel : Selection) : List SequenceGroup :=
  sel.scheduled.filter SequenceGroup.isDecode

/-- `{seq.seq_id for sg in self.running for seq in sg.get_seqs()}`. -/
def activeIds (sel : Selection) : Finset ℕ :=
  (sel.running.flatMap fun g => g.seqs.map Sequence.seqId).toFinset

end Selection

/-- The clock readings of a tick, by the call that takes them: `enqueue` of a
sequence, `request` of an adapter's weights, and the readings of
`_cash_order`, `_penalize_cold` and the `form_batch` variant.
`monotonic` is the clock of the estimator. -/
structure Clock (K : Type) where
  monotonic : K
  enqueue : ℕ → K
  request : String → K
  cashOrder : K
  penalizeCold : K
  formBatch : K

/-- The inputs of a tick. `isMerged` is `mwc.is_merged` by adapter number, `none`
without a merged-weight cache. -/
structure TickInput (K : Type) where
  sel : Selection
  clock : Clock K
  isMerged : Option (ℕ → Bool)

/-! ## Configuration and state -/

inductive Mode where
  | threshold
  | piAdaptive
  | erlang
  | cash
  | wgkp
deriving DecidableEq, Repr

/-- The `AS_*` variables the tick depends on. `prefetch` is `none` for policy
`none` or without a warm set, `apt` holds the promotable batch sizes when
the threshold is chosen at run time. -/
structure Config (K : Type) [Field K] [LinearOrder K] where
  mode : Mode
  fixedDeadline : Bool
  logWar : Bool
  metricsFile : Bool
  tmaxMs : K
  ttftSloMs : K
  warpSize : ℕ
  warpSize_pos : 0 < warpSize
  warTarget : K
  ewmaAlpha : K
  ewmaAlpha_pos : 0 < ewmaAlpha
  ewmaAlpha_lt_one : ewmaAlpha < 1
  piKp : K
  piKi : K
  piKp_pos : 0 < piKp
  piKi_pos : 0 < piKi
  piTmaxInitMs : K
  prefetch : Option EvictionPolicy
  kWarm : ℕ
  kWarm_pos : 0 < kWarm
  tauLoadMs : K
  coldBoost : K
  pcieMinDeferralS : K
  wgkpThreshold : ℤ
  apt : Option (List ℤ)

/-- The values of a mode when no other variable is set. The warm set is off. -/
def Config.default (mode : Mode) : Config ℚ where
  mode := mode
  fixedDeadline := false
  logWar := false
  metricsFile := false
  tmaxMs := 5
  ttftSloMs := 200
  warpSize := 32
  warpSize_pos := by decide
  warTarget := 4 / 5
  ewmaAlpha := 1 / 10
  ewmaAlpha_pos := by decide +kernel
  ewmaAlpha_lt_one := by decide +kernel
  piKp := 1 / 100
  piKi := 1 / 1000
  piKp_pos := by decide +kernel
  piKi_pos := by decide +kernel
  piTmaxInitMs := 18
  prefetch := none
  kWarm := 1
  kWarm_pos := by decide
  tauLoadMs := 963 / 10
  coldBoost := 5 / 2
  pcieMinDeferralS := 0
  wgkpThreshold := 8
  apt := none

structure AlignmentAwareScheduler (K : Type) [Field K] [LinearOrder K] where
  buffer : AlignmentBuffer K
  postAlignmentSeqs : Finset ℕ
  estimator : ArrivalRateEstimator K
  piCtrl : PIController K
  cacheMgr : Option (WarmCacheManager K)
  coldFirstSeen : Dict String K
  apt : Option (AdaptivePromoThreshold K)
  loraInfo : Dict String (ℕ × String)
  scheduleCallCount : ℕ

variable {K : Type} [Field K] [LinearOrder K]

namespace AlignmentAwareScheduler

/-- The state of `__init__`. The PI controller is read in `pi_adaptive` mode
only. -/
def init (cfg : Config K) : AlignmentAwareScheduler K where
  buffer := .init [] cfg.warpSize cfg.warpSize_pos
    (if cfg.mode = .piAdaptive then cfg.piTmaxInitMs else cfg.tmaxMs) cfg.ttftSloMs
  postAlignmentSeqs := ∅
  estimator := .init cfg.ewmaAlpha cfg.ewmaAlpha_pos cfg.ewmaAlpha_lt_one
  piCtrl :=
    { kp := cfg.piKp, ki := cfg.piKi, kp_pos := cfg.piKp_pos, ki_pos := cfg.piKi_pos
      warTarget := cfg.warTarget, tmax := cfg.piTmaxInitMs / 1000, tmaxMin := 1 / 1000
      tmaxMax := cfg.ttftSloMs / 1000, margin := 9 / 10, slopeAlpha := 1 / 5
      L := none, prev := none }
  cacheMgr := cfg.prefetch.map fun policy =>
    { kWarmMax := cfg.kWarm, kWarmMax_pos := cfg.kWarm_pos, tauLoadMs := cfg.tauLoadMs
      policy := policy, warm := .empty }
  coldFirstSeen := .empty
  apt := if cfg.mode = .wgkp then cfg.apt.map .init else none
  loraInfo := .empty
  scheduleCallCount := 0

/-! ## Split and enqueue -/

variable (cfg : Config K) (env : Env K) (s : AlignmentAwareScheduler K) (i : TickInput K)

/-- The decode groups not aligned yet. -/
def firstTimeGroups : List SequenceGroup :=
  i.sel.decodeGroups.filter fun g => decide (g.seqGroupId ∉ s.postAlignmentSeqs)

def postAlignmentGroups : List SequenceGroup :=
  i.sel.decodeGroups.filter fun g => decide (g.seqGroupId ∈ s.postAlignmentSeqs)

/-- `post_alignment_groups.sort(key=_adapter_id_of)`, a stable sort. -/
def sortByAdapter (groups : List SequenceGroup) : List SequenceGroup :=
  sortByKey SequenceGroup.adapterId groups

/-- The enqueue of every group; `clock` is the reading each call takes. -/
def enqueueGroups (clock : ℕ → K) (groups : List SequenceGroup) (b : AlignmentBuffer K) :
    AlignmentBuffer K :=
  groups.foldl (fun b g => b.enqueue g.adapterId g.seqGroupId (clock g.seqGroupId)) b

/-- `_enqueue_decode_groups`. -/
def enqueueDecodeGroups (groups : List SequenceGroup) : AlignmentAwareScheduler K :=
  { s with buffer := enqueueGroups i.clock.enqueue groups s.buffer }

/-- One turn of the arrival loop of the erlang, cash and wgkp ticks: a sequence
without an enqueue record is an arrival, and an adapter's rate is updated
at most once a tick. -/
def recordArrival (a : AlignmentAwareScheduler K × List String) (g : SequenceGroup) :
    AlignmentAwareScheduler K × List String :=
  let buffer := a.1.buffer.enqueue g.adapterId g.seqGroupId (i.clock.enqueue g.seqGroupId)
  if !a.1.buffer.isBuffered g.seqGroupId && decide (g.adapterId ∉ a.2) then
    ({ a.1 with
        buffer := buffer
        estimator := a.1.estimator.update g.adapterId i.clock.monotonic },
      a.2 ++ [g.adapterId])
  else ({ a.1 with buffer := buffer }, a.2)

/-- The second component is `adapters_updated_this_tick`. -/
def recordArrivals (groups : List SequenceGroup) : AlignmentAwareScheduler K × List String :=
  groups.foldl (recordArrival i) (s, [])

/-! ## Deadlines and visiting order -/

/-- `_deadlines`. -/
def deadlines : Dict String K :=
  if cfg.fixedDeadline then
    .ofKeys (s.buffer.queues.keys ++ s.estimator.getAllRates.keys) s.buffer.tMax
  else computeTmaxErlangBatch env cfg.warpSize s.estimator.getAllRates cfg.warTarget cfg.ttftSloMs

/-- `_update_prefetch_cache`: a request for the weights of every adapter with a
new arrival. -/
def updatePrefetchCache (newArrivals : List String) :
    Except PyError (AlignmentAwareScheduler K) :=
  match s.cacheMgr with
  | none => pure s
  | some m => do
      let m' ← (env.setOrder newArrivals).foldlM
        (fun m k => do
          let r ← m.request env k s.estimator.getAllRates (i.clock.request k)
          pure r.1)
        m
      pure { s with cacheMgr := some m' }

/-- `_apply_cold_start_boost`. -/
def applyColdStartBoost (tmaxK : Dict String K) (newArrivals : List String) :
    Except PyError (AlignmentAwareScheduler K × Dict String K) :=
  match s.cacheMgr with
  | none => pure (s, tmaxK)
  | some _ => do
      let s' ← s.updatePrefetchCache env i newArrivals
      let sloS := cfg.ttftSloMs / 1000
      pure (s', tmaxK.mapValues fun k tmaxS =>
        if s'.cacheMgr.any fun m => m.isWarm k then tmaxS else min (tmaxS * cfg.coldBoost) sloS)

/-- The score of a cold adapter and its entry of `_cold_first_seen`. -/
def coldScore (firstSeen : Option K) (frac : K) : Except PyError (K × Option K) :=
  let boosted : Except PyError K :=
    if cfg.coldBoost = 0 then .error .zeroDivisionError else .ok (frac / cfg.coldBoost)
  if 0 < cfg.pcieMinDeferralS then
    match firstSeen with
    | none => .ok (0, some i.clock.penalizeCold)
    | some t =>
        if i.clock.penalizeCold - t < cfg.pcieMinDeferralS then boosted.map fun x => (x, some t)
        else .ok (frac, some t)
  else boosted.map fun x => (x, firstSeen)

/-- One turn of the loop of `_penalize_cold`. -/
def penalizeOne (m : WarmCacheManager K) (a : Dict String K × Dict String K) (e : String × K) :
    Except PyError (Dict String K × Dict String K) :=
  if m.isWarm e.1 then pure (a.1.erase e.1, a.2.insert e.1 e.2)
  else do
    let r ← coldScore cfg i (a.1.get? e.1) e.2
    pure (match r.2 with
      | none => a.1
      | some t => a.1.insert e.1 t, a.2.insert e.1 r.1)

/-- `_penalize_cold`. -/
def penalizeCold (scores : Dict String K) :
    Except PyError (AlignmentAwareScheduler K × Dict String K) :=
  match s.cacheMgr with
  | none => pure (s, scores)
  | some m => do
      let r ← scores.entries.foldlM (penalizeOne cfg i m) (s.coldFirstSeen, .empty)
      pure ({ s with coldFirstSeen := r.1 }, r.2)

/-- `{k: now - t for k, t in enqueue_time.items() if t is not None}`; an absent
entry is read as `0`. -/
def ages (b : AlignmentBuffer K) (now : K) : Dict String K :=
  (b.enqueueTime.filterKeys fun k => (b.oldest k).isSome).mapValues fun _ t =>
    match t with
    | none => 0
    | some t => now - t

/-- `_cash_order`. -/
def cashOrder (tmaxK : Dict String K) :
    Except PyError (AlignmentAwareScheduler K × List String) := do
  let slo := cfg.ttftSloMs / 1000
  let pending := s.buffer.pendingCount
  let deadlines := pending.mapValues fun k _ => min (tmaxK.getD k slo) slo
  let scores := CASHDispatcher.computeIndices env cfg.warpSize pending
    (ages s.buffer i.clock.cashOrder) s.estimator.getAllRates deadlines
  let r ← s.penalizeCold cfg i scores
  pure (r.1, CASHDispatcher.rank r.2)

/-! ## The tick up to the dispatch -/

def prepareThreshold : Except PyError (AlignmentAwareScheduler K × DispatchCall K) :=
  pure (s.enqueueDecodeGroups i (s.firstTimeGroups i), .threshold)

def prepareErlang : Except PyError (AlignmentAwareScheduler K × DispatchCall K) := do
  let a := s.recordArrivals i (s.firstTimeGroups i)
  let r ← a.1.applyColdStartBoost cfg env i (a.1.deadlines cfg env) a.2
  pure (r.1, .erlang r.2)

def prepareCash : Except PyError (AlignmentAwareScheduler K × DispatchCall K) := do
  let a := s.recordArrivals i (s.firstTimeGroups i)
  let tmaxK := a.1.deadlines cfg env
  let s₁ ← a.1.updatePrefetchCache env i a.2
  let r ← s₁.cashOrder cfg env i tmaxK
  pure (r.1, .cash r.2 tmaxK)

/-- Forget sequences that have left `self.running`, and release their records. -/
def forgetStale : AlignmentAwareScheduler K :=
  let stale := s.postAlignmentSeqs \ i.sel.activeIds
  { s with
    postAlignmentSeqs := s.postAlignmentSeqs \ stale
    buffer := { s.buffer with
      seqEnqueue := s.buffer.seqEnqueue.filterKeys fun x => decide (x ∉ stale) } }

/-- The names under which the adapters of the groups are first seen. -/
def learnLora (groups : List SequenceGroup) : AlignmentAwareScheduler K :=
  { s with
    loraInfo := groups.foldl
      (fun d g => match g.loraRequest with
        | none => d
        | some lr => d.setDefault g.adapterId (lr.loraIntId, lr.loraPath))
      s.loraInfo }

/-- `self._apt.update(mean_q_depth)`. -/
def updateApt : AlignmentAwareScheduler K :=
  let pending := s.buffer.pendingCount
  let meanQDepth : K := (pending.values.sum : ℕ) / (max pending.keys.length 1 : ℕ)
  { s with apt := s.apt.map fun a => a.update meanQDepth }

/-- `_current_n_star`. -/
def currentNStar : ℤ :=
  match s.apt with
  | none => cfg.wgkpThreshold
  | some a => a.currentThreshold

/-- `merged_ids`. -/
def mergedIds : List String :=
  match i.isMerged with
  | none => []
  | some isMerged => (s.loraInfo.entries.filter fun e => isMerged e.2.1).map Prod.fst

def prepareWgkp : Except PyError (AlignmentAwareScheduler K × DispatchCall K) := do
  let s₀ := s.forgetStale i
  let first := s₀.firstTimeGroups i
  let a := (s₀.learnLora first).recordArrivals i first
  let tmaxK := a.1.deadlines cfg env
  let s₁ ← a.1.updatePrefetchCache env i a.2
  let r ← s₁.cashOrder cfg env i tmaxK
  let s₂ := r.1.updateApt
  pure (s₂, .wgkp r.2 tmaxK (s₂.currentNStar cfg) (s₂.mergedIds i))

/-! ## The dispatch and the tick after it -/

/-- The dispatched groups among those of this tick. -/
def alignedFirstTime (pairs : List (String × ℕ)) (first : List SequenceGroup) :
    List SequenceGroup :=
  let seqIdToSg : Dict ℕ SequenceGroup :=
    Dict.empty.insertAll (first.map fun g => (g.seqGroupId, g))
  pairs.filterMap fun p => seqIdToSg.get? p.2

/-- The groups get their first decode token now. -/
def markAligned (groups : List SequenceGroup) : AlignmentAwareScheduler K :=
  { s with
    postAlignmentSeqs := s.postAlignmentSeqs ∪ (groups.map SequenceGroup.seqGroupId).toFinset }

/-- `self._buffer.release` of every group. -/
def releaseGroups (groups : List SequenceGroup) : AlignmentAwareScheduler K :=
  { s with buffer := groups.foldl (fun b g => b.release g.seqGroupId) s.buffer }

/-- The call of the `form_batch` variant with the tick's decode groups as budget,
and the loop over its pairs. -/
def dispatch (call : DispatchCall K) : AlignmentAwareScheduler K × List SequenceGroup :=
  let r := call.apply s.buffer (some i.sel.decodeGroups.length) i.clock.formBatch
  let aligned := alignedFirstTime r.2 (s.firstTimeGroups i)
  (({ s with buffer := r.1 } : AlignmentAwareScheduler K).markAligned aligned, aligned)

/-- `_log_war_stats` and `_log_war_stats_wgkp`: the WAR of the batch is computed
first, then the metrics file takes the enqueue records. -/
def logWarStats (batch : List SequenceGroup) : Except PyError (AlignmentAwareScheduler K) :=
  if cfg.logWar then do
    let _ ← computeWarFromIds (K := K) (batch.map fun g => adapterIdToInt env g.adapterId)
      s.buffer.W
    pure (if cfg.metricsFile then s.releaseGroups batch else s)
  else pure s

/-- The tail of the threshold, erlang and cash ticks. -/
def emitBatch (call : DispatchCall K) :
    Except PyError (AlignmentAwareScheduler K × List SequenceGroup) := do
  let d := s.dispatch i call
  let allDecode := sortByAdapter (s.postAlignmentGroups i) ++ d.2
  let s' ← d.1.logWarStats cfg env allDecode
  pure (s', i.sel.prefillGroups ++ allDecode)

/-- `T_max` from the WAR of the batch, unless it is empty. -/
def updateTmax (batch : List SequenceGroup) : Except PyError (AlignmentAwareScheduler K) :=
  if batch = [] then pure s
  else do
    let warObs ← computeWarFromIds (batch.map fun g => adapterIdToInt env g.adapterId) s.buffer.W
    let c := s.piCtrl.update warObs
    pure { s with piCtrl := c, buffer := { s.buffer with tMax := c.tmax } }

/-- Drop finished sequences from the aligned set every 50000 calls. -/
def dropFinished : AlignmentAwareScheduler K :=
  if s.scheduleCallCount % 50000 = 0 then
    { s with postAlignmentSeqs := s.postAlignmentSeqs ∩ i.sel.activeIds }
  else s

/-- The tail of the pi_adaptive tick. -/
def emitBatchPi (call : DispatchCall K) :
    Except PyError (AlignmentAwareScheduler K × List SequenceGroup) := do
  let d := s.dispatch i call
  let allDecode := sortByAdapter (s.postAlignmentGroups i) ++ d.2
  let s₁ ← d.1.updateTmax env allDecode
  let s' ← (s₁.dropFinished i).logWarStats cfg env allDecode
  pure (s', i.sel.prefillGroups ++ allDecode)

/-- `_drain_buffer_remaining` and the loop over its groups. -/
def drainBufferRemaining (groups : List SequenceGroup) (dispatchedIds : List ℕ) :
    AlignmentAwareScheduler K × List SequenceGroup :=
  let remaining := groups.filter fun g => decide (g.seqGroupId ∉ dispatchedIds)
  let buffer := s.buffer.drainRemaining (groups.map fun g => (g.adapterId, g.seqGroupId))
    dispatchedIds
  (({ s with buffer := buffer }.markAligned remaining).releaseGroups remaining, remaining)

/-- Release the records of the dispatched groups `d.2`. Held groups leave early
only when the step would be empty. -/
def releaseEarly (d : AlignmentAwareScheduler K × List SequenceGroup) :
    AlignmentAwareScheduler K × List SequenceGroup :=
  let s₁ := d.1.releaseGroups d.2
  if i.sel.prefillGroups = [] ∧ s.postAlignmentGroups i = [] ∧ d.2 = [] then
    s₁.drainBufferRemaining (s.firstTimeGroups i) (d.2.map SequenceGroup.seqGroupId)
  else (s₁, [])

/-- The tail of the wgkp tick. -/
def emitBatchWgkp (call : DispatchCall K) :
    Except PyError (AlignmentAwareScheduler K × List SequenceGroup) := do
  let d := s.dispatch i call
  let r := s.releaseEarly i d
  let allDecode := sortByAdapter (s.postAlignmentGroups i) ++ d.2
  let s' ← r.1.logWarStats cfg env allDecode
  pure (s', i.sel.prefillGroups ++ allDecode ++ r.2)

/-! ## The five ticks -/

/-- The frame of the tick functions. Without decode groups vLLM's selection is
returned as it is. -/
def scheduleInner (prepare : Except PyError (AlignmentAwareScheduler K × DispatchCall K))
    (emit : AlignmentAwareScheduler K → DispatchCall K →
      Except PyError (AlignmentAwareScheduler K × List SequenceGroup)) :
    Except PyError (AlignmentAwareScheduler K × List SequenceGroup) :=
  if i.sel.decodeGroups = [] then pure (s, i.sel.scheduled)
  else do
    let p ← prepare
    emit p.1 p.2

def scheduleThresholdInner : Except PyError (AlignmentAwareScheduler K × List SequenceGroup) :=
  s.scheduleInner i (s.prepareThreshold i) fun s₁ call => s₁.emitBatch cfg env i call

def schedulePiAdaptiveInner : Except PyError (AlignmentAwareScheduler K × List SequenceGroup) :=
  s.scheduleInner i (s.prepareThreshold i) fun s₁ call => s₁.emitBatchPi cfg env i call

def scheduleErlangInner : Except PyError (AlignmentAwareScheduler K × List SequenceGroup) :=
  s.scheduleInner i (s.prepareErlang cfg env i) fun s₁ call => s₁.emitBatch cfg env i call

def scheduleCashInner : Except PyError (AlignmentAwareScheduler K × List SequenceGroup) :=
  s.scheduleInner i (s.prepareCash cfg env i) fun s₁ call => s₁.emitBatch cfg env i call

def scheduleWgkpInner : Except PyError (AlignmentAwareScheduler K × List SequenceGroup) :=
  s.scheduleInner i (s.prepareWgkp cfg env i) fun s₁ call => s₁.emitBatchWgkp cfg env i call

def countCall : AlignmentAwareScheduler K :=
  { s with scheduleCallCount := s.scheduleCallCount + 1 }

/-- `_schedule`: the state after the tick and its `scheduled_seq_groups`. -/
def schedule : Except PyError (AlignmentAwareScheduler K × List SequenceGroup) :=
  match cfg.mode with
  | .piAdaptive => s.countCall.schedulePiAdaptiveInner cfg env i
  | .wgkp => s.countCall.scheduleWgkpInner cfg env i
  | .erlang => s.countCall.scheduleErlangInner cfg env i
  | .cash => s.countCall.scheduleCashInner cfg env i
  | .threshold => s.countCall.scheduleThresholdInner cfg env i

end AlignmentAwareScheduler

end AdapterSlots
