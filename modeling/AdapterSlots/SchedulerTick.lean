import Mathlib.Data.Finset.Lattice.Basic
import Mathlib.Data.Finset.SDiff
import AdapterSlots.Lib.Returns
import AdapterSlots.BufferConserve
import AdapterSlots.Scheduler

/-!
# What one tick does

The specification of a tick: `prepared_of_prepareTick` for the part up to the
dispatch and `emitted_of_emitTick` for the part after it, both for all
modes at once. They say what happens to the queues, to the enqueue records
and to the aligned set, and what is emitted; the estimator, the warm set
and the PI controller decide which call is made and leave these alone
(`core`).
-/

namespace AdapterSlots

open Lib AlignmentBuffer

namespace AlignmentAwareScheduler

variable {K : Type}

/-! ## Enqueues and releases of several groups -/

section Groups

variable {b : AlignmentBuffer K} {clock : ℕ → K} {groups : List SequenceGroup}

theorem mem_seqEnqueue_enqueueGroups {x : ℕ} :
    x ∈ (enqueueGroups clock groups b).seqEnqueue
      ↔ x ∈ b.seqEnqueue ∨ x ∈ groups.map SequenceGroup.seqGroupId := by
  induction groups generalizing b with
  | nil => simp [enqueueGroups]
  | cons g gs ih =>
      rw [enqueueGroups, List.foldl_cons, ← enqueueGroups, ih, mem_seqEnqueue_enqueue,
        List.map_cons, List.mem_cons]
      tauto

/-- The entries the enqueues append to `Q_k`. -/
def newEntries (b : AlignmentBuffer K) (clock : ℕ → K) (groups : List SequenceGroup) (k : String) :
    List (ℕ × K) :=
  (groups.filter fun g => decide (g.adapterId = k ∧ g.seqGroupId ∉ b.seqEnqueue)).map
    fun g => (g.seqGroupId, clock g.seqGroupId)

theorem queue_enqueueGroups (hnd : (groups.map SequenceGroup.seqGroupId).Nodup) (k : String) :
    (enqueueGroups clock groups b).queue k = b.queue k ++ newEntries b clock groups k := by
  induction groups generalizing b with
  | nil => simp [enqueueGroups, newEntries]
  | cons g gs ih =>
      obtain ⟨hnot, hnd'⟩ := List.nodup_cons.mp hnd
      rw [enqueueGroups, List.foldl_cons, ← enqueueGroups, ih hnd']
      -- the later groups have other sequences
      have hlater : newEntries (b.enqueue g.adapterId g.seqGroupId (clock g.seqGroupId)) clock gs k
          = newEntries b clock gs k := by
        unfold newEntries
        refine congrArg _ (List.filter_congr fun h hh => ?_)
        have hne : h.seqGroupId ≠ g.seqGroupId := fun heq =>
          hnot (heq ▸ List.mem_map.mpr ⟨h, hh, rfl⟩)
        have hrec : h.seqGroupId
            ∈ (b.enqueue g.adapterId g.seqGroupId (clock g.seqGroupId)).seqEnqueue
              ↔ h.seqGroupId ∈ b.seqEnqueue := by
          rw [mem_seqEnqueue_enqueue]
          simp [hne]
        simp only [hrec]
      rw [hlater]
      by_cases hrec : g.seqGroupId ∈ b.seqEnqueue
      · rw [enqueue_of_recorded hrec]
        simp [newEntries, hrec]
      · rw [queue_enqueue hrec]
        by_cases hk : g.adapterId = k
        · simp [newEntries, hk, hrec]
        · simp [newEntries, hk]

/-- The ids the enqueues of a tick add to `Q_k`. -/
theorem mem_newEntries {b : AlignmentBuffer K} {clock : ℕ → K} {groups : List SequenceGroup}
    {k : String} {x : ℕ} : x ∈ (newEntries b clock groups k).map Prod.fst
      ↔ x ∉ b.seqEnqueue ∧ ∃ g ∈ groups, g.adapterId = k ∧ g.seqGroupId = x := by
  unfold newEntries
  simp only [List.map_map, List.mem_map, List.mem_filter, decide_eq_true_eq, Function.comp_apply]
  constructor
  · rintro ⟨g, ⟨hg, hk, hx⟩, rfl⟩
    exact ⟨hx, g, hg, hk, rfl⟩
  · rintro ⟨hx, g, hg, hk, rfl⟩
    exact ⟨g, ⟨hg, hk, hx⟩, rfl⟩

theorem nodup_newEntries {b : AlignmentBuffer K} {clock : ℕ → K} {groups : List SequenceGroup}
    {k : String} (hnd : (groups.map SequenceGroup.seqGroupId).Nodup) :
    ((newEntries b clock groups k).map Prod.fst).Nodup := by
  unfold newEntries
  rw [List.map_map]
  exact hnd.sublist (List.filter_sublist.map _)

theorem seqEnqueue_releaseGroups (b : AlignmentBuffer K) (groups : List SequenceGroup) (x : ℕ) :
    x ∈ (groups.foldl (fun b g => b.release g.seqGroupId) b).seqEnqueue
      ↔ x ∈ b.seqEnqueue ∧ x ∉ groups.map SequenceGroup.seqGroupId := by
  induction groups generalizing b with
  | nil => simp
  | cons g gs ih =>
      rw [List.foldl_cons, ih, List.map_cons, List.mem_cons]
      show x ∈ b.seqEnqueue.erase g.seqGroupId ∧ _ ↔ _
      rw [Dict.mem_erase]
      tauto

theorem queues_releaseGroups (b : AlignmentBuffer K) : ∀ groups : List SequenceGroup,
    (groups.foldl (fun b g => b.release g.seqGroupId) b).queues = b.queues
  | [] => rfl
  | g :: gs => queues_releaseGroups (b.release g.seqGroupId) gs

theorem seqEnqueue_drainSeq (b : AlignmentBuffer K) (k : String) (s : ℕ) :
    (b.drainSeq k s).seqEnqueue = b.seqEnqueue := by
  unfold drainSeq
  split <;> rfl

/-- Draining takes the groups' own entries out of their queues. -/
theorem queue_drainAll (k : String) : ∀ (gs : List SequenceGroup) (b : AlignmentBuffer K),
    ((gs.map fun g => (g.adapterId, g.seqGroupId)).foldl (fun b g => b.drainSeq g.1 g.2) b).queue k
      = (b.queue k).filter fun e =>
          decide (¬ ∃ g ∈ gs, g.adapterId = k ∧ g.seqGroupId = e.1)
  | [], b => by simp
  | g :: gs, b => by
      rw [List.map_cons, List.foldl_cons, queue_drainAll k gs, queue_drainSeq]
      split
      · rename_i hk
        rw [List.filter_filter]
        refine List.filter_congr fun e _ => ?_
        rw [← Bool.decide_and]
        refine decide_eq_decide.mpr ?_
        rw [List.exists_mem_cons_iff, not_or, and_comm]
        exact and_congr_left' (not_congr ⟨fun h => ⟨hk, h.symm⟩, fun h => h.2.symm⟩)
      · rename_i hk
        refine List.filter_congr fun e _ => decide_eq_decide.mpr (not_congr ?_)
        rw [List.exists_mem_cons_iff, or_iff_right fun h => hk h.1]

theorem seqEnqueue_drainAll : ∀ (gs : List (String × ℕ)) (b : AlignmentBuffer K),
    (gs.foldl (fun b g => b.drainSeq g.1 g.2) b).seqEnqueue = b.seqEnqueue
  | [], _ => rfl
  | g :: gs, b => by
      rw [List.foldl_cons, seqEnqueue_drainAll gs, seqEnqueue_drainSeq]

end Groups

variable [Field K] [LinearOrder K]

/-! ## The tick up to the dispatch -/

/-- The part of the state the dispatch and the split read. -/
def core (s : AlignmentAwareScheduler K) : AlignmentBuffer K × Finset ℕ :=
  (s.buffer, s.postAlignmentSeqs)

/-- The state in which the tick splits the decode groups. -/
def atSplit (cfg : Config K) (s : AlignmentAwareScheduler K) (i : TickInput K) :
    AlignmentAwareScheduler K :=
  if cfg.mode = .wgkp then s.forgetStale i else s

/-- The tick up to the call of its `form_batch` variant. -/
def prepareTick (cfg : Config K) (env : Env K) (s : AlignmentAwareScheduler K) (i : TickInput K) :
    Except PyError (AlignmentAwareScheduler K × DispatchCall K) :=
  match cfg.mode with
  | .threshold => s.prepareThreshold i
  | .piAdaptive => s.prepareThreshold i
  | .erlang => s.prepareErlang cfg env i
  | .cash => s.prepareCash cfg env i
  | .wgkp => s.prepareWgkp cfg env i

/-- The tick from that call on. -/
def emitTick (cfg : Config K) (env : Env K) (s : AlignmentAwareScheduler K) (i : TickInput K)
    (call : DispatchCall K) : Except PyError (AlignmentAwareScheduler K × List SequenceGroup) :=
  match cfg.mode with
  | .threshold => s.emitBatch cfg env i call
  | .piAdaptive => s.emitBatchPi cfg env i call
  | .erlang => s.emitBatch cfg env i call
  | .cash => s.emitBatch cfg env i call
  | .wgkp => s.emitBatchWgkp cfg env i call

section

variable {cfg : Config K} {env : Env K} {s s' s₁ : AlignmentAwareScheduler K} {i : TickInput K}
  {call : DispatchCall K}

theorem schedule_eq :
    s.schedule cfg env i = s.countCall.scheduleInner i (s.countCall.prepareTick cfg env i)
      fun s₁ call => s₁.emitTick cfg env i call := by
  unfold schedule prepareTick emitTick
  cases cfg.mode <;> rfl

/-- The arrival loop enqueues the groups and tells the estimator. -/
theorem recordArrivals_eq (groups : List SequenceGroup) :
    ∃ e, (s.recordArrivals i groups).1
      = { s with buffer := enqueueGroups i.clock.enqueue groups s.buffer, estimator := e } := by
  unfold recordArrivals
  suffices h : ∀ (gs : List SequenceGroup) (a : AlignmentAwareScheduler K × List String),
      ∃ e, (gs.foldl (recordArrival i) a).1
        = { a.1 with buffer := enqueueGroups i.clock.enqueue gs a.1.buffer, estimator := e } from
    h groups (s, [])
  intro gs
  induction gs with
  | nil => exact fun a => ⟨a.1.estimator, rfl⟩
  | cons g gs ih =>
      intro a
      obtain ⟨e, he⟩ := ih (recordArrival i a g)
      refine ⟨e, ?_⟩
      rw [List.foldl_cons, he, recordArrival]
      split <;> rfl

theorem core_recordArrivals (groups : List SequenceGroup) :
    (s.recordArrivals i groups).1.core
      = (enqueueGroups i.clock.enqueue groups s.buffer, s.postAlignmentSeqs) := by
  obtain ⟨e, he⟩ := recordArrivals_eq (s := s) (i := i) groups
  rw [he]
  rfl

/-- Requests for weights change the warm set only. -/
theorem updatePrefetchCache_eq {l : List String} (h : s.updatePrefetchCache env i l = .ok s') :
    ∃ m, s' = { s with cacheMgr := m } := by
  unfold updatePrefetchCache at h
  split at h
  · obtain rfl := Except.ok.inj h
    exact ⟨s.cacheMgr, rfl⟩
  · obtain ⟨m', -, hm⟩ := bind_eq_ok h
    obtain rfl := Except.ok.inj hm
    exact ⟨some m', rfl⟩

theorem applyColdStartBoost_eq {tmaxK : Dict String K} {l : List String}
    {r : AlignmentAwareScheduler K × Dict String K}
    (h : s.applyColdStartBoost cfg env i tmaxK l = .ok r) :
    ∃ m, r.1 = { s with cacheMgr := m } := by
  unfold applyColdStartBoost at h
  split at h
  · obtain rfl := Except.ok.inj h
    exact ⟨s.cacheMgr, rfl⟩
  · obtain ⟨s₁, hs₁, h⟩ := bind_eq_ok h
    obtain rfl := Except.ok.inj h
    exact updatePrefetchCache_eq hs₁

theorem penalizeCold_eq {scores : Dict String K} {r : AlignmentAwareScheduler K × Dict String K}
    (h : s.penalizeCold cfg i scores = .ok r) : ∃ d, r.1 = { s with coldFirstSeen := d } := by
  unfold penalizeCold at h
  split at h
  · obtain rfl := Except.ok.inj h
    exact ⟨s.coldFirstSeen, rfl⟩
  · obtain ⟨d, -, h⟩ := bind_eq_ok h
    obtain rfl := Except.ok.inj h
    exact ⟨d.1, rfl⟩

/-- The CASH order names no adapter twice. -/
theorem spec_cashOrder {tmaxK : Dict String K} {r : AlignmentAwareScheduler K × List String}
    (h : s.cashOrder cfg env i tmaxK = .ok r) :
    (∃ d, r.1 = { s with coldFirstSeen := d }) ∧ r.2.Nodup := by
  unfold cashOrder at h
  obtain ⟨p, hp, h⟩ := bind_eq_ok h
  obtain rfl := Except.ok.inj h
  exact ⟨penalizeCold_eq hp, CASHDispatcher.nodup_rank _⟩

/-- What the tick has done when it calls its `form_batch` variant. -/
structure Prepared (cfg : Config K) (s : AlignmentAwareScheduler K) (i : TickInput K)
    (s₁ : AlignmentAwareScheduler K) (call : DispatchCall K) : Prop where
  core : s₁.core =
    (enqueueGroups i.clock.enqueue ((atSplit cfg s i).firstTimeGroups i) (atSplit cfg s i).buffer,
      (atSplit cfg s i).postAlignmentSeqs)
  ranked : call.RankedNodup

theorem prepared_of_prepareTick {p : AlignmentAwareScheduler K × DispatchCall K}
    (h : s.prepareTick cfg env i = .ok p) : Prepared cfg s i p.1 p.2 := by
  unfold prepareTick at h
  cases hmode : cfg.mode with
  | threshold =>
      simp only [hmode] at h
      obtain rfl := Except.ok.inj h
      refine ⟨?_, trivial⟩
      simp only [atSplit, hmode]
      rfl
  | piAdaptive =>
      simp only [hmode] at h
      obtain rfl := Except.ok.inj h
      refine ⟨?_, trivial⟩
      simp only [atSplit, hmode]
      rfl
  | erlang =>
      simp only [hmode, prepareErlang] at h
      obtain ⟨r, hr, h⟩ := bind_eq_ok h
      obtain rfl := Except.ok.inj h
      obtain ⟨m, hm⟩ := applyColdStartBoost_eq hr
      refine ⟨?_, trivial⟩
      rw [hm]
      refine (core_recordArrivals _).trans ?_
      simp only [atSplit, hmode]
      rfl
  | cash =>
      simp only [hmode, prepareCash] at h
      obtain ⟨s₁, hs₁, h⟩ := bind_eq_ok h
      obtain ⟨r, hr, h⟩ := bind_eq_ok h
      obtain rfl := Except.ok.inj h
      obtain ⟨⟨d, hd⟩, hnd⟩ := spec_cashOrder hr
      obtain ⟨m, rfl⟩ := updatePrefetchCache_eq hs₁
      refine ⟨?_, hnd⟩
      rw [hd]
      refine (core_recordArrivals _).trans ?_
      simp only [atSplit, hmode]
      rfl
  | wgkp =>
      simp only [hmode, prepareWgkp] at h
      obtain ⟨s₁, hs₁, h⟩ := bind_eq_ok h
      obtain ⟨r, hr, h⟩ := bind_eq_ok h
      obtain rfl := Except.ok.inj h
      obtain ⟨⟨d, hd⟩, hnd⟩ := spec_cashOrder hr
      obtain ⟨m, rfl⟩ := updatePrefetchCache_eq hs₁
      refine ⟨?_, hnd⟩
      show r.1.core = _
      rw [hd]
      refine (core_recordArrivals _).trans ?_
      simp only [atSplit, hmode]
      rfl

end

/-! ## The tick from the dispatch on -/

/-- The first-time groups the dispatch lets go. -/
def alignedGroups (s : AlignmentAwareScheduler K) (i : TickInput K) (call : DispatchCall K) :
    List SequenceGroup :=
  (s.dispatch i call).2

/-- The first-time groups a wgkp tick drains. -/
def drainedGroups (cfg : Config K) (s : AlignmentAwareScheduler K) (i : TickInput K)
    (call : DispatchCall K) : List SequenceGroup :=
  if cfg.mode = .wgkp ∧ i.sel.prefillGroups = [] ∧ s.postAlignmentGroups i = []
      ∧ s.alignedGroups i call = [] then s.firstTimeGroups i
  else []

/-- The decode part of the batch. -/
def decodePart (cfg : Config K) (s : AlignmentAwareScheduler K) (i : TickInput K)
    (call : DispatchCall K) : List SequenceGroup :=
  sortByAdapter (s.postAlignmentGroups i) ++ s.alignedGroups i call ++ s.drainedGroups cfg i call

/-- `b'` has the queues of `b`, and at most enqueue records of `ids` are gone. -/
structure Frame (ids : List ℕ) (b b' : AlignmentBuffer K) : Prop where
  queues : b'.queues = b.queues
  recorded_of : ∀ x ∈ b'.seqEnqueue, x ∈ b.seqEnqueue
  recorded : ∀ x ∈ b.seqEnqueue, x ∉ ids → x ∈ b'.seqEnqueue

/-- What the tick does from its `form_batch` call on. -/
structure Emitted (cfg : Config K) (s : AlignmentAwareScheduler K) (i : TickInput K)
    (call : DispatchCall K) (s' : AlignmentAwareScheduler K) (out : List SequenceGroup) : Prop where
  out_eq : out = i.sel.prefillGroups ++ s.decodePart cfg i call
  post : ∀ x, x ∈ s'.postAlignmentSeqs ↔
    (x ∈ s.postAlignmentSeqs
        ∨ x ∈ (s.alignedGroups i call ++ s.drainedGroups cfg i call).map SequenceGroup.seqGroupId)
      ∧ (cfg.mode = .piAdaptive → s.scheduleCallCount % 50000 = 0 → x ∈ i.sel.activeIds)
  queue : ∀ k, s'.buffer.queue k =
    ((call.apply s.buffer (some i.sel.decodeGroups.length) i.clock.formBatch).1.queue k).filter
      fun e => decide (¬ ∃ g ∈ s.drainedGroups cfg i call,
        g.adapterId = k ∧ g.seqGroupId = e.1)
  recorded_of : ∀ x ∈ s'.buffer.seqEnqueue, x ∈ s.buffer.seqEnqueue
  recorded : ∀ x ∈ s.buffer.seqEnqueue,
    x ∉ (s.decodePart cfg i call).map SequenceGroup.seqGroupId → x ∈ s'.buffer.seqEnqueue

section

variable {cfg : Config K} {env : Env K} {s s' s₁ : AlignmentAwareScheduler K} {i : TickInput K}
  {call : DispatchCall K} {out : List SequenceGroup}

omit [Field K] [LinearOrder K] in
theorem frame_of_eq {b b' : AlignmentBuffer K} (ids : List ℕ) (hq : b'.queues = b.queues)
    (hr : b'.seqEnqueue = b.seqEnqueue) : Frame ids b b' :=
  ⟨hq, fun _ h => hr ▸ h, fun _ h _ => hr ▸ h⟩

omit [Field K] [LinearOrder K] in
theorem Frame.trans {ids ids' : List ℕ} {b b₁ b' : AlignmentBuffer K} (h : Frame ids b b₁)
    (h' : Frame ids' b₁ b') : Frame (ids ++ ids') b b' where
  queues := h'.queues.trans h.queues
  recorded_of x hx := h.recorded_of x (h'.recorded_of x hx)
  recorded x hx hnot := by
    rw [List.mem_append, not_or] at hnot
    exact h'.recorded x (h.recorded x hx hnot.1) hnot.2

omit [Field K] [LinearOrder K] in
theorem Frame.queue_eq {ids : List ℕ} {b b' : AlignmentBuffer K} (h : Frame ids b b')
    (k : String) : b'.queue k = b.queue k :=
  congrArg (fun d => Dict.getD d k []) h.queues

theorem frame_releaseGroups (s : AlignmentAwareScheduler K) (groups : List SequenceGroup) :
    Frame (groups.map SequenceGroup.seqGroupId) s.buffer (s.releaseGroups groups).buffer where
  queues := queues_releaseGroups s.buffer groups
  recorded_of x hx := ((seqEnqueue_releaseGroups s.buffer groups x).mp hx).1
  recorded x hx hnot := (seqEnqueue_releaseGroups s.buffer groups x).mpr ⟨hx, hnot⟩

/-- The two ways the batch log returns. -/
theorem logWarStats_eq {batch : List SequenceGroup} (h : s.logWarStats cfg env batch = .ok s') :
    s' = s ∨ s' = s.releaseGroups batch := by
  unfold logWarStats at h
  split at h
  · obtain ⟨-, -, h⟩ := bind_eq_ok h
    obtain rfl := Except.ok.inj h
    split
    · exact .inr rfl
    · exact .inl rfl
  · obtain rfl := Except.ok.inj h
    exact .inl rfl

/-- The batch log takes the records of the batch at most. -/
theorem spec_logWarStats {batch : List SequenceGroup} (h : s.logWarStats cfg env batch = .ok s') :
    Frame (batch.map SequenceGroup.seqGroupId) s.buffer s'.buffer
      ∧ s'.postAlignmentSeqs = s.postAlignmentSeqs := by
  rcases logWarStats_eq h with rfl | rfl
  · exact ⟨frame_of_eq _ rfl rfl, rfl⟩
  · exact ⟨frame_releaseGroups s batch, rfl⟩

theorem spec_updateTmax {batch : List SequenceGroup} (h : s.updateTmax env batch = .ok s') :
    Frame [] s.buffer s'.buffer ∧ s'.postAlignmentSeqs = s.postAlignmentSeqs
      ∧ s'.scheduleCallCount = s.scheduleCallCount := by
  unfold updateTmax at h
  split at h
  · obtain rfl := Except.ok.inj h
    exact ⟨frame_of_eq _ rfl rfl, rfl, rfl⟩
  · obtain ⟨w, -, h⟩ := bind_eq_ok h
    obtain rfl := Except.ok.inj h
    exact ⟨frame_of_eq _ rfl rfl, rfl, rfl⟩

theorem dropFinished_buffer : (s.dropFinished i).buffer = s.buffer := by
  unfold dropFinished
  split <;> rfl

theorem mem_dropFinished {x : ℕ} : x ∈ (s.dropFinished i).postAlignmentSeqs
    ↔ x ∈ s.postAlignmentSeqs ∧ (s.scheduleCallCount % 50000 = 0 → x ∈ i.sel.activeIds) := by
  unfold dropFinished
  split
  · rename_i hcount
    exact Finset.mem_inter.trans (and_congr_right fun _ => ⟨fun h _ => h, fun h => h hcount⟩)
  · rename_i hcount
    exact ⟨fun h => ⟨h, fun hc => absurd hc hcount⟩, fun h => h.1⟩

theorem drainedGroups_of_ne (hmode : cfg.mode ≠ .wgkp) : s.drainedGroups cfg i call = [] :=
  if_neg fun h => hmode h.1

theorem mem_dispatch_post {x : ℕ} : x ∈ (s.dispatch i call).1.postAlignmentSeqs
    ↔ x ∈ s.postAlignmentSeqs ∨ x ∈ (s.alignedGroups i call).map SequenceGroup.seqGroupId := by
  show x ∈ s.postAlignmentSeqs ∪ _ ↔ _
  rw [Finset.mem_union, List.mem_toFinset]
  rfl

/-- A tail without a drain: the dispatch, then a frame. -/
theorem emitted_of_frame (hmode : cfg.mode ≠ .wgkp)
    (hframe : Frame ((sortByAdapter (s.postAlignmentGroups i)
        ++ s.alignedGroups i call).map SequenceGroup.seqGroupId)
      (s.dispatch i call).1.buffer s'.buffer)
    (hpost : ∀ x, x ∈ s'.postAlignmentSeqs ↔ x ∈ (s.dispatch i call).1.postAlignmentSeqs
      ∧ (cfg.mode = .piAdaptive → s.scheduleCallCount % 50000 = 0 → x ∈ i.sel.activeIds))
    (hout : out = i.sel.prefillGroups
      ++ (sortByAdapter (s.postAlignmentGroups i) ++ s.alignedGroups i call)) :
    Emitted cfg s i call s' out := by
  have hdrained : s.drainedGroups cfg i call = [] := drainedGroups_of_ne hmode
  have hrec : (s.dispatch i call).1.buffer.seqEnqueue = s.buffer.seqEnqueue :=
    seqEnqueue_apply call s.buffer _ _
  refine ⟨?_, ?_, ?_, ?_, ?_⟩
  · rw [decodePart, hdrained, List.append_nil]
    exact hout
  · intro x
    rw [hpost, mem_dispatch_post, hdrained, List.append_nil]
  · intro k
    rw [hframe.queue_eq, hdrained]
    refine (List.filter_eq_self.mpr fun e _ => ?_).symm
    simp
  · intro x hx
    exact hrec ▸ hframe.recorded_of x hx
  · intro x hx hnot
    rw [decodePart, hdrained, List.append_nil] at hnot
    exact hframe.recorded x (hrec ▸ hx) hnot

theorem emitted_of_emitBatch (hmode : cfg.mode ≠ .wgkp) (hpi : cfg.mode ≠ .piAdaptive)
    (h : s.emitBatch cfg env i call = .ok (s', out)) : Emitted cfg s i call s' out := by
  obtain ⟨s₁, hlog, h⟩ := bind_eq_ok h
  obtain ⟨rfl, rfl⟩ := Prod.mk.inj (Except.ok.inj h)
  obtain ⟨hframe, hpost⟩ := spec_logWarStats hlog
  refine emitted_of_frame hmode hframe (fun x => ?_) rfl
  rw [hpost]
  exact ⟨fun hx => ⟨hx, fun h => absurd h hpi⟩, fun hx => hx.1⟩

theorem emitted_of_emitBatchPi (hmode : cfg.mode = .piAdaptive)
    (h : s.emitBatchPi cfg env i call = .ok (s', out)) : Emitted cfg s i call s' out := by
  obtain ⟨s₁, htmax, h⟩ := bind_eq_ok h
  obtain ⟨s₂, hlog, h⟩ := bind_eq_ok h
  obtain ⟨rfl, rfl⟩ := Prod.mk.inj (Except.ok.inj h)
  obtain ⟨hframe, hpost, hcount⟩ := spec_updateTmax htmax
  obtain ⟨hframe', hpost'⟩ := spec_logWarStats hlog
  rw [dropFinished_buffer] at hframe'
  refine emitted_of_frame (by simp [hmode]) (hframe.trans hframe') (fun x => ?_) rfl
  rw [hpost', mem_dropFinished, hpost, hcount]
  exact and_congr_right fun _ => ⟨fun h _ => h, fun h => h hmode⟩

/-- Without a dispatched group nothing is excepted from the drain. -/
theorem drainBufferRemaining_nil (groups : List SequenceGroup) :
    (s.drainBufferRemaining groups []).2 = groups
      ∧ (∀ k, (s.drainBufferRemaining groups []).1.buffer.queue k = (s.buffer.queue k).filter
          fun e => decide (¬ ∃ g ∈ groups, g.adapterId = k ∧ g.seqGroupId = e.1))
      ∧ (∀ x, x ∈ (s.drainBufferRemaining groups []).1.buffer.seqEnqueue
          ↔ x ∈ s.buffer.seqEnqueue ∧ x ∉ groups.map SequenceGroup.seqGroupId)
      ∧ ∀ x, x ∈ (s.drainBufferRemaining groups []).1.postAlignmentSeqs
          ↔ x ∈ s.postAlignmentSeqs ∨ x ∈ groups.map SequenceGroup.seqGroupId := by
  have hall : (groups.filter fun g => decide (g.seqGroupId ∉ ([] : List ℕ))) = groups :=
    List.filter_eq_self.mpr fun g _ => by simp
  have hpairs : ((groups.map fun g => (g.adapterId, g.seqGroupId)).filter
      fun g => decide (g.2 ∉ ([] : List ℕ))) = groups.map fun g => (g.adapterId, g.seqGroupId) :=
    List.filter_eq_self.mpr fun g _ => by simp
  unfold drainBufferRemaining AlignmentBuffer.drainRemaining
  simp only [hall, hpairs]
  refine ⟨trivial, fun k => ?_, fun x => ?_, fun x => ?_⟩
  · rw [← queue_drainAll]
    exact congrArg (fun d => Dict.getD d k []) (queues_releaseGroups _ groups)
  · refine (seqEnqueue_releaseGroups _ groups x).trans (and_congr_left fun _ => ?_)
    exact iff_of_eq (congrArg (x ∈ ·) (seqEnqueue_drainAll _ s.buffer))
  · show x ∈ s.postAlignmentSeqs ∪ _ ↔ _
    rw [Finset.mem_union, List.mem_toFinset]

/-- The early release, in the two cases of its test. -/
theorem spec_releaseEarly (s : AlignmentAwareScheduler K) (i : TickInput K)
    (call : DispatchCall K) (hmode : cfg.mode = .wgkp) :
    let r := s.releaseEarly i (s.dispatch i call)
    r.2 = s.drainedGroups cfg i call
      ∧ (∀ k, r.1.buffer.queue k = ((s.dispatch i call).1.buffer.queue k).filter
          fun e => decide (¬ ∃ g ∈ s.drainedGroups cfg i call,
            g.adapterId = k ∧ g.seqGroupId = e.1))
      ∧ (∀ x, x ∈ r.1.buffer.seqEnqueue ↔ x ∈ s.buffer.seqEnqueue
          ∧ x ∉ (s.alignedGroups i call ++ s.drainedGroups cfg i call).map
            SequenceGroup.seqGroupId)
      ∧ ∀ x, x ∈ r.1.postAlignmentSeqs ↔ x ∈ s.postAlignmentSeqs
          ∨ x ∈ (s.alignedGroups i call ++ s.drainedGroups cfg i call).map
            SequenceGroup.seqGroupId := by
  intro r
  have hrec : (s.dispatch i call).1.buffer.seqEnqueue = s.buffer.seqEnqueue :=
    seqEnqueue_apply call s.buffer _ _
  have hrel := frame_releaseGroups (s.dispatch i call).1 (s.alignedGroups i call)
  by_cases hempty : i.sel.prefillGroups = [] ∧ s.postAlignmentGroups i = []
      ∧ s.alignedGroups i call = []
  · have hal := hempty.2.2
    have hdr : s.drainedGroups cfg i call = s.firstTimeGroups i := if_pos ⟨hmode, hempty⟩
    have hr : r = (s.dispatch i call).1.drainBufferRemaining (s.firstTimeGroups i) [] := by
      have heq : (s.dispatch i call).2 = [] := hal
      simp only [r, releaseEarly, heq, hempty.1, hempty.2.1, and_self, if_true]
      rfl
    obtain ⟨hout, hqueue, hrecs, hpost⟩ :=
      drainBufferRemaining_nil (s := (s.dispatch i call).1) (s.firstTimeGroups i)
    rw [hr, hdr, hal, List.nil_append]
    refine ⟨hout, hqueue, fun x => (hrecs x).trans (by rw [hrec]), fun x => ?_⟩
    rw [hpost, mem_dispatch_post, hal]
    simp
  · have hdr : s.drainedGroups cfg i call = [] := if_neg fun h => hempty h.2
    have hr : r = ((s.dispatch i call).1.releaseGroups (s.alignedGroups i call), []) :=
      if_neg hempty
    rw [hr, hdr, List.append_nil]
    refine ⟨rfl, fun k => ?_, fun x => ?_, fun x => mem_dispatch_post⟩
    · rw [hrel.queue_eq]
      refine (List.filter_eq_self.mpr fun e _ => ?_).symm
      simp
    · refine (seqEnqueue_releaseGroups _ _ x).trans ?_
      rw [hrec]

theorem emitted_of_emitBatchWgkp (hmode : cfg.mode = .wgkp)
    (h : s.emitBatchWgkp cfg env i call = .ok (s', out)) : Emitted cfg s i call s' out := by
  obtain ⟨s₁, hlog, h⟩ := bind_eq_ok h
  obtain ⟨rfl, rfl⟩ := Prod.mk.inj (Except.ok.inj h)
  obtain ⟨hframe, hpost⟩ := spec_logWarStats hlog
  obtain ⟨hout, hqueue, hrecs, hpost'⟩ := spec_releaseEarly s i call hmode
  refine ⟨?_, fun x => ?_, fun k => ?_, fun x hx => ?_, fun x hx hnot => ?_⟩
  · rw [hout, decodePart, List.append_assoc]
    rfl
  · rw [hpost, hpost']
    exact ⟨fun h => ⟨h, fun hpi => by rw [hmode] at hpi; cases hpi⟩, fun h => h.1⟩
  · rw [hframe.queue_eq, hqueue]
    rfl
  · exact ((hrecs x).mp (hframe.recorded_of x hx)).1
  · rw [decodePart, List.map_append, List.map_append, List.mem_append, List.mem_append, not_or,
      not_or] at hnot
    refine hframe.recorded x ((hrecs x).mpr ⟨hx, ?_⟩) ?_
    · rw [List.map_append, List.mem_append, not_or]
      exact ⟨hnot.1.2, hnot.2⟩
    · rw [List.map_append, List.mem_append, not_or]
      exact hnot.1

theorem emitted_of_emitTick (h : s.emitTick cfg env i call = .ok (s', out)) :
    Emitted cfg s i call s' out := by
  unfold emitTick at h
  cases hmode : cfg.mode <;> simp only [hmode] at h
  case piAdaptive => exact emitted_of_emitBatchPi hmode h
  case wgkp => exact emitted_of_emitBatchWgkp hmode h
  all_goals exact emitted_of_emitBatch (by simp [hmode]) (by simp [hmode]) h

/-! ## The whole tick -/

/-- Counting the call does not touch the split. -/
theorem core_atSplit_countCall (cfg : Config K) (s : AlignmentAwareScheduler K)
    (i : TickInput K) : (atSplit cfg s.countCall i).core = (atSplit cfg s i).core := by
  unfold atSplit
  split <;> rfl

/-- The split reads the aligned set only. -/
theorem split_of_post_eq (h : s'.postAlignmentSeqs = s.postAlignmentSeqs) :
    s'.firstTimeGroups i = s.firstTimeGroups i
      ∧ s'.postAlignmentGroups i = s.postAlignmentGroups i := by
  unfold firstTimeGroups postAlignmentGroups
  rw [h]
  exact ⟨rfl, rfl⟩

theorem Prepared.of_countCall (h : Prepared cfg s.countCall i s₁ call) :
    Prepared cfg s i s₁ call := by
  have hsplit := core_atSplit_countCall cfg s i
  have hbuf : (atSplit cfg s.countCall i).buffer = (atSplit cfg s i).buffer :=
    congrArg Prod.fst hsplit
  have hpost : (atSplit cfg s.countCall i).postAlignmentSeqs
      = (atSplit cfg s i).postAlignmentSeqs := congrArg Prod.snd hsplit
  refine ⟨h.core.trans ?_, h.ranked⟩
  rw [hbuf, hpost, (split_of_post_eq hpost).1]

/-- The two ways a tick returns. -/
theorem schedule_cases (h : s.schedule cfg env i = .ok (s', out)) :
    (i.sel.decodeGroups = [] ∧ s' = s.countCall ∧ out = i.sel.scheduled)
      ∨ (i.sel.decodeGroups ≠ [] ∧ ∃ s₁ call,
          s.countCall.prepareTick cfg env i = .ok (s₁, call)
            ∧ Prepared cfg s i s₁ call ∧ Emitted cfg s₁ i call s' out) := by
  rw [schedule_eq] at h
  unfold scheduleInner at h
  split at h
  · rename_i hnone
    obtain ⟨rfl, rfl⟩ := Prod.mk.inj (Except.ok.inj h)
    exact .inl ⟨hnone, rfl, rfl⟩
  · rename_i hsome
    obtain ⟨⟨s₁, call⟩, hprep, hemit⟩ := bind_eq_ok h
    refine .inr ⟨hsome, s₁, call, hprep, ?_, emitted_of_emitTick hemit⟩
    exact (prepared_of_prepareTick hprep).of_countCall

theorem Prepared.buffer_eq (h : Prepared cfg s i s₁ call) :
    s₁.buffer = enqueueGroups i.clock.enqueue ((atSplit cfg s i).firstTimeGroups i)
      (atSplit cfg s i).buffer :=
  congrArg Prod.fst h.core

theorem Prepared.post_eq (h : Prepared cfg s i s₁ call) :
    s₁.postAlignmentSeqs = (atSplit cfg s i).postAlignmentSeqs :=
  congrArg Prod.snd h.core

/-- The split does not change while the tick prepares its call. -/
theorem Prepared.split_eq (h : Prepared cfg s i s₁ call) :
    s₁.firstTimeGroups i = (atSplit cfg s i).firstTimeGroups i
      ∧ s₁.postAlignmentGroups i = (atSplit cfg s i).postAlignmentGroups i :=
  split_of_post_eq h.post_eq

/-! ## The dispatched groups -/

/-- The pairs the `form_batch` variant returns. -/
def dispatchedPairs (s : AlignmentAwareScheduler K) (i : TickInput K) (call : DispatchCall K) :
    List (String × ℕ) :=
  (call.apply s.buffer (some i.sel.decodeGroups.length) i.clock.formBatch).2

/-- The blocks it pops. -/
def blocks (s : AlignmentAwareScheduler K) (i : TickInput K) (call : DispatchCall K) :
    List Block :=
  call.plan s.buffer (some i.sel.decodeGroups.length) i.clock.formBatch

theorem mem_dispatchedPairs {k : String} {x : ℕ} : (k, x) ∈ s.dispatchedPairs i call
    ↔ x ∈ ((s.buffer.queue k).take (taken (s.blocks i call) k)).map Prod.fst := by
  rw [← List.count_pos_iff, ← List.count_pos_iff, dispatchedPairs, call.apply_eq_plan,
    count_batch]
  rfl

omit [Field K] [LinearOrder K] in
theorem mem_decodeGroups {g : SequenceGroup} : g ∈ i.sel.decodeGroups
    ↔ g ∈ i.sel.scheduled ∧ g.isDecode :=
  List.mem_filter

omit [Field K] [LinearOrder K] in
theorem mem_prefillGroups {g : SequenceGroup} : g ∈ i.sel.prefillGroups
    ↔ g ∈ i.sel.scheduled ∧ g.isDecode = false := by
  rw [Selection.prefillGroups, List.mem_filter, Bool.not_eq_true']

theorem mem_firstTimeGroups {g : SequenceGroup} : g ∈ s.firstTimeGroups i
    ↔ g ∈ i.sel.decodeGroups ∧ g.seqGroupId ∉ s.postAlignmentSeqs := by
  rw [firstTimeGroups, List.mem_filter, decide_eq_true_eq]

theorem mem_postAlignmentGroups {g : SequenceGroup} : g ∈ s.postAlignmentGroups i
    ↔ g ∈ i.sel.decodeGroups ∧ g.seqGroupId ∈ s.postAlignmentSeqs := by
  rw [postAlignmentGroups, List.mem_filter, decide_eq_true_eq]

theorem nodup_firstTimeGroups :
    ((s.firstTimeGroups i).map SequenceGroup.seqGroupId).Nodup :=
  i.sel.nodup.sublist ((List.filter_sublist.trans List.filter_sublist).map _)

/-- `seq_id_to_sg.get`. -/
theorem get?_seqIdToSg {groups : List SequenceGroup}
    (hnd : (groups.map SequenceGroup.seqGroupId).Nodup) {x : ℕ} {g : SequenceGroup} :
    ((Dict.empty.insertAll (groups.map fun g => (g.seqGroupId, g)) : Dict ℕ SequenceGroup).get? x
      = some g) ↔ g ∈ groups ∧ g.seqGroupId = x := by
  have hkeys : ((groups.map fun g => (g.seqGroupId, g)).map Prod.fst).Nodup := by
    rw [List.map_map]
    exact hnd
  rw [Dict.get?_insertAll_of_nodup x _ hkeys, Dict.get?_empty, Option.or_none]
  constructor
  · intro h
    obtain ⟨g', hg', heq⟩ := List.mem_map.mp (mem_of_assocGet h)
    obtain ⟨rfl, rfl⟩ := Prod.mk.inj heq
    exact ⟨hg', rfl⟩
  · rintro ⟨hg, rfl⟩
    exact assocGet_of_mem hkeys (List.mem_map.mpr ⟨g, hg, rfl⟩)

/-- A first-time group is aligned when its token is dispatched from some queue. -/
theorem mem_alignedGroups {g : SequenceGroup} : g ∈ s.alignedGroups i call
    ↔ g ∈ s.firstTimeGroups i ∧ ∃ k, (k, g.seqGroupId) ∈ s.dispatchedPairs i call := by
  show g ∈ List.filterMap _ (s.dispatchedPairs i call) ↔ _
  rw [List.mem_filterMap]
  constructor
  · rintro ⟨⟨k, x⟩, hp, hget⟩
    obtain ⟨hg, rfl⟩ := (get?_seqIdToSg nodup_firstTimeGroups).mp hget
    exact ⟨hg, k, hp⟩
  · rintro ⟨hg, k, hp⟩
    exact ⟨(k, g.seqGroupId), hp, (get?_seqIdToSg nodup_firstTimeGroups).mpr ⟨hg, rfl⟩⟩

theorem mem_drainedGroups {g : SequenceGroup} (h : g ∈ s.drainedGroups cfg i call) :
    g ∈ s.firstTimeGroups i := by
  unfold drainedGroups at h
  split at h
  · exact h
  · cases h

end

end AlignmentAwareScheduler

end AdapterSlots
