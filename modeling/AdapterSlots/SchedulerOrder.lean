import AdapterSlots.SchedulerRun

/-!
# When the decode batch is adapter-contiguous

The decode part of a batch joins a list sorted by adapter (the groups aligned
before) with the blocks of this tick's dispatch. Each of the two is
contiguous. Their join is so exactly when an adapter on both sides closes
the sorted list and opens the dispatch (`BatchJoins`). The list a wgkp tick
drains keeps vLLM's order.
-/

namespace AdapterSlots

open Lib AlignmentBuffer

variable {K : Type} [Field K] [LinearOrder K]

namespace AlignmentAwareScheduler

/-- The adapters of the decode groups of a batch, in order. -/
def decodeAdapters (out : List SequenceGroup) : List String :=
  (out.filter SequenceGroup.isDecode).map SequenceGroup.adapterId

/-- The decode groups of any one adapter are one run: there are as many runs as
distinct adapters. -/
def AdapterContiguous (out : List SequenceGroup) : Prop :=
  Contiguous (decodeAdapters out)
    ∧ (runs (decodeAdapters out)).length = (decodeAdapters out).toFinset.card

instance (out : List SequenceGroup) : Decidable (AdapterContiguous out) :=
  inferInstanceAs (Decidable (_ ∧ _))

theorem adapterContiguous_iff {out : List SequenceGroup} :
    AdapterContiguous out ↔ Contiguous (decodeAdapters out) := by
  unfold AdapterContiguous
  rw [← contiguous_iff_length_runs, and_self]

/-- How many tokens of a block belong to groups of this tick. -/
def offeredTokens (s : AlignmentAwareScheduler K) (i : TickInput K) (blk : Block) : ℕ :=
  (((s.buffer.queue blk.adapter).take blk.n).map Prod.fst).countP
    fun x => decide (x ∈ (s.firstTimeGroups i).map SequenceGroup.seqGroupId)

/-- The adapters whose queues the dispatch pops, in order, without those whose
popped tokens all belong to groups that are not selected. -/
def dispatchedAdapters (s : AlignmentAwareScheduler K) (i : TickInput K) (call : DispatchCall K) :
    List String :=
  blockValues Block.adapter (s.offeredTokens i) (s.blocks i call)

/-- The parts of the decode batch fit together, seen from the state at the
dispatch. -/
def PartsJoin (cfg : Config K) (s : AlignmentAwareScheduler K) (i : TickInput K)
    (call : DispatchCall K) : Prop :=
  let aligned := (s.postAlignmentGroups i).map SequenceGroup.adapterId
  let dispatched := s.dispatchedAdapters i call
  (∀ k ∈ aligned, k ∈ dispatched → (∀ k' ∈ aligned, k' ≤ k) ∧ dispatched.head? = some k)
    ∧ (cfg.mode = .wgkp ∧ i.sel.prefillGroups = [] ∧ aligned = [] ∧ dispatched = [] →
        Contiguous ((s.firstTimeGroups i).map SequenceGroup.adapterId))

/-- An adapter with an aligned group that is dispatched now is the greatest
adapter name among the aligned groups and the first one dispatched; and
groups that a wgkp tick drains are contiguous in vLLM's order. -/
def BatchJoins (cfg : Config K) (env : Env K) (s : AlignmentAwareScheduler K)
    (i : TickInput K) : Prop :=
  i.sel.decodeGroups ≠ [] → ∀ s₁ call, s.countCall.prepareTick cfg env i = .ok (s₁, call) →
    PartsJoin cfg s₁ i call

section Order

variable {adapterOf : ℕ → String} {cfg : Config K} {env : Env K}
  {s s' s₁ : AlignmentAwareScheduler K} {i : TickInput K} {call : DispatchCall K}
  {out : List SequenceGroup}

/-- The dispatched pairs, block after block. -/
theorem dispatchedPairs_eq (hranked : call.RankedNodup) :
    s.dispatchedPairs i call = (s.blocks i call).flatMap fun blk =>
      (((s.buffer.queue blk.adapter).take blk.n).map Prod.fst).map (Prod.mk blk.adapter) := by
  rw [dispatchedPairs, call.apply_eq_plan,
    emitted_of_nodup _ (DispatchCall.nodup_plan _ _ _ hranked), pairs, List.map_flatMap]
  refine List.flatMap_congr fun blk _ => ?_
  rw [tokens, List.map_map, List.map_map]
  rfl

/-- Looking up tokens whose groups all have adapter `k`. -/
theorem map_adapterId_filterMap {groups : List SequenceGroup} {ids : List ℕ} {k : String}
    (hnd : (groups.map SequenceGroup.seqGroupId).Nodup)
    (hown : ∀ g ∈ groups, g.seqGroupId ∈ ids → g.adapterId = k) :
    (ids.filterMap fun x => (Dict.empty.insertAll (groups.map fun g => (g.seqGroupId, g)) :
        Dict ℕ SequenceGroup).get? x).map SequenceGroup.adapterId
      = List.replicate
          (ids.countP fun x => decide (x ∈ groups.map SequenceGroup.seqGroupId)) k := by
  rw [List.eq_replicate_iff, List.length_map, List.length_filterMap_eq_countP]
  constructor
  · refine List.countP_congr fun x _ => ?_
    rw [Option.isSome_iff_exists, decide_eq_true_eq, List.mem_map]
    exact exists_congr fun g => get?_seqIdToSg hnd
  · intro k' hk'
    obtain ⟨g, hg, rfl⟩ := List.mem_map.mp hk'
    obtain ⟨x, hx, hget⟩ := List.mem_filterMap.mp hg
    obtain ⟨hmem, rfl⟩ := (get?_seqIdToSg hnd).mp hget
    exact hown g hmem hx

/-- The aligned groups come in blocks of one adapter each. -/
theorem map_adapterId_alignedGroups (h : Waiting adapterOf s) (hfix : i.FixedAdapter adapterOf)
    (hranked : call.RankedNodup) :
    (s.alignedGroups i call).map SequenceGroup.adapterId
      = copies Block.adapter (s.offeredTokens i) (s.blocks i call) := by
  show (List.filterMap _ (s.dispatchedPairs i call)).map _ = _
  rw [dispatchedPairs_eq hranked, List.filterMap_flatMap, List.map_flatMap, copies]
  refine List.flatMap_congr fun blk _ => ?_
  rw [List.filterMap_map]
  refine map_adapterId_filterMap nodup_firstTimeGroups fun g hg hx => ?_
  rw [adapterId_of_decode hfix (mem_firstTimeGroups.mp hg).1]
  exact h.own _ _ (List.map_subset _ (List.take_subset ..) hx)

/-- The adapters dispatched are those of the aligned groups. -/
theorem mem_dispatchedAdapters (h : Waiting adapterOf s) (hfix : i.FixedAdapter adapterOf)
    (hranked : call.RankedNodup) {k : String} :
    k ∈ (s.alignedGroups i call).map SequenceGroup.adapterId ↔ k ∈ s.dispatchedAdapters i call := by
  rw [map_adapterId_alignedGroups h hfix hranked]
  exact mem_copies

theorem alignedGroups_eq_nil (h : Waiting adapterOf s) (hfix : i.FixedAdapter adapterOf)
    (hranked : call.RankedNodup) :
    s.alignedGroups i call = [] ↔ s.dispatchedAdapters i call = [] := by
  rw [← List.map_eq_nil_iff (f := SequenceGroup.adapterId), List.eq_nil_iff_forall_not_mem,
    List.eq_nil_iff_forall_not_mem]
  exact forall_congr' fun k => not_congr (mem_dispatchedAdapters h hfix hranked)

/-- The sorted groups and the dispatched ones are contiguous as far as their join
allows. -/
theorem contiguous_join (h : Waiting adapterOf s) (hfix : i.FixedAdapter adapterOf)
    (hranked : call.RankedNodup) :
    Contiguous ((sortByAdapter (s.postAlignmentGroups i) ++ s.alignedGroups i call).map
        SequenceGroup.adapterId)
      ↔ ∀ k ∈ (s.postAlignmentGroups i).map SequenceGroup.adapterId,
          k ∈ s.dispatchedAdapters i call →
            (∀ k' ∈ (s.postAlignmentGroups i).map SequenceGroup.adapterId, k' ≤ k)
              ∧ (s.dispatchedAdapters i call).head? = some k := by
  have hsorted : ((sortByAdapter (s.postAlignmentGroups i)).map
      SequenceGroup.adapterId).Pairwise (· ≤ ·) :=
    List.pairwise_map.mpr (pairwise_sortByKey _ _)
  have hmem : ∀ {k}, k ∈ (sortByAdapter (s.postAlignmentGroups i)).map SequenceGroup.adapterId
      ↔ k ∈ (s.postAlignmentGroups i).map SequenceGroup.adapterId :=
    ((sortByKey_perm _ _).map _).mem_iff
  rw [List.map_append, map_adapterId_alignedGroups h hfix hranked, contiguous_append]
  constructor
  · rintro ⟨-, -, hjoin⟩ k hk hd
    obtain ⟨hlast, hhead⟩ := hjoin k (hmem.mpr hk) (mem_copies.mpr hd)
    rw [head?_copies] at hhead
    refine ⟨fun k' hk' => ?_, hhead⟩
    exact (getLast?_eq_iff_of_sorted hsorted (hmem.mpr hk)).mp hlast k' (hmem.mpr hk')
  · intro hjoin
    refine ⟨contiguous_map_sortByKey _ _,
      contiguous_copies (DispatchCall.nodup_plan _ _ _ hranked), fun k hk hd => ?_⟩
    obtain ⟨hmax, hhead⟩ := hjoin k (hmem.mp hk) (mem_copies.mp hd)
    rw [head?_copies]
    refine ⟨(getLast?_eq_iff_of_sorted hsorted hk).mpr fun k' hk' => ?_, hhead⟩
    exact hmax k' (hmem.mp hk')

/-- The decode groups of the batch are its decode part. -/
theorem Emitted.filter_isDecode (hemit : Emitted cfg s i call s' out) :
    out.filter SequenceGroup.isDecode = s.decodePart cfg i call := by
  have hpre : i.sel.prefillGroups.filter SequenceGroup.isDecode = [] := by
    refine List.filter_eq_nil_iff.mpr fun g hg => ?_
    simp [(mem_prefillGroups.mp hg).2]
  rw [hemit.out_eq, List.filter_append, hpre, List.nil_append]
  exact List.filter_eq_self.mpr fun g hg => (mem_decodeGroups.mp (mem_decodePart hg)).2

/-- The batch is contiguous exactly when its parts fit together. -/
theorem Emitted.contiguous_iff (h : Waiting adapterOf s) (hfix : i.FixedAdapter adapterOf)
    (hranked : call.RankedNodup) (hemit : Emitted cfg s i call s' out) :
    AdapterContiguous out ↔ PartsJoin cfg s i call := by
  rw [adapterContiguous_iff, decodeAdapters, hemit.filter_isDecode, decodePart, PartsJoin]
  have hnil : (s.postAlignmentGroups i).map SequenceGroup.adapterId = []
      ↔ s.postAlignmentGroups i = [] := List.map_eq_nil_iff
  simp only [hnil, ← alignedGroups_eq_nil h hfix hranked]
  by_cases hdrain : cfg.mode = .wgkp ∧ i.sel.prefillGroups = [] ∧ s.postAlignmentGroups i = []
      ∧ s.alignedGroups i call = []
  · rw [drainedGroups, if_pos hdrain]
    have hall : sortByAdapter (s.postAlignmentGroups i) ++ s.alignedGroups i call
        ++ s.firstTimeGroups i = s.firstTimeGroups i := by
      rw [hdrain.2.2.1, hdrain.2.2.2]
      rfl
    rw [hall]
    refine ⟨fun hc => ⟨fun k hk => ?_, fun _ => hc⟩, fun hc => hc.2 hdrain⟩
    rw [hdrain.2.2.1] at hk
    cases hk
  · rw [drainedGroups, if_neg hdrain, List.append_nil, contiguous_join h hfix hranked]
    exact ⟨fun hc => ⟨hc, fun hd => absurd hd hdrain⟩, fun hc => hc.1⟩

theorem Waiting.contiguous_iff (h : Waiting adapterOf s) (hfix : i.FixedAdapter adapterOf)
    (htick : Tick cfg env s i out s') : AdapterContiguous out ↔ BatchJoins cfg env s i := by
  rcases schedule_cases htick with ⟨hnone, -, rfl⟩ | ⟨hsome, s₁, call, hprep, hspec, hemit⟩
  · refine iff_of_true ?_ fun hsome => absurd hnone hsome
    rw [adapterContiguous_iff, decodeAdapters]
    show Contiguous (i.sel.decodeGroups.map _)
    rw [hnone]
    trivial
  · rw [hemit.contiguous_iff (h.prepared hfix hspec) hfix hspec.ranked]
    constructor
    · intro hjoin _ s₂ call₂ hprep₂
      obtain ⟨rfl, rfl⟩ := Prod.mk.inj (Except.ok.inj (hprep.symm.trans hprep₂))
      exact hjoin
    · exact fun hjoins => hjoins hsome s₁ call hprep

end Order

/-- **The decode batch is adapter-contiguous** in every tick of a run whose parts
join, and in no other. -/
theorem tick_contiguous_iff {adapterOf : ℕ → String} {cfg : Config K} {env : Env K}
    {s : AlignmentAwareScheduler K} {tr : TickHistory K}
    (h : Exec (Tick cfg env) (init cfg) tr s)
    (hfix : ∀ e ∈ tr, e.label.FixedAdapter adapterOf) :
    ∀ e ∈ tr, AdapterContiguous e.out ↔ BatchJoins cfg env e.pre e.label := by
  intro e he
  obtain ⟨-, hall⟩ := waiting_of_run h hfix
  exact (hall e he).1.contiguous_iff (hfix e he) (h.step_of_mem e he)

/-- In `heldThenRun` the parts of every batch join. -/
theorem heldThenRun_joins :
    ∃ tr s,
      Exec (Tick (Config.default .threshold) sampleEnv) (init (Config.default .threshold)) tr s
      ∧ tr.map Event.label = heldThenRun
      ∧ ∀ e ∈ tr, BatchJoins (Config.default .threshold) sampleEnv e.pre e.label := by
  obtain ⟨tr, s, hexec, hlabels, hout⟩ := exists_run (Config.default .threshold) sampleEnv
    heldThenRun (fun e => decide (AdapterContiguous e.out)) (l := [true, true, true])
    (by decide +kernel)
  refine ⟨tr, s, hexec, hlabels, fun e he => ?_⟩
  refine (tick_contiguous_iff hexec (fun e he =>
    heldThenRun_fixed e.label (hlabels ▸ List.mem_map.mpr ⟨e, he, rfl⟩)) e he).mp ?_
  have hmem : decide (AdapterContiguous e.out) ∈ [true, true, true] :=
    hout ▸ List.mem_map.mpr ⟨e, he, rfl⟩
  simpa using hmem

/-- Sequence 3 of adapter `a` arrives when sequences of `a` and `b` already run. -/
def lateArrival : List (TickInput ℚ) :=
  [sampleTick 0 [sampleGroup 1 "a" false, sampleGroup 2 "b" false] nodup_oneTwo,
    sampleTick 1 [sampleGroup 1 "a" false, sampleGroup 2 "b" false] nodup_oneTwo,
    sampleTick 2 [sampleGroup 1 "a" false, sampleGroup 2 "b" false, sampleGroup 3 "a" false]
      (by decide),
    sampleTick 3 [sampleGroup 1 "a" false, sampleGroup 2 "b" false, sampleGroup 3 "a" false]
      (by decide)]

/-- The last batch has two runs of adapter `a`. -/
theorem lateArrival_not_contiguous :
    (∀ i ∈ lateArrival, i.FixedAdapter fun x => if x = 2 then "b" else "a")
      ∧ ∃ tr s,
        Exec (Tick (Config.default .threshold) sampleEnv) (init (Config.default .threshold)) tr s
          ∧ tr.map Event.label = lateArrival
          ∧ tr.map (fun e => (decodeAdapters e.out, decide (AdapterContiguous e.out)))
            = [([], true), (["a", "b"], true), (["a", "b"], true), (["a", "b", "a"], false)] := by
  refine ⟨?_, exists_run _ sampleEnv lateArrival
    (fun e => (decodeAdapters e.out, decide (AdapterContiguous e.out))) (by decide +kernel)⟩
  unfold TickInput.FixedAdapter
  decide

end AlignmentAwareScheduler

end AdapterSlots
