import AdapterSlots.SchedulerRun

/-!
# When the buffer loses a sequence

After a tick every offered decode group should have run (and be aligned) or
have its token in the queue of its adapter. A dispatch pops tokens also of
groups that vLLM did not select in this tick. Such a token leaves the queue
without its group being emitted, but its enqueue record stays; when the
group is offered again, `enqueue` takes it for a buffered one and does
nothing. The group is `Dropped`: not aligned, recorded, in no queue.

`tick_keeps_offered_iff` says that this is the only way a tick fails, and
that only the drain of a wgkp tick with an otherwise empty batch recovers a
dropped group.
-/

namespace AdapterSlots

open Lib AlignmentBuffer

variable {K : Type} [Field K] [LinearOrder K]

/-- vLLM moves the groups it schedules to `self.running`. -/
def TickInput.Running (i : TickInput K) : Prop := ∀ g ∈ i.sel.scheduled, g ∈ i.sel.running

namespace AlignmentAwareScheduler

/-- Every offered decode group runs and is aligned, or waits in its queue. -/
def KeepsOffered (i : TickInput K) (out : List SequenceGroup) (s' : AlignmentAwareScheduler K) :
    Prop :=
  ∀ g ∈ i.sel.decodeGroups, (g ∈ out ∧ g.seqGroupId ∈ s'.postAlignmentSeqs)
    ∨ g.seqGroupId ∈ s'.buffer.seqIds g.adapterId

instance (i : TickInput K) (out : List SequenceGroup) (s' : AlignmentAwareScheduler K) :
    Decidable (KeepsOffered i out s') :=
  inferInstanceAs (Decidable (∀ g ∈ i.sel.decodeGroups, _))

/-- An enqueue record without a queue entry, of a sequence not aligned yet. -/
def Dropped (s : AlignmentAwareScheduler K) (g : SequenceGroup) : Prop :=
  g.seqGroupId ∉ s.postAlignmentSeqs ∧ g.seqGroupId ∈ s.buffer.seqEnqueue
    ∧ g.seqGroupId ∉ s.buffer.seqIds g.adapterId

instance (s : AlignmentAwareScheduler K) (g : SequenceGroup) : Decidable (s.Dropped g) :=
  inferInstanceAs (Decidable (_ ∧ _))

/-- No offered decode group is dropped when the tick splits the groups. -/
def NoneDropped (cfg : Config K) (s : AlignmentAwareScheduler K) (i : TickInput K) : Prop :=
  ∀ g ∈ i.sel.decodeGroups, ¬ (atSplit cfg s i).Dropped g

instance (cfg : Config K) (s : AlignmentAwareScheduler K) (i : TickInput K) :
    Decidable (NoneDropped cfg s i) :=
  inferInstanceAs (Decidable (∀ g ∈ i.sel.decodeGroups, _))

/-- A wgkp tick that finds no prefill and no aligned group, and whose dispatch
takes no token of an offered group. -/
def WouldBeEmpty (cfg : Config K) (env : Env K) (s : AlignmentAwareScheduler K)
    (i : TickInput K) : Prop :=
  cfg.mode = .wgkp ∧ i.sel.prefillGroups = [] ∧ (atSplit cfg s i).postAlignmentGroups i = []
    ∧ ∀ s₁ call, s.countCall.prepareTick cfg env i = .ok (s₁, call) →
        ∀ g ∈ i.sel.decodeGroups, ∀ k, (k, g.seqGroupId) ∉ s₁.dispatchedPairs i call

omit [Field K] [LinearOrder K] in
/-- A running decode group's sequence is active. -/
theorem mem_activeIds {i : TickInput K} (hrun : i.Running) {g : SequenceGroup}
    (hg : g ∈ i.sel.decodeGroups) : g.seqGroupId ∈ i.sel.activeIds := by
  obtain ⟨hsched, hdec⟩ := mem_decodeGroups.mp hg
  cases hseqs : g.seqs with
  | nil =>
      rw [SequenceGroup.isDecode, hseqs] at hdec
      simp at hdec
  | cons q qs =>
      refine List.mem_toFinset.mpr (List.mem_flatMap.mpr ⟨g, hrun g hsched, ?_⟩)
      rw [SequenceGroup.seqGroupId, hseqs]
      exact List.mem_cons_self ..

omit [Field K] [LinearOrder K] in
/-- Groups of one selection with one sequence are one group. -/
theorem eq_of_seqGroupId_eq {i : TickInput K} {g g' : SequenceGroup} (hg : g ∈ i.sel.scheduled)
    (hg' : g' ∈ i.sel.scheduled) (h : g.seqGroupId = g'.seqGroupId) : g = g' :=
  List.inj_on_of_nodup_map i.sel.nodup hg hg' h

section Loss

variable {adapterOf : ℕ → String} {cfg : Config K} {env : Env K}
  {s s' s₁ : AlignmentAwareScheduler K} {i : TickInput K} {call : DispatchCall K}
  {out : List SequenceGroup}

/-- The token of a first-time group is queued at the dispatch unless the group is
dropped. -/
theorem Prepared.queued_iff (hprep : Prepared cfg s i s₁ call) {g : SequenceGroup}
    (hg : g ∈ s₁.firstTimeGroups i) :
    g.seqGroupId ∈ s₁.buffer.seqIds g.adapterId ↔ ¬ (atSplit cfg s i).Dropped g := by
  rw [hprep.split_eq.1] at hg
  have hpost := (mem_firstTimeGroups.mp hg).2
  rw [hprep.seqIds, List.mem_append, mem_newEntries]
  unfold Dropped
  constructor
  · rintro (hold | ⟨hrec, -⟩) ⟨-, hrec', hnot⟩
    · exact hnot hold
    · exact hrec hrec'
  · intro h
    by_cases hold : g.seqGroupId ∈ (atSplit cfg s i).buffer.seqIds g.adapterId
    · exact .inl hold
    · exact .inr ⟨fun hrec => h ⟨hpost, hrec, hold⟩, g, hg, rfl, rfl⟩

/-- Every group of the decode part runs and is aligned afterwards. -/
theorem Emitted.aligned (hrun : i.Running) (hemit : Emitted cfg s i call s' out)
    {g : SequenceGroup} (hg : g ∈ s.decodePart cfg i call) :
    g ∈ out ∧ g.seqGroupId ∈ s'.postAlignmentSeqs := by
  refine ⟨hemit.out_eq ▸ List.mem_append_right _ hg, (hemit.post _).mpr ⟨?_, fun _ _ => ?_⟩⟩
  · rcases mem_decodePart_iff.mp hg with hpost | hleft
    · exact .inl (mem_postAlignmentGroups.mp hpost).2
    · exact .inr (List.mem_map.mpr ⟨g, List.mem_append.mpr hleft, rfl⟩)
  · exact mem_activeIds hrun (mem_decodePart hg)

/-- A queued token stays when its group does not leave. -/
theorem Emitted.stays (h : Waiting adapterOf s) (hemit : Emitted cfg s i call s' out)
    {g : SequenceGroup} (hg : g ∈ i.sel.decodeGroups) (hnot : g ∉ s.decodePart cfg i call)
    (hqueued : g.seqGroupId ∈ s.buffer.seqIds g.adapterId) :
    g.seqGroupId ∈ s'.buffer.seqIds g.adapterId := by
  obtain ⟨e, he, hid⟩ := List.mem_map.mp hqueued
  have hfirst : g ∈ s.firstTimeGroups i :=
    mem_firstTimeGroups.mpr ⟨hg, h.unaligned _ _ hqueued⟩
  have hpair : (g.adapterId, g.seqGroupId) ∉ s.dispatchedPairs i call := fun hp =>
    hnot (mem_decodePart_iff.mpr (.inr (.inl (mem_alignedGroups.mpr ⟨hfirst, _, hp⟩))))
  refine List.mem_map.mpr ⟨e, ?_, hid⟩
  rw [hemit.queue, List.mem_filter, decide_eq_true_eq, queue_apply]
  constructor
  · rw [← List.take_append_drop (taken (s.blocks i call) g.adapterId)
      (s.buffer.queue g.adapterId)] at he
    refine (List.mem_append.mp he).resolve_left fun htake => hpair ?_
    exact mem_dispatchedPairs.mpr (List.mem_map.mpr ⟨e, htake, hid⟩)
  · rintro ⟨g', hdr, -, hid'⟩
    have hdec' := (mem_firstTimeGroups.mp (mem_drainedGroups hdr)).1
    obtain rfl : g' = g := eq_of_seqGroupId_eq (mem_decodeGroups.mp hdec').1
      (mem_decodeGroups.mp hg).1 (hid'.trans hid)
    exact hnot (mem_decodePart_iff.mpr (.inr (.inr hdr)))

/-- An offered group is kept when it was aligned before, is drained, or has its
token queued at the dispatch. -/
theorem Emitted.kept_iff (h : Waiting adapterOf s) (hfix : i.FixedAdapter adapterOf)
    (hrun : i.Running) (hemit : Emitted cfg s i call s' out) {g : SequenceGroup}
    (hg : g ∈ i.sel.decodeGroups) :
    ((g ∈ out ∧ g.seqGroupId ∈ s'.postAlignmentSeqs)
        ∨ g.seqGroupId ∈ s'.buffer.seqIds g.adapterId)
      ↔ g ∈ s.postAlignmentGroups i ∨ g ∈ s.drainedGroups cfg i call
        ∨ g.seqGroupId ∈ s.buffer.seqIds g.adapterId := by
  constructor
  · rintro (⟨hout, -⟩ | hqueued)
    · rw [hemit.out_eq] at hout
      rcases List.mem_append.mp hout with hpre | hpart
      · have hnot := (mem_prefillGroups.mp hpre).2
        rw [(mem_decodeGroups.mp hg).2] at hnot
        cases hnot
      · rcases mem_decodePart_iff.mp hpart with hpost | hal | hdr
        · exact .inl hpost
        · -- an aligned group's token was in the queue of its adapter
          obtain ⟨-, k, hp⟩ := mem_alignedGroups.mp hal
          have hk := List.map_subset _ (List.take_subset ..) (mem_dispatchedPairs.mp hp)
          obtain rfl : k = g.adapterId :=
            (h.own k _ hk).symm.trans (adapterId_of_decode hfix hg).symm
          exact .inr (.inr hk)
        · exact .inr (.inl hdr)
    · exact .inr (.inr (hemit.not_left h hfix hqueued).1)
  · rintro (hpost | hdr | hqueued)
    · exact .inl (hemit.aligned hrun (mem_decodePart_iff.mpr (.inl hpost)))
    · exact .inl (hemit.aligned hrun (mem_decodePart_iff.mpr (.inr (.inr hdr))))
    · by_cases hpart : g ∈ s.decodePart cfg i call
      · exact .inl (hemit.aligned hrun hpart)
      · exact .inr (hemit.stays h hg hpart hqueued)

/-- Only a dropped group is not kept, unless it is drained. -/
theorem keepsOffered_iff (h : Waiting adapterOf s₁) (hfix : i.FixedAdapter adapterOf)
    (hrun : i.Running) (hprep : Prepared cfg s i s₁ call) (hemit : Emitted cfg s₁ i call s' out) :
    KeepsOffered i out s' ↔ ∀ g ∈ i.sel.decodeGroups, (atSplit cfg s i).Dropped g →
      g ∈ s₁.drainedGroups cfg i call := by
  refine forall₂_congr fun g hg => (hemit.kept_iff h hfix hrun hg).trans ?_
  by_cases hpost : g.seqGroupId ∈ s₁.postAlignmentSeqs
  · refine iff_of_true (.inl (mem_postAlignmentGroups.mpr ⟨hg, hpost⟩)) fun hdrop => ?_
    rw [hprep.post_eq] at hpost
    exact absurd hpost hdrop.1
  · have hfirst := mem_firstTimeGroups.mpr ⟨hg, hpost⟩
    have hnot : g ∉ s₁.postAlignmentGroups i := fun h => hpost (mem_postAlignmentGroups.mp h).2
    rw [hprep.queued_iff hfirst]
    tauto

/-- The drain takes all first-time groups when the tick would be empty, and none
otherwise. -/
theorem drainedGroups_eq (hprep : s.countCall.prepareTick cfg env i = .ok (s₁, call))
    (hspec : Prepared cfg s i s₁ call) [Decidable (WouldBeEmpty cfg env s i)] :
    s₁.drainedGroups cfg i call
      = if WouldBeEmpty cfg env s i then s₁.firstTimeGroups i else [] := by
  obtain ⟨-, hpost⟩ := hspec.split_eq
  have hiff : (cfg.mode = .wgkp ∧ i.sel.prefillGroups = [] ∧ s₁.postAlignmentGroups i = []
      ∧ s₁.alignedGroups i call = []) ↔ WouldBeEmpty cfg env s i := by
    unfold WouldBeEmpty
    rw [← hpost]
    refine and_congr_right fun _ => and_congr_right fun _ => and_congr_right fun hnone => ?_
    rw [List.eq_nil_iff_forall_not_mem]
    constructor
    · intro hal s₂ call₂ hprep₂ g hg k hp
      obtain ⟨rfl, rfl⟩ := Prod.mk.inj (Except.ok.inj (hprep.symm.trans hprep₂))
      have hfirst : g ∈ s₁.firstTimeGroups i := mem_firstTimeGroups.mpr ⟨hg, fun hin =>
        List.not_mem_nil (hnone ▸ mem_postAlignmentGroups.mpr ⟨hg, hin⟩)⟩
      exact hal g (mem_alignedGroups.mpr ⟨hfirst, k, hp⟩)
    · intro hnot g hg
      obtain ⟨hfirst, k, hp⟩ := mem_alignedGroups.mp hg
      exact hnot s₁ call hprep g (mem_firstTimeGroups.mp hfirst).1 k hp
  unfold drainedGroups
  exact if_congr hiff rfl rfl

theorem Waiting.keepsOffered_iff (h : Waiting adapterOf s) (hfix : i.FixedAdapter adapterOf)
    (hrun : i.Running) (htick : Tick cfg env s i out s') :
    KeepsOffered i out s' ↔ NoneDropped cfg s i ∨ WouldBeEmpty cfg env s i := by
  classical
  rcases schedule_cases htick with ⟨hnone, -, -⟩ | ⟨-, s₁, call, hprep, hspec, hemit⟩
  · have hall : ∀ {P : SequenceGroup → Prop}, ∀ g ∈ i.sel.decodeGroups, P g := fun g hg => by
      rw [hnone] at hg
      cases hg
    exact iff_of_true hall (.inl hall)
  · rw [AlignmentAwareScheduler.keepsOffered_iff (h.prepared hfix hspec) hfix hrun hspec hemit,
      drainedGroups_eq hprep hspec]
    split
    · rename_i hempty
      refine iff_of_true (fun g hg hdrop => ?_) (.inr hempty)
      rw [hspec.split_eq.1]
      exact mem_firstTimeGroups.mpr ⟨hg, hdrop.1⟩
    · rename_i hempty
      constructor
      · exact fun hkeep => .inl fun g hg hdrop => List.not_mem_nil (hkeep g hg hdrop)
      · rintro (hnone | h) g hg hdrop
        · exact absurd hdrop (hnone g hg)
        · exact absurd h hempty

end Loss

/-- **No sequence is lost** by a tick if and only if no offered group is dropped
when the tick begins, or a wgkp tick drains its offered groups. -/
theorem tick_keeps_offered_iff {adapterOf : ℕ → String} {cfg : Config K} {env : Env K}
    {s : AlignmentAwareScheduler K} {tr : TickHistory K}
    (h : Exec (Tick cfg env) (init cfg) tr s)
    (hfix : ∀ e ∈ tr, e.label.FixedAdapter adapterOf) (hrun : ∀ e ∈ tr, e.label.Running) :
    ∀ e ∈ tr, KeepsOffered e.label e.out e.post
      ↔ NoneDropped cfg e.pre e.label ∨ WouldBeEmpty cfg env e.pre e.label := by
  intro e he
  obtain ⟨-, hall⟩ := waiting_of_run h hfix
  exact (hall e he).1.keepsOffered_iff (hfix e he) (hrun e he) (h.step_of_mem e he)

/-- Sequence 1 is missing for a tick before its deadline and comes back. -/
def backInTime : List (TickInput ℚ) :=
  [sampleTick 0 [sampleGroup 1 "a" false, sampleGroup 2 "b" false] nodup_oneTwo,
    sampleTick (1 / 1000) [sampleGroup 2 "b" false] (by decide),
    sampleTick (2 / 1000) [sampleGroup 1 "a" false, sampleGroup 2 "b" false] nodup_oneTwo,
    sampleTick 1 [sampleGroup 1 "a" false, sampleGroup 2 "b" false] nodup_oneTwo]

theorem backInTime_keeps_offered :
    ∃ tr s,
      Exec (Tick (Config.default .threshold) sampleEnv) (init (Config.default .threshold)) tr s
      ∧ tr.map Event.label = backInTime ∧ ∀ e ∈ tr, KeepsOffered e.label e.out e.post := by
  have hvalid : ∀ i ∈ backInTime,
      i.FixedAdapter (fun x => if x = 1 then "a" else "b") ∧ i.Running := by
    unfold TickInput.FixedAdapter TickInput.Running
    decide
  obtain ⟨tr, s, hexec, hlabels, hnone⟩ := exists_run (Config.default .threshold) sampleEnv
    backInTime (fun e => decide (NoneDropped (Config.default .threshold) e.pre e.label))
    (l := [true, true, true, true]) (by decide +kernel)
  have hlabel : ∀ e ∈ tr, e.label ∈ backInTime := fun e he =>
    hlabels ▸ List.mem_map.mpr ⟨e, he, rfl⟩
  refine ⟨tr, s, hexec, hlabels, fun e he => ?_⟩
  refine (tick_keeps_offered_iff hexec (fun e he => (hvalid _ (hlabel e he)).1)
    (fun e he => (hvalid _ (hlabel e he)).2) e he).mpr (.inl ?_)
  have hmem : decide (NoneDropped (Config.default .threshold) e.pre e.label)
      ∈ [true, true, true, true] := hnone ▸ List.mem_map.mpr ⟨e, he, rfl⟩
  simpa using hmem

/-- Sequence 1 is preempted while its token waits, and comes back through a
prefill. -/
def preemptedAndBack : List (TickInput ℚ) :=
  [sampleTick 0 [sampleGroup 1 "a" false, sampleGroup 2 "b" false] nodup_oneTwo,
    sampleTick 1 [sampleGroup 2 "b" false] (by decide),
    sampleTick 2 [sampleGroup 1 "a" true, sampleGroup 2 "b" false] (by decide),
    sampleTick 3 [sampleGroup 1 "a" false, sampleGroup 2 "b" false] nodup_oneTwo]

/-- The second tick pops the token of sequence 1 without its group; in the last
tick sequence 1 neither runs nor waits. -/
theorem preemptedAndBack_loses :
    (∀ i ∈ preemptedAndBack, i.FixedAdapter (fun x => if x = 1 then "a" else "b") ∧ i.Running)
      ∧ ∃ tr s,
        Exec (Tick (Config.default .threshold) sampleEnv) (init (Config.default .threshold)) tr s
          ∧ tr.map Event.label = preemptedAndBack
          ∧ tr.map (fun e => decide (KeepsOffered e.label e.out e.post))
            = [true, true, true, false] := by
  refine ⟨?_, exists_run _ sampleEnv preemptedAndBack
    (fun e => decide (KeepsOffered e.label e.out e.post)) (by decide +kernel)⟩
  unfold TickInput.FixedAdapter TickInput.Running
  decide

end AlignmentAwareScheduler

end AdapterSlots
