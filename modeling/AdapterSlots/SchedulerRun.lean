import AdapterSlots.Lib.Exec
import AdapterSlots.SchedulerTick

/-!
# A tick only reorders and withholds

Runs of ticks from the initial state, over arbitrary selections. What the
queues hold is waiting (`Waiting`): each entry is in the queue of its
sequence's adapter and nowhere else, has an enqueue record, and its
sequence is not aligned yet. So no token is dispatched for a sequence that
already runs, and no sequence is dispatched twice in one tick.

`tick_reorders_and_withholds` is the statement about runs.
-/

namespace AdapterSlots

open Lib AlignmentBuffer

variable {K : Type} [Field K] [LinearOrder K]

/-- vLLM keeps the adapter of a sequence. -/
def TickInput.FixedAdapter (adapterOf : ℕ → String) (i : TickInput K) : Prop :=
  ∀ g ∈ i.sel.scheduled, g.adapterId = adapterOf g.seqGroupId

namespace AlignmentAwareScheduler

/-- One tick that returns. -/
def Tick (cfg : Config K) (env : Env K) (s : AlignmentAwareScheduler K) (i : TickInput K)
    (out : List SequenceGroup) (s' : AlignmentAwareScheduler K) : Prop :=
  s.schedule cfg env i = .ok (s', out)

/-- The history of a run of ticks. -/
abbrev TickHistory (K : Type) [Field K] [LinearOrder K] :=
  List (Event (AlignmentAwareScheduler K) (TickInput K) (List SequenceGroup))

omit [Field K] [LinearOrder K] in
theorem adapterId_of_decode {adapterOf : ℕ → String} {i : TickInput K}
    (hfix : i.FixedAdapter adapterOf) {g : SequenceGroup} (hg : g ∈ i.sel.decodeGroups) :
    g.adapterId = adapterOf g.seqGroupId :=
  hfix g (mem_decodeGroups.mp hg).1

/-- The tokens in the queues wait for their first dispatch. -/
structure Waiting (adapterOf : ℕ → String) (s : AlignmentAwareScheduler K) : Prop where
  own : ∀ k, ∀ x ∈ s.buffer.seqIds k, adapterOf x = k
  once : ∀ k, (s.buffer.seqIds k).Nodup
  recorded : ∀ k, ∀ x ∈ s.buffer.seqIds k, x ∈ s.buffer.seqEnqueue
  unaligned : ∀ k, ∀ x ∈ s.buffer.seqIds k, x ∉ s.postAlignmentSeqs

section Waiting

variable {adapterOf : ℕ → String} {cfg : Config K} {env : Env K}
  {s s' s₁ : AlignmentAwareScheduler K} {i : TickInput K} {call : DispatchCall K}
  {out : List SequenceGroup}

theorem waiting_init : Waiting adapterOf (init cfg) := by
  have hempty : ∀ k, (init cfg).buffer.seqIds k = [] := fun _ => rfl
  refine ⟨?_, ?_, ?_, ?_⟩ <;> intro k <;> rw [hempty k]
  · intro x hx
    cases hx
  · exact List.nodup_nil
  · intro x hx
    cases hx
  · intro x hx
    cases hx

theorem Waiting.countCall (h : Waiting adapterOf s) : Waiting adapterOf s.countCall :=
  ⟨h.own, h.once, h.recorded, h.unaligned⟩

/-- The cleanup releases aligned sequences only, so every queued one keeps its
record. -/
theorem Waiting.forget (h : Waiting adapterOf s) : Waiting adapterOf (atSplit cfg s i) := by
  unfold atSplit
  split
  · refine ⟨h.own, h.once, fun k x hx => ?_, fun k x hx => ?_⟩
    · refine Dict.mem_filterKeys.mpr ⟨h.recorded k x hx, ?_⟩
      rw [decide_eq_true_eq]
      exact fun hstale => h.unaligned k x hx (Finset.mem_sdiff.mp hstale).1
    · exact fun hpost => h.unaligned k x hx (Finset.mem_sdiff.mp hpost).1
  · exact h

theorem Prepared.seqIds (h : Prepared cfg s i s₁ call) (k : String) :
    s₁.buffer.seqIds k = (atSplit cfg s i).buffer.seqIds k
      ++ (newEntries (atSplit cfg s i).buffer i.clock.enqueue
        ((atSplit cfg s i).firstTimeGroups i) k).map Prod.fst := by
  rw [AlignmentBuffer.seqIds, h.buffer_eq, queue_enqueueGroups nodup_firstTimeGroups,
    List.map_append]
  rfl

/-- New entries are first-time groups without a record. -/
theorem Waiting.prepared (h : Waiting adapterOf s) (hfix : i.FixedAdapter adapterOf)
    (hprep : Prepared cfg s i s₁ call) : Waiting adapterOf s₁ := by
  have h₀ : Waiting adapterOf (atSplit cfg s i) := h.forget
  have hnew : ∀ k, ∀ x ∈ (newEntries (atSplit cfg s i).buffer
      i.clock.enqueue ((atSplit cfg s i).firstTimeGroups i) k).map Prod.fst,
      x ∉ (atSplit cfg s i).buffer.seqEnqueue ∧ adapterOf x = k
        ∧ x ∉ (atSplit cfg s i).postAlignmentSeqs
        ∧ x ∈ ((atSplit cfg s i).firstTimeGroups i).map
          SequenceGroup.seqGroupId := by
    intro k x hx
    obtain ⟨hrec, g, hg, hk, rfl⟩ := mem_newEntries.mp hx
    obtain ⟨hdec, hpost⟩ := mem_firstTimeGroups.mp hg
    refine ⟨hrec, ?_, hpost, List.mem_map.mpr ⟨g, hg, rfl⟩⟩
    rw [← adapterId_of_decode hfix hdec, hk]
  refine ⟨fun k x hx => ?_, fun k => ?_, fun k x hx => ?_, fun k x hx => ?_⟩
  · rw [hprep.seqIds] at hx
    rcases List.mem_append.mp hx with hold | hx
    · exact h₀.own k x hold
    · exact (hnew k x hx).2.1
  · rw [hprep.seqIds]
    refine List.nodup_append.mpr ⟨h₀.once k, nodup_newEntries nodup_firstTimeGroups, ?_⟩
    rintro x hold _ hx rfl
    exact (hnew k x hx).1 (h₀.recorded k x hold)
  · rw [hprep.buffer_eq, mem_seqEnqueue_enqueueGroups]
    rw [hprep.seqIds] at hx
    rcases List.mem_append.mp hx with hold | hx
    · exact .inl (h₀.recorded k x hold)
    · exact .inr (hnew k x hx).2.2.2
  · rw [hprep.post_eq]
    rw [hprep.seqIds] at hx
    rcases List.mem_append.mp hx with hold | hx
    · exact h₀.unaligned k x hold
    · exact (hnew k x hx).2.2.1

/-- A waiting token of another queue or position is not the one dispatched. -/
theorem Waiting.not_dispatched (h : Waiting adapterOf s) {k k' : String} {x : ℕ}
    (hx : x ∈ ((s.buffer.queue k).drop (taken (s.blocks i call) k)).map Prod.fst) :
    (k', x) ∉ s.dispatchedPairs i call := by
  intro hp
  have htaken := mem_dispatchedPairs.mp hp
  have hk : x ∈ s.buffer.seqIds k := List.map_subset _ (List.drop_subset ..) hx
  have hk' : x ∈ s.buffer.seqIds k' := List.map_subset _ (List.take_subset ..) htaken
  obtain rfl : k = k' := (h.own k x hk).symm.trans (h.own k' x hk')
  have hnd := h.once k
  rw [seqIds, ← List.take_append_drop (taken (s.blocks i call) k) (s.buffer.queue k),
    List.map_append] at hnd
  exact (List.nodup_append.mp hnd).2.2 x htaken x hx rfl

/-- A token still queued after the tick belongs to no group that left in it. -/
theorem Emitted.not_left (h : Waiting adapterOf s) (hfix : i.FixedAdapter adapterOf)
    (hemit : Emitted cfg s i call s' out) {k : String} {x : ℕ} (hx : x ∈ s'.buffer.seqIds k) :
    x ∈ s.buffer.seqIds k
      ∧ x ∉ (s.alignedGroups i call ++ s.drainedGroups cfg i call).map
          SequenceGroup.seqGroupId := by
  obtain ⟨e, he, rfl⟩ := List.mem_map.mp hx
  rw [hemit.queue, List.mem_filter, decide_eq_true_eq, queue_apply] at he
  obtain ⟨hdrop, hkeep⟩ := he
  have hold : e.1 ∈ s.buffer.seqIds k := List.mem_map.mpr ⟨e, List.mem_of_mem_drop hdrop, rfl⟩
  refine ⟨hold, fun hleft => ?_⟩
  obtain ⟨g, hg, hgx⟩ := List.mem_map.mp hleft
  rcases List.mem_append.mp hg with hal | hdr
  · obtain ⟨-, k', hp⟩ := mem_alignedGroups.mp hal
    rw [hgx] at hp
    exact h.not_dispatched (List.mem_map.mpr ⟨e, hdrop, rfl⟩) hp
  · obtain ⟨hdec, -⟩ := mem_firstTimeGroups.mp (mem_drainedGroups hdr)
    refine hkeep ⟨g, hdr, ?_, hgx⟩
    rw [adapterId_of_decode hfix hdec, hgx, h.own k _ hold]

theorem Emitted.waiting (h : Waiting adapterOf s) (hfix : i.FixedAdapter adapterOf)
    (hemit : Emitted cfg s i call s' out) : Waiting adapterOf s' := by
  have hsub : ∀ k, (s'.buffer.seqIds k).Sublist (s.buffer.seqIds k) := by
    intro k
    rw [seqIds, hemit.queue, queue_apply]
    exact (List.filter_sublist.trans (List.drop_sublist ..)).map _
  refine ⟨fun k x hx => h.own k x ((hsub k).subset hx), fun k => (h.once k).sublist (hsub k),
    fun k x hx => ?_, fun k x hx => ?_⟩
  · obtain ⟨hold, hleft⟩ := hemit.not_left h hfix hx
    refine hemit.recorded x (h.recorded k x hold) fun hout => ?_
    obtain ⟨g, hg, rfl⟩ := List.mem_map.mp hout
    rw [decodePart, List.append_assoc] at hg
    rcases List.mem_append.mp hg with hpost | hg
    · have hpost' := (sortByKey_perm _ _).mem_iff.mp hpost
      exact h.unaligned k _ hold (mem_postAlignmentGroups.mp hpost').2
    · exact hleft (List.mem_map.mpr ⟨g, hg, rfl⟩)
  · obtain ⟨hold, hleft⟩ := hemit.not_left h hfix hx
    intro hpost
    rcases ((hemit.post x).mp hpost).1 with hpost | hx'
    · exact h.unaligned k x hold hpost
    · exact hleft hx'

theorem Waiting.tick (h : Waiting adapterOf s) (hfix : i.FixedAdapter adapterOf)
    (htick : Tick cfg env s i out s') : Waiting adapterOf s' := by
  rcases schedule_cases htick with ⟨-, rfl, -⟩ | ⟨-, s₁, call, -, hprep, hemit⟩
  · exact h.countCall
  · exact hemit.waiting (h.prepared hfix hprep) hfix

end Waiting

/-! ## The emitted batch -/

section Batch

variable {adapterOf : ℕ → String} {cfg : Config K} {env : Env K}
  {s s' s₁ : AlignmentAwareScheduler K} {i : TickInput K} {call : DispatchCall K}
  {out : List SequenceGroup}

/-- What a tick does to vLLM's selection: prefills first, as they were; then the
groups aligned before, sorted by adapter in a stable way; what is missing
are decode groups not aligned before. -/
structure Reorders (cfg : Config K) (s : AlignmentAwareScheduler K) (i : TickInput K)
    (out : List SequenceGroup) : Prop where
  nodup : out.Nodup
  subset : ∀ g ∈ out, g ∈ i.sel.scheduled
  order : ∃ kept rest, out = i.sel.prefillGroups ++ kept ++ rest
    ∧ kept.Perm ((atSplit cfg s i).postAlignmentGroups i)
    ∧ kept.Pairwise (fun g h => g.adapterId ≤ h.adapterId)
    ∧ ∀ k, (kept.filter fun g => decide (g.adapterId = k))
        = ((atSplit cfg s i).postAlignmentGroups i).filter fun g => decide (g.adapterId = k)
  withheld : ∀ g ∈ i.sel.scheduled, g ∉ out →
    g.isDecode ∧ g.seqGroupId ∉ (atSplit cfg s i).postAlignmentSeqs

omit [Field K] [LinearOrder K] in
theorem nodup_scheduled (i : TickInput K) : i.sel.scheduled.Nodup := i.sel.nodup.of_map

/-- No pair is dispatched twice, and no sequence under two adapters. -/
theorem Waiting.nodup_dispatched (h : Waiting adapterOf s) :
    ((s.dispatchedPairs i call).map Prod.snd).Nodup := by
  have hown : ∀ p ∈ s.dispatchedPairs i call, p.1 = adapterOf p.2 := by
    rintro ⟨k, x⟩ hp
    have htaken := mem_dispatchedPairs.mp hp
    exact (h.own k x (List.map_subset _ (List.take_subset ..) htaken)).symm
  refine List.Nodup.map_on (fun p hp q hq heq => ?_) ?_
  · exact Prod.ext ((hown p hp).trans ((congrArg adapterOf heq).trans (hown q hq).symm)) heq
  · refine List.nodup_iff_count_le_one.mpr ?_
    rintro ⟨k, x⟩
    rw [dispatchedPairs, call.apply_eq_plan, count_batch]
    refine List.nodup_iff_count_le_one.mp ?_ x
    exact (h.once k).sublist ((List.take_sublist ..).map _)

theorem Waiting.nodup_alignedGroups (h : Waiting adapterOf s) :
    (s.alignedGroups i call).Nodup := by
  show (List.filterMap _ (s.dispatchedPairs i call)).Nodup
  rw [← Function.comp_def, ← List.filterMap_map]
  refine List.Nodup.filterMap (fun x x' g hx hx' => ?_) h.nodup_dispatched
  obtain ⟨-, rfl⟩ := (get?_seqIdToSg nodup_firstTimeGroups).mp hx
  exact ((get?_seqIdToSg nodup_firstTimeGroups).mp hx').2

theorem mem_decodePart_iff {g : SequenceGroup} : g ∈ s.decodePart cfg i call
    ↔ g ∈ s.postAlignmentGroups i ∨ g ∈ s.alignedGroups i call
      ∨ g ∈ s.drainedGroups cfg i call := by
  rw [decodePart, List.append_assoc, List.mem_append, List.mem_append]
  exact or_congr_left (sortByKey_perm _ _).mem_iff

theorem mem_decodePart {g : SequenceGroup} (h : g ∈ s.decodePart cfg i call) :
    g ∈ i.sel.decodeGroups := by
  rcases mem_decodePart_iff.mp h with hpost | hal | hdr
  · exact (mem_postAlignmentGroups.mp hpost).1
  · exact (mem_firstTimeGroups.mp (mem_alignedGroups.mp hal).1).1
  · exact (mem_firstTimeGroups.mp (mem_drainedGroups hdr)).1

/-- Either nothing is drained or nothing else is in the decode part. -/
theorem drainedGroups_cases (cfg : Config K) (s : AlignmentAwareScheduler K) (i : TickInput K)
    (call : DispatchCall K) : s.drainedGroups cfg i call = []
    ∨ (s.postAlignmentGroups i = [] ∧ s.alignedGroups i call = []
        ∧ s.drainedGroups cfg i call = s.firstTimeGroups i) := by
  unfold drainedGroups
  split
  · rename_i h
    exact .inr ⟨h.2.2.1, h.2.2.2, rfl⟩
  · exact .inl rfl

theorem Waiting.nodup_decodePart (h : Waiting adapterOf s) : (s.decodePart cfg i call).Nodup := by
  have hdec : i.sel.decodeGroups.Nodup := (nodup_scheduled i).sublist List.filter_sublist
  unfold decodePart
  rcases drainedGroups_cases cfg s i call with hnone | ⟨hpost, hal, hdr⟩
  · rw [hnone, List.append_nil]
    refine List.nodup_append.mpr ⟨?_, h.nodup_alignedGroups, ?_⟩
    · exact (sortByKey_perm _ _).nodup_iff.mpr (hdec.sublist List.filter_sublist)
    · rintro g hpost _ hal rfl
      have hin := (mem_postAlignmentGroups.mp ((sortByKey_perm _ _).mem_iff.mp hpost)).2
      exact (mem_firstTimeGroups.mp (mem_alignedGroups.mp hal).1).2 hin
  · rw [hpost, hal, hdr]
    exact hdec.sublist List.filter_sublist

theorem Emitted.reorders (h : Waiting adapterOf s₁) (hprep : Prepared cfg s i s₁ call)
    (hemit : Emitted cfg s₁ i call s' out) : Reorders cfg s i out := by
  obtain ⟨hfirst, hpost⟩ := hprep.split_eq
  rw [hemit.out_eq]
  refine ⟨?_, fun g hg => ?_, ?_, fun g hg hnot => ?_⟩
  · refine List.nodup_append.mpr
      ⟨(nodup_scheduled i).sublist List.filter_sublist, h.nodup_decodePart, ?_⟩
    rintro g hpre _ hdec rfl
    have hpre' := (mem_prefillGroups.mp hpre).2
    rw [(mem_decodeGroups.mp (mem_decodePart hdec)).2] at hpre'
    cases hpre'
  · rcases List.mem_append.mp hg with hpre | hdec
    · exact (mem_prefillGroups.mp hpre).1
    · exact (mem_decodeGroups.mp (mem_decodePart hdec)).1
  · refine ⟨sortByAdapter (s₁.postAlignmentGroups i),
      s₁.alignedGroups i call ++ s₁.drainedGroups cfg i call, ?_, ?_, ?_, ?_⟩
    · rw [decodePart, List.append_assoc, List.append_assoc]
    · rw [← hpost]
      exact sortByKey_perm _ _
    · exact pairwise_sortByKey _ _
    · rw [← hpost]
      exact filter_sortByKey _ _
  · rw [List.mem_append, not_or] at hnot
    have hdec : g.isDecode := by
      by_contra hpre
      exact hnot.1 (mem_prefillGroups.mpr ⟨hg, by simpa using hpre⟩)
    refine ⟨hdec, fun hin => hnot.2 (mem_decodePart_iff.mpr (.inl ?_))⟩
    rw [hpost]
    exact mem_postAlignmentGroups.mpr ⟨mem_decodeGroups.mpr ⟨hg, hdec⟩, hin⟩

/-- A tick without decode groups returns the selection as it is. -/
theorem reorders_of_nil (hnone : i.sel.decodeGroups = []) :
    Reorders cfg s i i.sel.scheduled := by
  have hpre : i.sel.prefillGroups = i.sel.scheduled := by
    refine List.filter_eq_self.mpr fun g hg => ?_
    have hnot := List.filter_eq_nil_iff.mp hnone g hg
    simpa using hnot
  have hkept : (atSplit cfg s i).postAlignmentGroups i = [] := by
    rw [postAlignmentGroups, hnone]
    rfl
  refine ⟨nodup_scheduled i, fun g hg => hg, ⟨[], [], ?_, ?_, List.Pairwise.nil, ?_⟩, ?_⟩
  · rw [hpre, List.append_nil, List.append_nil]
  · rw [hkept]
  · intro k
    rw [hkept]
  · intro g hg hnot
    exact absurd hg hnot

theorem Waiting.reorders (h : Waiting adapterOf s) (hfix : i.FixedAdapter adapterOf)
    (htick : Tick cfg env s i out s') : Reorders cfg s i out := by
  rcases schedule_cases htick with ⟨hnone, -, rfl⟩ | ⟨-, s₁, call, -, hprep, hemit⟩
  · exact reorders_of_nil hnone
  · exact hemit.reorders (h.prepared hfix hprep) hprep

end Batch

/-! ## Runs -/

/-- No sequence is queued and aligned at once, or queued twice. -/
structure Apart (s : AlignmentAwareScheduler K) : Prop where
  unaligned : ∀ k, ∀ x ∈ s.buffer.seqIds k, x ∉ s.postAlignmentSeqs
  once : ∀ k, (s.buffer.seqIds k).Nodup
  one_queue : ∀ k k' x, x ∈ s.buffer.seqIds k → x ∈ s.buffer.seqIds k' → k = k'

section Runs

variable {adapterOf : ℕ → String} {cfg : Config K} {env : Env K}
  {s : AlignmentAwareScheduler K} {tr : TickHistory K}

theorem Waiting.apart (h : Waiting adapterOf s) : Apart s :=
  ⟨h.unaligned, h.once, fun k k' x hx hx' => (h.own k x hx).symm.trans (h.own k' x hx')⟩

theorem waiting_of_run (h : Exec (Tick cfg env) (init cfg) tr s)
    (hfix : ∀ e ∈ tr, e.label.FixedAdapter adapterOf) :
    Waiting adapterOf s ∧ ∀ e ∈ tr, Waiting adapterOf e.pre ∧ Waiting adapterOf e.post :=
  h.invariant (Waiting adapterOf) (fun _ i => i.FixedAdapter adapterOf)
    (fun _ _ _ _ hs hi htick => hs.tick hi htick) waiting_init hfix

/-- **A tick only reorders and withholds.** In every run each tick emits part of
vLLM's selection in the promised order, and at every point no sequence is
queued and aligned at once, or queued twice. -/
theorem tick_reorders_and_withholds (h : Exec (Tick cfg env) (init cfg) tr s)
    (hfix : ∀ e ∈ tr, e.label.FixedAdapter adapterOf) :
    (∀ e ∈ tr, Reorders cfg e.pre e.label e.out)
      ∧ Apart s ∧ ∀ e ∈ tr, Apart e.pre ∧ Apart e.post := by
  obtain ⟨hs, hall⟩ := waiting_of_run h hfix
  refine ⟨fun e he => ?_, hs.apart, fun e he => ?_⟩
  · exact (hall e he).1.reorders (hfix e he) (h.step_of_mem e he)
  · exact ⟨(hall e he).1.apart, (hall e he).2.apart⟩

end Runs

/-- A run whose ticks all return, with what is computed of each. -/
theorem exists_run {β : Type} (cfg : Config K) (env : Env K) (is : List (TickInput K))
    (f : Event (AlignmentAwareScheduler K) (TickInput K) (List SequenceGroup) → β) {l : List β}
    (h : (tryHistory (fun s i => s.schedule cfg env i) (init cfg) is).toOption.map
      (fun r => r.1.map f) = some l) :
    ∃ tr s, Exec (Tick cfg env) (init cfg) tr s ∧ tr.map Event.label = is ∧ tr.map f = l := by
  cases hrun : tryHistory (fun s i => schedule cfg env s i) (init cfg) is with
  | error e =>
      rw [hrun] at h
      cases h
  | ok r =>
      rw [hrun] at h
      obtain ⟨hexec, hlabels⟩ := exec_of_tryHistory hrun
      exact ⟨r.1, r.2, hexec, hlabels, Option.some.inj h⟩

/-- Such a run, with the next tick up to the dispatch, when both pass the test. -/
theorem exists_prepared (cfg : Config K) (env : Env K) (is : List (TickInput K)) (i : TickInput K)
    (f : TickHistory K → AlignmentAwareScheduler K → AlignmentAwareScheduler K × DispatchCall K →
      Bool)
    (h : (tryHistory (fun s i => s.schedule cfg env i) (init cfg) is).toOption.any
      (fun r => (r.2.countCall.prepareTick cfg env i).toOption.any (f r.1 r.2))) :
    ∃ tr s s₁ call, Exec (Tick cfg env) (init cfg) tr s
      ∧ s.countCall.prepareTick cfg env i = .ok (s₁, call) ∧ f tr s (s₁, call) = true := by
  cases hrun : tryHistory (fun s i => schedule cfg env s i) (init cfg) is with
  | error e =>
      rw [hrun] at h
      cases h
  | ok r =>
      rw [hrun] at h
      change Option.any _ (r.2.countCall.prepareTick cfg env i).toOption = true at h
      cases hprep : r.2.countCall.prepareTick cfg env i with
      | error e =>
          rw [hprep] at h
          cases h
      | ok c =>
          rw [hprep] at h
          exact ⟨r.1, r.2, c.1, c.2, (exec_of_tryHistory hrun).1, hprep, h⟩

/-- A tick of such a run for which the test `f` succeeds, with the run up to it. -/
theorem exists_reached (cfg : Config K) (env : Env K) (is : List (TickInput K))
    (f : Event (AlignmentAwareScheduler K) (TickInput K) (List SequenceGroup) → Bool)
    {l : List Bool}
    (h : (tryHistory (fun s i => s.schedule cfg env i) (init cfg) is).toOption.map
      (fun r => r.1.map f) = some l) (hl : true ∈ l) :
    ∃ e tr, Exec (Tick cfg env) (init cfg) tr e.pre ∧ e.label ∈ is ∧ (∀ e' ∈ tr, e'.label ∈ is)
      ∧ f e = true := by
  obtain ⟨tr, s, hexec, rfl, rfl⟩ := exists_run cfg env is f h
  obtain ⟨e, he, hf⟩ := List.mem_map.mp hl
  obtain ⟨tr₁, tr₂, heq⟩ := List.append_of_mem he
  refine ⟨e, tr₁, hexec.before_event heq, List.mem_map.mpr ⟨e, he, rfl⟩, fun e' he' => ?_, hf⟩
  exact List.mem_map.mpr ⟨e', heq ▸ List.mem_append_left _ he', rfl⟩

/-! ### A run of three ticks -/

/-- A threshold tick calls none of these. -/
def sampleEnv : Env ℚ where
  gammainc _ _ := 0
  gammaincinv _ _ := 0
  exp _ := 0
  hash _ := 0
  setOrder l := l
  setOrder_perm _ _ := List.Perm.refl _

/-- A group of one sequence; a decode group has two tokens after one of prompt. -/
def sampleGroup (x : ℕ) (adapter : String) (isPrefill : Bool) : SequenceGroup :=
  ⟨x, [⟨x, true, 2, 1⟩], isPrefill, some ⟨adapter, 1, "lora"⟩⟩

/-- A tick at time `t` whose scheduled groups are all that run. -/
def sampleTick (t : ℚ) (groups : List SequenceGroup)
    (h : (groups.map SequenceGroup.seqGroupId).Nodup) : TickInput ℚ where
  sel := ⟨groups, groups, h⟩
  clock := ⟨t, fun _ => t, fun _ => t, t, t, t⟩
  isMerged := none

theorem nodup_oneTwo :
    ([sampleGroup 1 "a" false, sampleGroup 2 "b" false].map SequenceGroup.seqGroupId).Nodup := by
  decide

/-- Two sequences are held, dispatched after their deadline and then run. -/
def heldThenRun : List (TickInput ℚ) :=
  [sampleTick 0 [sampleGroup 9 "b" true, sampleGroup 1 "b" false, sampleGroup 2 "a" false]
      (by decide),
    sampleTick 1 [sampleGroup 1 "b" false, sampleGroup 2 "a" false] (by decide),
    sampleTick 2 [sampleGroup 1 "b" false, sampleGroup 2 "a" false] (by decide)]

theorem heldThenRun_fixed :
    ∀ i ∈ heldThenRun, i.FixedAdapter fun x => if x = 2 then "a" else "b" := by
  unfold TickInput.FixedAdapter
  decide

theorem heldThenRun_reorders :
    ∃ tr s,
      Exec (Tick (Config.default .threshold) sampleEnv) (init (Config.default .threshold)) tr s
      ∧ tr.map (fun e => e.out.map SequenceGroup.seqGroupId) = [[9], [1, 2], [2, 1]]
      ∧ (∀ e ∈ tr, Reorders (Config.default .threshold) e.pre e.label e.out) ∧ Apart s := by
  obtain ⟨tr, s, hexec, hlabels, hout⟩ := exists_run (Config.default .threshold) sampleEnv
    heldThenRun (fun e => e.out.map SequenceGroup.seqGroupId) (l := [[9], [1, 2], [2, 1]])
    (by decide +kernel)
  have h := tick_reorders_and_withholds hexec fun e he =>
    heldThenRun_fixed e.label (hlabels ▸ List.mem_map.mpr ⟨e, he, rfl⟩)
  exact ⟨tr, s, hexec, hout, h.1, h.2.1⟩

end AlignmentAwareScheduler

end AdapterSlots
