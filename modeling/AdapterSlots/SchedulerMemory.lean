import AdapterSlots.SchedulerDrain
import AdapterSlots.SchedulerHolding

/-!
# What the scheduler remembers

Two sets grow with the sequences a scheduler has seen: the aligned set and
the enqueue records of the buffer. Records are released by the tail of a
wgkp tick, and by the batch log when it writes the metrics file
(`Config.Releases`). Then a record is that of a queued token after every
tick, and a wgkp scheduler has aligned running sequences only
(`records_are_queued`).

Without either nothing is ever released. The records are those of all
sequences that were ever offered, and a threshold, erlang or cash scheduler
keeps every sequence that ever decoded aligned (`nothing_forgotten`).
-/

namespace AdapterSlots

open Lib AlignmentBuffer

variable {K : Type} [Field K] [LinearOrder K]

omit [Field K] [LinearOrder K] in
/-- The batch log writes the metrics file. -/
def Config.WritesMetrics (cfg : Config K) : Prop := cfg.logWar = true ∧ cfg.metricsFile = true

omit [Field K] [LinearOrder K] in
/-- The ticks release the records of what leaves the buffer. -/
def Config.Releases (cfg : Config K) : Prop := cfg.mode = .wgkp ∨ cfg.WritesMetrics

namespace AlignmentAwareScheduler

section Tick

variable {adapterOf : ℕ → String} {cfg : Config K} {env : Env K}
  {s s' s₁ : AlignmentAwareScheduler K} {i : TickInput K} {call : DispatchCall K}
  {out : List SequenceGroup} {x : ℕ}

/-! ## The batch log -/

theorem logWarStats_metrics {batch : List SequenceGroup} (hon : cfg.WritesMetrics)
    (h : s.logWarStats cfg env batch = .ok s') : s' = s.releaseGroups batch := by
  rw [logWarStats, if_pos hon.1, if_pos hon.2] at h
  obtain ⟨-, -, h⟩ := bind_eq_ok h
  exact (Except.ok.inj h).symm

theorem logWarStats_quiet {batch : List SequenceGroup} (hoff : ¬ cfg.WritesMetrics)
    (h : s.logWarStats cfg env batch = .ok s') : s' = s := by
  unfold logWarStats at h
  split at h
  · rename_i hlog
    obtain ⟨-, -, h⟩ := bind_eq_ok h
    rw [if_neg fun hfile => hoff ⟨hlog, hfile⟩] at h
    exact (Except.ok.inj h).symm
  · exact (Except.ok.inj h).symm

/-- `s'` is left by the batch log of a batch with the groups dispatched now, and up to
it all records were kept. -/
def Logged (cfg : Config K) (env : Env K) (s : AlignmentAwareScheduler K) (i : TickInput K)
    (call : DispatchCall K) (s' : AlignmentAwareScheduler K) : Prop :=
  ∃ (s₂ : AlignmentAwareScheduler K) (batch : List SequenceGroup),
    s₂.logWarStats cfg env batch = .ok s'
      ∧ (∀ x, x ∈ s₂.buffer.seqEnqueue ↔ x ∈ s.buffer.seqEnqueue)
      ∧ ∀ g ∈ s.alignedGroups i call, g ∈ batch

theorem logged_of_emitTick (hmode : cfg.mode ≠ .wgkp)
    (h : s.emitTick cfg env i call = .ok (s', out)) : Logged cfg env s i call s' := by
  have hrec : (s.dispatch i call).1.buffer.seqEnqueue = s.buffer.seqEnqueue :=
    seqEnqueue_apply call s.buffer _ _
  have hbatch : ∀ g ∈ s.alignedGroups i call,
      g ∈ sortByAdapter (s.postAlignmentGroups i) ++ s.alignedGroups i call :=
    fun g hg => List.mem_append_right _ hg
  have hplain : s.emitBatch cfg env i call = .ok (s', out) → Logged cfg env s i call s' := by
    intro h
    obtain ⟨s₂, hlog, h⟩ := bind_eq_ok h
    obtain ⟨rfl, -⟩ := Prod.mk.inj (Except.ok.inj h)
    exact ⟨_, _, hlog, fun x => by rw [hrec], hbatch⟩
  cases hm : cfg.mode with
  | wgkp => exact absurd hm hmode
  | threshold =>
      simp only [emitTick, hm] at h
      exact hplain h
  | erlang =>
      simp only [emitTick, hm] at h
      exact hplain h
  | cash =>
      simp only [emitTick, hm] at h
      exact hplain h
  | piAdaptive =>
      simp only [emitTick, hm] at h
      obtain ⟨s₂, htmax, h⟩ := bind_eq_ok h
      obtain ⟨s₃, hlog, h⟩ := bind_eq_ok h
      obtain ⟨rfl, -⟩ := Prod.mk.inj (Except.ok.inj h)
      obtain ⟨hframe, -⟩ := spec_updateTmax htmax
      refine ⟨_, _, hlog, fun x => ?_, hbatch⟩
      rw [dropFinished_buffer, ← hrec]
      exact ⟨hframe.recorded_of x, fun hx => hframe.recorded x hx List.not_mem_nil⟩

/-- A tick that releases keeps no record of a group that leaves the buffer. -/
theorem unrecorded_of_releases (hrel : cfg.Releases)
    (h : s.emitTick cfg env i call = .ok (s', out))
    (hx : x ∈ (s.alignedGroups i call ++ s.drainedGroups cfg i call).map
      SequenceGroup.seqGroupId) : x ∉ s'.buffer.seqEnqueue := by
  by_cases hmode : cfg.mode = .wgkp
  · exact unrecorded_of_emitTick hmode h hx
  · obtain ⟨s₂, batch, hlog, -, hbatch⟩ := logged_of_emitTick hmode h
    obtain rfl := logWarStats_metrics (hrel.resolve_left hmode) hlog
    rw [drainedGroups_of_ne hmode, List.append_nil] at hx
    obtain ⟨g, hg, rfl⟩ := List.mem_map.mp hx
    intro hrec
    exact ((seqEnqueue_releaseGroups s₂.buffer batch _).mp hrec).2
      (List.mem_map.mpr ⟨g, hbatch g hg, rfl⟩)

/-- A tick that does not release keeps all records. -/
theorem recorded_of_emitTick (hrel : ¬ cfg.Releases)
    (h : s.emitTick cfg env i call = .ok (s', out)) :
    x ∈ s'.buffer.seqEnqueue ↔ x ∈ s.buffer.seqEnqueue := by
  obtain ⟨s₂, batch, hlog, hrec, -⟩ := logged_of_emitTick (fun hmode => hrel (.inl hmode)) h
  obtain rfl := logWarStats_quiet (fun hon => hrel (.inr hon)) hlog
  exact hrec x

/-! ## Ticks that release -/

/-- Every enqueue record is that of a queued token. -/
def OnlyQueued (s : AlignmentAwareScheduler K) : Prop :=
  ∀ x ∈ s.buffer.seqEnqueue, ∃ k, x ∈ s.buffer.seqIds k

/-- At the dispatch the new records are queued as well. -/
theorem OnlyQueued.prepared (h : OnlyQueued s) (hprep : Prepared cfg s i s₁ call) :
    OnlyQueued s₁ := by
  have hold : ∀ x ∈ (atSplit cfg s i).buffer.seqEnqueue, ∃ k, x ∈ s₁.buffer.seqIds k := by
    intro x hx
    obtain ⟨k, hk⟩ := h x (mem_atSplit hx).1
    refine ⟨k, ?_⟩
    rw [seqIds, hprep.queue_eq, List.map_append]
    exact List.mem_append_left _ hk
  intro x hx
  rw [hprep.buffer_eq, mem_seqEnqueue_enqueueGroups] at hx
  rcases hx with hrec | hnew
  · exact hold x hrec
  · obtain ⟨g, hg, rfl⟩ := List.mem_map.mp hnew
    by_cases hdrop : (atSplit cfg s i).Dropped g
    · exact hold _ hdrop.2.1
    · exact ⟨_, (hprep.queued_iff (hprep.split_eq.1 ▸ hg)).mpr hdrop⟩

theorem OnlyQueued.tick (h : OnlyQueued s) (hrel : cfg.Releases) (hw : Waiting adapterOf s)
    (hfix : i.FixedAdapter adapterOf) (hatt : Attended s i) (htick : Tick cfg env s i out s') :
    OnlyQueued s' := by
  rcases tick_cases htick with ⟨-, rfl, -⟩ | ⟨hsome, s₁, call, -, hprep, htail⟩
  · exact h
  · have hemit := emitted_of_emitTick htail
    have hw₁ := hw.prepared hfix hprep
    have hoff := (hprep.budget hw₁ (hatt.resolve_left hsome)).1
    intro x hx
    obtain ⟨k, hk⟩ := h.prepared hprep x (hemit.recorded_of x hx)
    obtain ⟨e, he, rfl⟩ := List.mem_map.mp hk
    have hnot : ¬ Decodes out e.1 := by
      intro hd
      rcases hemit.mem_of_decodes hd with hpost | hleft
      · exact hw₁.unaligned k _ hk hpost
      · exact unrecorded_of_releases hrel htail hleft hx
    exact ⟨k, List.mem_map.mpr ⟨e, (hemit.stays_of_not_decodes hw₁ he
      (hoff _ (mem_queuedIds.mpr ⟨k, hk⟩)) hnot).2, rfl⟩⟩

/-- The aligned sequences after a decode tick are running. -/
theorem active_of_tick (hmode : cfg.mode = .wgkp) (hrun : i.Running)
    (hsome : i.sel.decodeGroups ≠ []) (htick : Tick cfg env s i out s') :
    s'.postAlignmentSeqs ⊆ i.sel.activeIds := by
  obtain ⟨-, s₁, call, -, hprep, htail⟩ := (tick_cases htick).resolve_left fun h => hsome h.1
  have hemit := emitted_of_emitTick htail
  intro x hx
  rcases ((hemit.post x).mp hx).1 with hold | hleft
  · rw [hprep.post_eq, atSplit, if_pos hmode] at hold
    obtain ⟨hpost, hstale⟩ := Finset.mem_sdiff.mp hold
    by_contra hnot
    exact hstale (Finset.mem_sdiff.mpr ⟨hpost, hnot⟩)
  · obtain ⟨g, hg, rfl⟩ := List.mem_map.mp hleft
    have hpart : g ∈ s₁.decodePart cfg i call :=
      mem_decodePart_iff.mpr (.inr (List.mem_append.mp hg))
    exact mem_activeIds hrun (mem_decodePart hpart)

end Tick

/-! ## Runs -/

section Runs

variable {adapterOf : ℕ → String} {cfg : Config K} {env : Env K}
  {s s' : AlignmentAwareScheduler K} {i : TickInput K} {out : List SequenceGroup}
  {tr : TickHistory K}

/-- The sequences a tick offers for decode. -/
def offeredIds (i : TickInput K) : List ℕ := i.sel.decodeGroups.map SequenceGroup.seqGroupId

/-- What is queued after an attended decode tick was offered in it. -/
theorem offered_of_queued (hw : Waiting adapterOf s) (hfix : i.FixedAdapter adapterOf)
    (hatt : Attended s i) (hsome : i.sel.decodeGroups ≠ []) (htick : Tick cfg env s i out s')
    {k : String} {x : ℕ} (hx : x ∈ s'.buffer.seqIds k) : x ∈ offeredIds i := by
  obtain ⟨-, s₁, call, -, hprep, htail⟩ := (tick_cases htick).resolve_left fun h => hsome h.1
  have hoff := (hprep.budget (hw.prepared hfix hprep) (hatt.resolve_left hsome)).1
  obtain ⟨e, he, rfl⟩ := List.mem_map.mp hx
  rw [(emitted_of_emitTick htail).queue, queue_apply] at he
  exact hoff _ (mem_queuedIds.mpr ⟨k, List.mem_map.mpr
    ⟨e, List.mem_of_mem_drop (List.mem_of_mem_filter he), rfl⟩⟩)

/-- What a scheduler that releases remembers after a tick. -/
structure RemembersWaiting (cfg : Config K)
    (e : Event (AlignmentAwareScheduler K) (TickInput K) (List SequenceGroup)) : Prop where
  recorded : ∀ x, x ∈ e.post.buffer.seqEnqueue ↔ ∃ k, x ∈ e.post.buffer.seqIds k
  offered : e.label.sel.decodeGroups ≠ [] → ∀ x ∈ e.post.buffer.seqEnqueue, x ∈ offeredIds e.label
  active : cfg.mode = .wgkp → e.label.Running → e.label.sel.decodeGroups ≠ [] →
    e.post.postAlignmentSeqs ⊆ e.label.sel.activeIds

/-- **A scheduler that releases remembers what waits.** After every tick of a run that
offers what waits, the enqueue records are those of the queued tokens, after a
decode tick all of sequences it offered; and the sequences a wgkp decode tick
leaves aligned are running. -/
theorem remembers_waiting (hrel : cfg.Releases) (h : Exec (Tick cfg env) (init cfg) tr s)
    (hfix : ∀ e ∈ tr, e.label.FixedAdapter adapterOf)
    (hatt : ∀ e ∈ tr, Attended e.pre e.label) : ∀ e ∈ tr, RemembersWaiting cfg e := by
  have hinit : OnlyQueued (init cfg) := fun x hx => nomatch hx
  have hinv := (h.invariant (fun s => Waiting adapterOf s ∧ OnlyQueued s)
    (fun s i => i.FixedAdapter adapterOf ∧ Attended s i)
    (fun s i out s' hs hi htick => ⟨hs.1.tick hi.1 htick, hs.2.tick hrel hs.1 hi.1 hi.2 htick⟩)
    ⟨waiting_init, hinit⟩ fun e he => ⟨hfix e he, hatt e he⟩).2
  intro e he
  obtain ⟨⟨hpre, -⟩, hpost, honly⟩ := hinv e he
  have htick := h.step_of_mem e he
  refine ⟨fun x => ⟨honly x, fun ⟨k, hk⟩ => hpost.recorded k x hk⟩, fun hsome x hx => ?_,
    fun hmode hrun hsome => active_of_tick hmode hrun hsome htick⟩
  obtain ⟨k, hk⟩ := honly x hx
  exact offered_of_queued hpre (hfix e he) (hatt e he) hsome htick hk

/-- Two sequences in a wgkp scheduler. -/
theorem offerBoth_remembers_waiting :
    ∃ tr s, Exec (Tick (Config.default .wgkp) sampleEnv) (init (Config.default .wgkp)) tr s
      ∧ tr.map (fun e => e.out.map SequenceGroup.seqGroupId) = [[1, 2], [1, 2]]
      ∧ ∀ e ∈ tr, RemembersWaiting (Config.default .wgkp) e := by
  have hfix : ∀ i ∈ [offerBoth 0, offerBoth 1],
      i.FixedAdapter fun x => if x = 1 then "a" else "b" := by
    unfold TickInput.FixedAdapter
    decide
  obtain ⟨tr, s, hexec, hlabels, hf⟩ := exists_run (Config.default .wgkp) sampleEnv
    [offerBoth 0, offerBoth 1]
    (fun e => (decide (Attended e.pre e.label), e.out.map SequenceGroup.seqGroupId))
    (l := [(true, [1, 2]), (true, [1, 2])]) (by decide +kernel)
  have hboth := fun e (he : e ∈ tr) => hf ▸ List.mem_map.mpr ⟨e, he, rfl⟩
  refine ⟨tr, s, hexec, ?_, remembers_waiting (.inl rfl) hexec
    (fun e he => hfix _ (hlabels ▸ List.mem_map.mpr ⟨e, he, rfl⟩)) fun e he => ?_⟩
  · have hsnd := congrArg (List.map Prod.snd) hf
    rw [List.map_map] at hsnd
    exact hsnd
  · have hatt := hboth e he
    simp at hatt
    exact hatt.1

/-- The records and the aligned set of a scheduler that releases nothing. -/
structure RemembersAll (cfg : Config K) (tr : TickHistory K) (s : AlignmentAwareScheduler K) :
    Prop where
  recorded : ∀ x, x ∈ s.buffer.seqEnqueue ↔ ∃ e ∈ tr, x ∈ offeredIds e.label
  aligned : ∀ x ∈ s.postAlignmentSeqs, x ∈ s.buffer.seqEnqueue
  decoded : cfg.mode ≠ .piAdaptive → ∀ x, x ∈ s.postAlignmentSeqs ↔ ∃ e ∈ tr, Decodes e.out x

/-- At the dispatch all sequences of the tick have a record. -/
theorem Prepared.recorded_iff {s₁ : AlignmentAwareScheduler K} {call : DispatchCall K}
    (hmode : cfg.mode ≠ .wgkp) (h : Prepared cfg s i s₁ call)
    (hal : ∀ x ∈ s.postAlignmentSeqs, x ∈ s.buffer.seqEnqueue) (x : ℕ) :
    x ∈ s₁.buffer.seqEnqueue ↔ x ∈ s.buffer.seqEnqueue ∨ x ∈ offeredIds i := by
  have hsplit : atSplit cfg s i = s := if_neg hmode
  rw [h.buffer_eq, hsplit, mem_seqEnqueue_enqueueGroups]
  constructor
  · refine Or.imp_right fun hnew => ?_
    obtain ⟨g, hg, rfl⟩ := List.mem_map.mp hnew
    exact List.mem_map.mpr ⟨g, (mem_firstTimeGroups.mp hg).1, rfl⟩
  · rintro (hold | hoff)
    · exact .inl hold
    · obtain ⟨g, hg, rfl⟩ := List.mem_map.mp hoff
      rcases mem_split (s := s) hg with hpost | hfirst
      · exact .inl (hal _ (mem_postAlignmentGroups.mp hpost).2)
      · exact .inr (List.mem_map.mpr ⟨g, hfirst, rfl⟩)

omit [Field K] [LinearOrder K] in
/-- A selection without decode groups decodes nothing. -/
theorem not_decodes_of_nil (hnone : i.sel.decodeGroups = []) {x : ℕ} :
    ¬ Decodes i.sel.scheduled x := by
  rintro ⟨g, hg, hdec, -⟩
  have hmem : g ∈ i.sel.decodeGroups := mem_decodeGroups.mpr ⟨hg, hdec⟩
  rw [hnone] at hmem
  cases hmem

/-- What decodes in a decode tick was aligned before, or leaves the buffer now. -/
theorem Emitted.decodes_iff {s₁ : AlignmentAwareScheduler K} {call : DispatchCall K}
    (hemit : Emitted cfg s₁ i call s' out) (hpi : cfg.mode ≠ .piAdaptive) (x : ℕ) :
    x ∈ s'.postAlignmentSeqs ↔ x ∈ s₁.postAlignmentSeqs ∨ Decodes out x := by
  rw [hemit.post]
  constructor
  · rintro ⟨hold | hleft, -⟩
    · exact .inl hold
    · obtain ⟨g, hg, rfl⟩ := List.mem_map.mp hleft
      exact .inr (hemit.decodes (mem_decodePart_iff.mpr (.inr (List.mem_append.mp hg))))
  · rintro (hold | hd)
    · exact ⟨.inl hold, fun h => absurd h hpi⟩
    · exact ⟨hemit.mem_of_decodes hd, fun h => absurd h hpi⟩

theorem RemembersAll.tick (hr : RemembersAll cfg tr s) (hrel : ¬ cfg.Releases)
    (htick : Tick cfg env s i out s') : RemembersAll cfg (tr ++ [⟨s, i, out, s'⟩]) s' := by
  have hmode : cfg.mode ≠ .wgkp := fun h => hrel (.inl h)
  rcases tick_cases htick with ⟨hnone, rfl, rfl⟩ | ⟨hsome, s₁, call, -, hprep, htail⟩
  · refine ⟨fun x => ?_, hr.aligned, fun hpi x => ?_⟩
    · have hoff : offeredIds i = [] := by rw [offeredIds, hnone, List.map_nil]
      simp [hoff, ← hr.recorded x, countCall]
    · have hnot := not_decodes_of_nil hnone (x := x)
      simp [hnot, ← hr.decoded hpi x, countCall]
  · have hemit := emitted_of_emitTick htail
    have hrec : ∀ x, x ∈ s'.buffer.seqEnqueue ↔ x ∈ s.buffer.seqEnqueue ∨ x ∈ offeredIds i :=
      fun x => (recorded_of_emitTick hrel htail).trans (hprep.recorded_iff hmode hr.aligned x)
    have hpost : s₁.postAlignmentSeqs = s.postAlignmentSeqs := by
      rw [hprep.post_eq, show atSplit cfg s i = s from if_neg hmode]
    refine ⟨fun x => ?_, fun x hx => ?_, fun hpi x => ?_⟩
    · rw [hrec, hr.recorded]
      simp [or_and_right, exists_or]
    · rcases ((hemit.post x).mp hx).1 with hold | hleft
      · exact (hrec x).mpr (.inl (hr.aligned x (hpost ▸ hold)))
      · obtain ⟨g, hg, rfl⟩ := List.mem_map.mp hleft
        have hpart : g ∈ s₁.decodePart cfg i call :=
          mem_decodePart_iff.mpr (.inr (List.mem_append.mp hg))
        exact (hrec _).mpr (.inr (List.mem_map.mpr ⟨g, mem_decodePart hpart, rfl⟩))
    · rw [hemit.decodes_iff hpi, hpost, hr.decoded hpi]
      simp [or_and_right, exists_or]

/-- **Otherwise nothing is forgotten.** Without a release the records are those of all
sequences that were ever offered, and outside the PI mode the aligned
sequences are all that ever decoded. -/
theorem remembers_all (hrel : ¬ cfg.Releases) (h : Exec (Tick cfg env) (init cfg) tr s) :
    RemembersAll cfg tr s := by
  induction h with
  | nil =>
      have hpost : (init cfg).postAlignmentSeqs = ∅ := rfl
      have hrec : (init cfg).buffer.seqEnqueue = Dict.empty := rfl
      refine ⟨fun x => ?_, fun x hx => ?_, fun _ x => ?_⟩
      · rw [hrec]
        exact iff_of_false (fun h => nomatch h) fun ⟨_, he, _⟩ => nomatch he
      · simp [hpost] at hx
      · simp [hpost]
  | snoc _ htick ih => exact ih.tick hrel htick

/-- After `heldThenRun` the threshold scheduler remembers both decoded sequences. -/
theorem heldThenRun_remembers_all :
    ∃ tr s, Exec (Tick (Config.default .threshold) sampleEnv)
        (init (Config.default .threshold)) tr s
      ∧ tr.map Event.label = heldThenRun ∧ RemembersAll (Config.default .threshold) tr s := by
  obtain ⟨tr, s, hexec, hlabels, -⟩ := exists_run (Config.default .threshold) sampleEnv heldThenRun
    (fun e => e.out.map SequenceGroup.seqGroupId) (l := [[9], [1, 2], [2, 1]]) (by decide +kernel)
  refine ⟨tr, s, hexec, hlabels, remembers_all ?_ hexec⟩
  rintro (hmode | ⟨hlog, -⟩)
  · cases hmode
  · cases hlog

end Runs

end AlignmentAwareScheduler

end AdapterSlots
