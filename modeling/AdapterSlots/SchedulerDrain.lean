import AdapterSlots.SchedulerLoss
import AdapterSlots.SchedulerReturn

/-!
# The early release of a wgkp tick

Before the aligned set is filled every sequence is a first-time one, and the
holdback rules alone would emit empty steps. A wgkp tick then releases the
groups it offers early (`_drain_buffer_remaining`), and edits the deques of
the buffer itself.

`wgkp_never_empties` is the statement about runs. A step with a group stays
one with a group, whatever the queues hold, also when the dispatch pops
tokens of groups only that this tick does not offer. The early release
takes place in an otherwise empty step only. It takes every offered
first-time group, and leaves no trace of them in the buffer. After every
run the next tick returns, under the conditions of `exists_tick`.
-/

namespace AdapterSlots

open Lib AlignmentBuffer

variable {K : Type} [Field K] [LinearOrder K]

namespace AlignmentAwareScheduler

/-- A first-time group that no rule of the dispatch lets go. -/
def Held (s : AlignmentAwareScheduler K) (i : TickInput K) (call : DispatchCall K)
    (g : SequenceGroup) : Prop :=
  g ∈ s.firstTimeGroups i ∧ ∀ k, (k, g.seqGroupId) ∉ s.dispatchedPairs i call

/-- The group runs, and the buffer has forgotten it. -/
structure Released (s' : AlignmentAwareScheduler K) (out : List SequenceGroup)
    (g : SequenceGroup) : Prop where
  emitted : g ∈ out
  unqueued : ∀ k, g.seqGroupId ∉ s'.buffer.seqIds k
  unrecorded : g.seqGroupId ∉ s'.buffer.seqEnqueue
  aligned : g.seqGroupId ∈ s'.postAlignmentSeqs

/-- Nothing else would run: the step has no prefill, no group aligned before and no
dispatched one. `s₁` and `call` are the state and the call at the dispatch. -/
structure NothingElse (cfg : Config K) (s : AlignmentAwareScheduler K) (i : TickInput K)
    (s₁ : AlignmentAwareScheduler K) (call : DispatchCall K) : Prop where
  noPrefill : i.sel.prefillGroups = []
  noAligned : (atSplit cfg s i).postAlignmentGroups i = []
  noDispatched : s₁.alignedGroups i call = []

section Tick

variable {adapterOf : ℕ → String} {cfg : Config K} {env : Env K}
  {s s' s₁ : AlignmentAwareScheduler K} {i : TickInput K} {call : DispatchCall K}
  {out : List SequenceGroup} {g : SequenceGroup}

theorem mem_drainedGroups_iff : g ∈ s.drainedGroups cfg i call
    ↔ (cfg.mode = .wgkp ∧ i.sel.prefillGroups = [] ∧ s.postAlignmentGroups i = []
      ∧ s.alignedGroups i call = []) ∧ g ∈ s.firstTimeGroups i := by
  unfold drainedGroups
  split
  · rename_i h
    exact (and_iff_right h).symm
  · rename_i h
    exact iff_of_false List.not_mem_nil fun h' => h h'.1

/-- A decode group is split one way or the other. -/
theorem mem_split (hg : g ∈ i.sel.decodeGroups) :
    g ∈ s.postAlignmentGroups i ∨ g ∈ s.firstTimeGroups i := by
  by_cases hpost : g.seqGroupId ∈ s.postAlignmentSeqs
  · exact .inl (mem_postAlignmentGroups.mpr ⟨hg, hpost⟩)
  · exact .inr (mem_firstTimeGroups.mpr ⟨hg, hpost⟩)

/-- With nothing else to run, all first-time groups are drained, so a decode group
is left in the batch. -/
theorem Emitted.ne_nil (hmode : cfg.mode = .wgkp) (hdec : i.sel.decodeGroups ≠ [])
    (hemit : Emitted cfg s i call s' out) : out ≠ [] := by
  intro hout
  rw [hemit.out_eq] at hout
  obtain ⟨hpre, hpart⟩ := List.append_eq_nil_iff.mp hout
  have hnot : ∀ g, g ∉ s.decodePart cfg i call := fun g => hpart ▸ List.not_mem_nil
  have hpost : s.postAlignmentGroups i = [] := List.eq_nil_iff_forall_not_mem.mpr fun g hg =>
    hnot g (mem_decodePart_iff.mpr (.inl hg))
  have hal : s.alignedGroups i call = [] := List.eq_nil_iff_forall_not_mem.mpr fun g hg =>
    hnot g (mem_decodePart_iff.mpr (.inr (.inl hg)))
  obtain ⟨g, hg⟩ := List.exists_mem_of_ne_nil _ hdec
  rcases mem_split (s := s) hg with hin | hfirst
  · exact List.not_mem_nil (hpost ▸ hin)
  · have hdr := mem_drainedGroups_iff.mpr ⟨⟨hmode, hpre, hpost, hal⟩, hfirst⟩
    exact hnot g (mem_decodePart_iff.mpr (.inr (.inr hdr)))

/-- An emitted group that was held has been drained. -/
theorem Emitted.drained_of_held (hemit : Emitted cfg s i call s' out) (hheld : s.Held i call g)
    (hg : g ∈ out) : g ∈ s.drainedGroups cfg i call := by
  obtain ⟨hfirst, hnot⟩ := hheld
  obtain ⟨hdec, hpost⟩ := mem_firstTimeGroups.mp hfirst
  rw [hemit.out_eq] at hg
  rcases List.mem_append.mp hg with hpre | hpart
  · have hpre' := (mem_prefillGroups.mp hpre).2
    rw [(mem_decodeGroups.mp hdec).2] at hpre'
    cases hpre'
  · rcases mem_decodePart_iff.mp hpart with hin | hal | hdr
    · exact absurd (mem_postAlignmentGroups.mp hin).2 hpost
    · obtain ⟨-, k, hp⟩ := mem_alignedGroups.mp hal
      exact absurd hp (hnot k)
    · exact hdr

/-- The tail of a wgkp tick keeps no record of a group that leaves the buffer. -/
theorem unrecorded_of_emitTick (hmode : cfg.mode = .wgkp)
    (h : s.emitTick cfg env i call = .ok (s', out)) {x : ℕ}
    (hx : x ∈ (s.alignedGroups i call ++ s.drainedGroups cfg i call).map
      SequenceGroup.seqGroupId) : x ∉ s'.buffer.seqEnqueue := by
  simp only [emitTick, hmode] at h
  obtain ⟨s₁, hlog, h⟩ := bind_eq_ok h
  obtain ⟨rfl, rfl⟩ := Prod.mk.inj (Except.ok.inj h)
  obtain ⟨hframe, -⟩ := spec_logWarStats hlog
  obtain ⟨-, -, hrecs, -⟩ := spec_releaseEarly s i call hmode
  intro hrec
  exact ((hrecs x).mp (hframe.recorded_of x hrec)).2 hx

/-- A drained group is released in full: its token is taken out of the queue of its
adapter, and no other queue has one (`Waiting`). -/
theorem Emitted.released (h : Waiting adapterOf s) (hfix : i.FixedAdapter adapterOf)
    (hmode : cfg.mode = .wgkp) (htail : s.emitTick cfg env i call = .ok (s', out))
    (hg : g ∈ s.drainedGroups cfg i call) : Released s' out g := by
  have hemit := emitted_of_emitTick htail
  have hleft : g.seqGroupId ∈ (s.alignedGroups i call ++ s.drainedGroups cfg i call).map
      SequenceGroup.seqGroupId := List.mem_map.mpr ⟨g, List.mem_append_right _ hg, rfl⟩
  refine ⟨?_, fun k hk => ?_, unrecorded_of_emitTick hmode htail hleft, ?_⟩
  · rw [hemit.out_eq]
    exact List.mem_append_right _ (mem_decodePart_iff.mpr (.inr (.inr hg)))
  · exact (hemit.not_left h hfix hk).2 hleft
  · refine (hemit.post _).mpr ⟨.inr hleft, fun hpi => ?_⟩
    rw [hmode] at hpi
    cases hpi

/-- The tick after its preparation is its tail. -/
theorem emitTick_of_tick (htick : Tick cfg env s i out s') (hdec : i.sel.decodeGroups ≠ [])
    (hprep : s.countCall.prepareTick cfg env i = .ok (s₁, call)) :
    s₁.emitTick cfg env i call = .ok (s', out) := by
  unfold Tick at htick
  rw [schedule_eq, scheduleInner, if_neg hdec, hprep] at htick
  exact htick

theorem tick_ne_nil (hmode : cfg.mode = .wgkp) (htick : Tick cfg env s i out s')
    (hsched : i.sel.scheduled ≠ []) : out ≠ [] := by
  rcases schedule_cases htick with ⟨-, -, rfl⟩ | ⟨hdec, s₁, call, -, -, hemit⟩
  · exact hsched
  · exact hemit.ne_nil hmode hdec

/-- A held group is emitted only when nothing else would run. -/
theorem nothingElse_of_held (htick : Tick cfg env s i out s')
    (hprep : s.countCall.prepareTick cfg env i = .ok (s₁, call))
    (hheld : s₁.Held i call g) (hg : g ∈ out) : NothingElse cfg s i s₁ call := by
  have hdec : i.sel.decodeGroups ≠ [] :=
    List.ne_nil_of_mem (mem_firstTimeGroups.mp hheld.1).1
  have hspec : Prepared cfg s i s₁ call := (prepared_of_prepareTick hprep).of_countCall
  have hemit := emitted_of_emitTick (emitTick_of_tick htick hdec hprep)
  obtain ⟨⟨-, hpre, hpost, hal⟩, -⟩ := mem_drainedGroups_iff.mp (hemit.drained_of_held hheld hg)
  exact ⟨hpre, hspec.split_eq.2 ▸ hpost, hal⟩

/-- When nothing else would run, every first-time group is released. -/
theorem Waiting.releasesAll (h : Waiting adapterOf s) (hfix : i.FixedAdapter adapterOf)
    (hmode : cfg.mode = .wgkp) (htick : Tick cfg env s i out s')
    (hprep : s.countCall.prepareTick cfg env i = .ok (s₁, call))
    (hnone : NothingElse cfg s i s₁ call) (hg : g ∈ (atSplit cfg s i).firstTimeGroups i) :
    Released s' out g := by
  have hdec : i.sel.decodeGroups ≠ [] := List.ne_nil_of_mem (mem_firstTimeGroups.mp hg).1
  have hspec : Prepared cfg s i s₁ call := (prepared_of_prepareTick hprep).of_countCall
  obtain ⟨hfirst, hpost⟩ := hspec.split_eq
  rw [← hfirst] at hg
  refine Emitted.released (h.prepared hfix hspec) hfix hmode
    (emitTick_of_tick htick hdec hprep) (mem_drainedGroups_iff.mpr ⟨?_, hg⟩)
  exact ⟨hmode, hnone.noPrefill, hpost.trans hnone.noAligned, hnone.noDispatched⟩

end Tick

/-- **A wgkp tick never empties a step**, and releases early only when it must. In
every run a selection with a group gives a batch with a group. A first-time
group that the dispatch held is emitted only when nothing else would run, and
then every offered first-time group is, leaves the buffer and is aligned. A
tick that raises gives no batch; the last part says when the next one returns. -/
theorem wgkp_never_empties {adapterOf : ℕ → String} {cfg : Config K} {env : Env K}
    {s : AlignmentAwareScheduler K} {tr : TickHistory K} (hmode : cfg.mode = .wgkp)
    (h : Exec (Tick cfg env) (init cfg) tr s)
    (hfix : ∀ e ∈ tr, e.label.FixedAdapter adapterOf) :
    (∀ e ∈ tr, (e.label.sel.scheduled ≠ [] → e.out ≠ [])
      ∧ ∀ s₁ call, e.pre.countCall.prepareTick cfg env e.label = .ok (s₁, call) →
        (∀ g ∈ e.out, s₁.Held e.label call g → NothingElse cfg e.pre e.label s₁ call)
          ∧ (NothingElse cfg e.pre e.label s₁ call →
            ∀ g ∈ (atSplit cfg e.pre e.label).firstTimeGroups e.label,
              Released e.post e.out g))
      ∧ (cfg.Sound → (∀ e ∈ tr, e.label.Numbered cfg env) → ∀ i, i.Numbered cfg env →
        ∃ out s', Tick cfg env s i out s' ∧ (i.sel.scheduled ≠ [] → out ≠ [])) := by
  refine ⟨fun e he => ?_, fun hcfg hnum i hi => ?_⟩
  · obtain ⟨-, hall⟩ := waiting_of_run h hfix
    have htick := h.step_of_mem e he
    refine ⟨tick_ne_nil hmode htick, fun s₁ call hprep => ⟨fun g hg hheld => ?_, ?_⟩⟩
    · exact nothingElse_of_held htick hprep hheld hg
    · intro hnone g hg
      exact (hall e he).1.releasesAll (hfix e he) hmode htick hprep hnone hg
  · obtain ⟨out, s', htick⟩ := exists_tick hcfg h hnum hi
    exact ⟨out, s', htick, tick_ne_nil hmode htick⟩

/-! ### Tokens of groups that are not offered -/

/-- The deadline of a queue is 5 ms. -/
def drainingConfig : Config ℚ :=
  { Config.default .wgkp with fixedDeadline := true }

/-- Sequence 1 is held while a prefill runs, and not offered in the next tick. -/
def offeredLate : List (TickInput ℚ) :=
  [sampleTick 0 [sampleGroup 9 "b" true, sampleGroup 1 "a" false] (by decide),
    sampleTick 1 [sampleGroup 4 "b" false] (by decide),
    sampleTick 2 [sampleGroup 4 "b" false, sampleGroup 3 "a" false] (by decide)]

/-- What a tick emits and what its dispatch pops. -/
def emittedAndPopped (cfg : Config ℚ)
    (e : Event (AlignmentAwareScheduler ℚ) (TickInput ℚ) (List SequenceGroup)) :
    List ℕ × List (String × ℕ) :=
  (e.out.map SequenceGroup.seqGroupId,
    match e.pre.countCall.prepareTick cfg sampleEnv e.label with
    | .error _ => []
    | .ok r => r.1.dispatchedPairs e.label r.2)

theorem drainingConfig_sound : drainingConfig.Sound where
  coldBoost_ne h := absurd rfl h
  tauLoad_pos h := nomatch h

/-- Without the batch log any adapter number will do. -/
theorem numbered_of_draining (i : TickInput ℚ) : i.Numbered drainingConfig sampleEnv := by
  rintro (hlog | hmode)
  · cases hlog
  · cases hmode

theorem offeredLate_fixed :
    ∀ i ∈ offeredLate, i.FixedAdapter fun x => if x = 1 ∨ x = 3 then "a" else "b" := by
  unfold TickInput.FixedAdapter
  decide

/-- The second dispatch pops the overdue token of sequence 1, whose group is not
offered; sequence 4 is released early. The third tick holds sequence 3. -/
theorem offeredLate_not_empty :
    ∃ tr s, Exec (Tick drainingConfig sampleEnv) (init drainingConfig) tr s
      ∧ tr.map (emittedAndPopped drainingConfig) = [([9], []), ([4], [("a", 1)]), ([4], [])]
      ∧ (∀ e ∈ tr, e.out ≠ []
        ∧ ∀ s₁ call, e.pre.countCall.prepareTick drainingConfig sampleEnv e.label = .ok (s₁, call) →
          NothingElse drainingConfig e.pre e.label s₁ call →
            ∀ g ∈ (atSplit drainingConfig e.pre e.label).firstTimeGroups e.label,
              Released e.post e.out g)
      ∧ ∀ i, ∃ out s', Tick drainingConfig sampleEnv s i out s'
        ∧ (i.sel.scheduled ≠ [] → out ≠ []) := by
  obtain ⟨tr, s, hexec, hlabels, hout⟩ := exists_run drainingConfig sampleEnv offeredLate
    (emittedAndPopped drainingConfig) (l := [([9], []), ([4], [("a", 1)]), ([4], [])])
    (by decide +kernel)
  have hlabel : ∀ e ∈ tr, e.label ∈ offeredLate := fun e he =>
    hlabels ▸ List.mem_map.mpr ⟨e, he, rfl⟩
  obtain ⟨hticks, hnext⟩ :=
    wgkp_never_empties rfl hexec fun e he => offeredLate_fixed e.label (hlabel e he)
  have hsched : ∀ i ∈ offeredLate, i.sel.scheduled ≠ [] := by
    decide
  refine ⟨tr, s, hexec, hout, fun e he => ?_, fun i => ?_⟩
  · obtain ⟨hne, hearly⟩ := hticks e he
    exact ⟨hne (hsched _ (hlabel e he)), fun s₁ call hprep => (hearly s₁ call hprep).2⟩
  · exact hnext drainingConfig_sound (fun e _ => numbered_of_draining e.label) i
      (numbered_of_draining i)

end AlignmentAwareScheduler

end AdapterSlots
