import Mathlib.Data.Finset.Card
import Mathlib.Data.List.Flatten
import AdapterSlots.SchedulerLoss

/-!
# The budget of a tick

A tick passes the number of its decode groups as `max_tokens`. That covers
the buffer while every buffered token belongs to a decode group of the
tick. A sequence that leaves vLLM's selection while it is held leaves its
token behind; only decode groups without a token - aligned before, or
dropped - make up for it.

`budget_covers_iff` compares the two numbers in every state a run of ticks
reaches.
-/

namespace AdapterSlots

open Lib AlignmentBuffer

variable {K : Type} [Field K] [LinearOrder K]

/-! ## All queued ids -/

namespace AlignmentBuffer

/-- The sequence ids in the queues, one queue after the other. -/
def queuedIds (b : AlignmentBuffer K) : List ℕ := b.queues.entries.flatMap fun e => e.2.map Prod.fst

omit [Field K] [LinearOrder K] in
theorem length_queuedIds (b : AlignmentBuffer K) : b.queuedIds.length = b.totalQueued := by
  rw [queuedIds, List.length_flatMap, totalQueued, Dict.sumBy]
  simp

omit [Field K] [LinearOrder K] in
theorem mem_queuedIds {b : AlignmentBuffer K} {x : ℕ} :
    x ∈ b.queuedIds ↔ ∃ k, x ∈ b.seqIds k := by
  rw [queuedIds, List.mem_flatMap]
  constructor
  · rintro ⟨⟨k, q⟩, he, hx⟩
    refine ⟨k, ?_⟩
    rw [seqIds, queue, Dict.getD, Dict.mem_entries_iff.mp he]
    exact hx
  · rintro ⟨k, hx⟩
    cases hget : b.queues.get? k with
    | none =>
        rw [seqIds, queue, Dict.getD, hget] at hx
        cases hx
    | some q =>
        rw [seqIds, queue, Dict.getD, hget] at hx
        exact ⟨(k, q), Dict.mem_entries_iff.mpr hget, hx⟩

end AlignmentBuffer

namespace AlignmentAwareScheduler

/-- The queued sequences that are not decode groups of this tick. -/
def departedIds (s : AlignmentAwareScheduler K) (i : TickInput K) : Finset ℕ :=
  s.buffer.queuedIds.toFinset \ (i.sel.decodeGroups.map SequenceGroup.seqGroupId).toFinset

/-- The decode groups of this tick that have no token in the buffer: those that
were aligned before and those that are dropped. -/
def tokenlessGroups (cfg : Config K) (s : AlignmentAwareScheduler K) (i : TickInput K) :
    List SequenceGroup :=
  i.sel.decodeGroups.filter fun g => decide (g.seqGroupId ∈ (atSplit cfg s i).postAlignmentSeqs
    ∨ (atSplit cfg s i).Dropped g)

section Budget

variable {adapterOf : ℕ → String} {cfg : Config K} {env : Env K}
  {s s₁ : AlignmentAwareScheduler K} {i : TickInput K} {call : DispatchCall K}
  {tr : TickHistory K}

/-- A sequence is queued once in the whole buffer. -/
theorem Waiting.nodup_queuedIds (h : Waiting adapterOf s) : s.buffer.queuedIds.Nodup := by
  rw [queuedIds, List.nodup_flatMap]
  have hentry : ∀ e ∈ s.buffer.queues.entries, e.2.map Prod.fst = s.buffer.seqIds e.1 :=
    fun e he => by rw [seqIds, queue, Dict.getD, Dict.mem_entries_iff.mp he]; rfl
  refine ⟨fun e he => hentry e he ▸ h.once e.1, ?_⟩
  have hkeys := List.pairwise_map.mp s.buffer.queues.nodup
  refine hkeys.imp_of_mem fun {e e'} he he' hne => ?_
  intro x hx hx'
  replace hx : x ∈ s.buffer.seqIds e.1 := hentry e he ▸ hx
  replace hx' : x ∈ s.buffer.seqIds e'.1 := hentry e' he' ▸ hx'
  exact hne ((h.own e.1 x hx).symm.trans (h.own e'.1 x hx'))

/-- The cleanup leaves the queues alone. -/
theorem queuedIds_atSplit (cfg : Config K) (s : AlignmentAwareScheduler K) (i : TickInput K) :
    (atSplit cfg s i).buffer.queuedIds = s.buffer.queuedIds := by
  unfold atSplit
  split <;> rfl

/-- The enqueues of a tick are for its decode groups. -/
theorem Prepared.departed_eq (hprep : Prepared cfg s i s₁ call) :
    s₁.buffer.queuedIds.toFinset \ (i.sel.decodeGroups.map SequenceGroup.seqGroupId).toFinset
      = departedIds s i := by
  ext x
  rw [departedIds, Finset.mem_sdiff, Finset.mem_sdiff, List.mem_toFinset, List.mem_toFinset,
    List.mem_toFinset]
  refine and_congr_left fun hnot => ?_
  rw [← queuedIds_atSplit cfg s i, mem_queuedIds, mem_queuedIds]
  refine exists_congr fun k => ?_
  rw [hprep.seqIds, List.mem_append, mem_newEntries]
  refine or_iff_left ?_
  rintro ⟨-, g, hg, -, rfl⟩
  exact hnot (List.mem_map.mpr ⟨g, (mem_firstTimeGroups.mp hg).1, rfl⟩)

/-- A decode group has no token exactly when it was aligned before or is
dropped. -/
theorem Prepared.tokenless_iff (h : Waiting adapterOf s₁) (hfix : i.FixedAdapter adapterOf)
    (hprep : Prepared cfg s i s₁ call) {g : SequenceGroup} (hg : g ∈ i.sel.decodeGroups) :
    g.seqGroupId ∉ s₁.buffer.queuedIds ↔ g ∈ tokenlessGroups cfg s i := by
  have hqueue : g.seqGroupId ∈ s₁.buffer.queuedIds
      ↔ g.seqGroupId ∈ s₁.buffer.seqIds g.adapterId := by
    rw [mem_queuedIds]
    refine ⟨?_, fun hx => ⟨_, hx⟩⟩
    rintro ⟨k, hx⟩
    rwa [adapterId_of_decode hfix hg, h.own k _ hx]
  rw [tokenlessGroups, List.mem_filter, decide_eq_true_eq, and_iff_right hg, ← hprep.post_eq]
  by_cases hpost : g.seqGroupId ∈ s₁.postAlignmentSeqs
  · refine iff_of_true (fun hx => ?_) (.inl hpost)
    exact h.unaligned _ _ (hqueue.mp hx) hpost
  · rw [hqueue, hprep.queued_iff (mem_firstTimeGroups.mpr ⟨hg, hpost⟩), not_not,
      or_iff_right hpost]

theorem Prepared.tokenless_eq (h : Waiting adapterOf s₁) (hfix : i.FixedAdapter adapterOf)
    (hprep : Prepared cfg s i s₁ call) :
    ((i.sel.decodeGroups.map SequenceGroup.seqGroupId).toFinset
        \ s₁.buffer.queuedIds.toFinset).card = (tokenlessGroups cfg s i).length := by
  have hnd : ((tokenlessGroups cfg s i).map SequenceGroup.seqGroupId).Nodup :=
    i.sel.nodup.sublist ((List.filter_sublist.trans List.filter_sublist).map _)
  rw [← List.length_map SequenceGroup.seqGroupId, ← List.toFinset_card_of_nodup hnd]
  congr 1
  ext x
  rw [Finset.mem_sdiff, List.mem_toFinset, List.mem_toFinset, List.mem_toFinset]
  constructor
  · rintro ⟨hx, hnot⟩
    obtain ⟨g, hg, rfl⟩ := List.mem_map.mp hx
    exact List.mem_map.mpr ⟨g, (hprep.tokenless_iff h hfix hg).mp hnot, rfl⟩
  · intro hx
    obtain ⟨g, hg, rfl⟩ := List.mem_map.mp hx
    have hdec := (List.mem_filter.mp hg).1
    exact ⟨List.mem_map.mpr ⟨g, hdec, rfl⟩, (hprep.tokenless_iff h hfix hdec).mpr hg⟩

/-- **The budget** of a tick covers the buffer if and only if no more queued
sequences have left the selection than selected decode groups have no
token. -/
theorem budget_covers_iff (h : Exec (Tick cfg env) (init cfg) tr s)
    (hfix : ∀ e ∈ tr, e.label.FixedAdapter adapterOf) (hi : i.FixedAdapter adapterOf)
    (hprep : s.countCall.prepareTick cfg env i = .ok (s₁, call)) :
    s₁.buffer.totalQueued ≤ i.sel.decodeGroups.length
      ↔ (departedIds s i).card ≤ (tokenlessGroups cfg s i).length := by
  have hspec : Prepared cfg s i s₁ call := (prepared_of_prepareTick hprep).of_countCall
  have hw : Waiting adapterOf s₁ := (waiting_of_run h hfix).1.prepared hi hspec
  have hnd : (i.sel.decodeGroups.map SequenceGroup.seqGroupId).Nodup :=
    i.sel.nodup.sublist (List.filter_sublist.map _)
  rw [← hspec.departed_eq, ← hspec.tokenless_eq hw hi, Finset.card_sdiff_le_card_sdiff_iff,
    List.toFinset_card_of_nodup hw.nodup_queuedIds, List.toFinset_card_of_nodup hnd,
    length_queuedIds, List.length_map]

end Budget

/-- A threshold tick enqueues and calls `form_batch`. -/
theorem prepareTick_threshold (s : AlignmentAwareScheduler ℚ) (i : TickInput ℚ) :
    s.countCall.prepareTick (Config.default .threshold) sampleEnv i
      = .ok (s.countCall.enqueueDecodeGroups i (s.countCall.firstTimeGroups i), .threshold) := rfl

/-- Two sequences are held; the second tick, before their deadline, selects the
groups of the list. -/
def heldThen (groups : List SequenceGroup) (h : (groups.map SequenceGroup.seqGroupId).Nodup) :
    List (TickInput ℚ) :=
  [sampleTick 0 [sampleGroup 1 "a" false, sampleGroup 2 "b" false] nodup_oneTwo,
    sampleTick (1 / 1000) groups h]

/-- Both are selected again: two tokens, and a budget of two. -/
theorem heldThen_both_covered :
    ∃ tr s i s₁ call,
      Exec (Tick (Config.default .threshold) sampleEnv) (init (Config.default .threshold)) tr s
      ∧ s.buffer.totalQueued = 2
      ∧ s.countCall.prepareTick (Config.default .threshold) sampleEnv i = .ok (s₁, call)
      ∧ s₁.buffer.totalQueued ≤ i.sel.decodeGroups.length := by
  have hfix : ∀ i ∈ heldThen [sampleGroup 1 "a" false, sampleGroup 2 "b" false] (by decide),
      i.FixedAdapter fun x => if x = 1 then "a" else "b" := by
    unfold TickInput.FixedAdapter
    decide
  obtain ⟨e, tr, hexec, hlabel, htr, hf⟩ := exists_reached (Config.default .threshold) sampleEnv
    (heldThen [sampleGroup 1 "a" false, sampleGroup 2 "b" false] (by decide))
    (fun e => decide (e.pre.buffer.totalQueued = 2 ∧ (departedIds e.pre e.label).card
      ≤ (tokenlessGroups (Config.default .threshold) e.pre e.label).length))
    (l := [false, true]) (by decide +kernel) (by decide)
  obtain ⟨htwo, hcard⟩ := of_decide_eq_true hf
  exact ⟨tr, e.pre, e.label, _, _, hexec, htwo, prepareTick_threshold e.pre e.label,
    (budget_covers_iff hexec (fun e he => hfix _ (htr e he)) (hfix _ hlabel)
      (prepareTick_threshold e.pre e.label)).mpr hcard⟩

/-- Sequence 1 has left the selection: two tokens, and a budget of one. -/
theorem heldThen_one_not_covered :
    (∀ i ∈ heldThen [sampleGroup 2 "b" false] (by decide),
        i.FixedAdapter fun x => if x = 1 then "a" else "b")
      ∧ ∃ tr s i s₁ call,
        Exec (Tick (Config.default .threshold) sampleEnv) (init (Config.default .threshold)) tr s
        ∧ (∀ e ∈ tr, e.label ∈ heldThen [sampleGroup 2 "b" false] (by decide))
        ∧ i ∈ heldThen [sampleGroup 2 "b" false] (by decide)
        ∧ s.countCall.prepareTick (Config.default .threshold) sampleEnv i = .ok (s₁, call)
        ∧ ¬ s₁.buffer.totalQueued ≤ i.sel.decodeGroups.length := by
  constructor
  · unfold TickInput.FixedAdapter
    decide
  · obtain ⟨e, tr, hexec, hlabel, htr, hf⟩ := exists_reached (Config.default .threshold) sampleEnv
      (heldThen [sampleGroup 2 "b" false] (by decide))
      (fun e => decide (¬ (e.pre.countCall.enqueueDecodeGroups e.label
          (e.pre.countCall.firstTimeGroups e.label)).buffer.totalQueued
        ≤ e.label.sel.decodeGroups.length))
      (l := [false, true]) (by decide +kernel) (by decide)
    exact ⟨tr, e.pre, e.label, _, _, hexec, htr, hlabel, prepareTick_threshold e.pre e.label,
      of_decide_eq_true hf⟩

end AlignmentAwareScheduler

end AdapterSlots
