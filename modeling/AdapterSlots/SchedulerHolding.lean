import Mathlib.Data.List.Pairwise
import AdapterSlots.BufferTime
import AdapterSlots.SchedulerBudget
import AdapterSlots.SchedulerFrame

/-!
# How long a token is held

The buffer holds the first decode token of a sequence back. While vLLM
offers the sequences that wait - in every step with decode groups all of
them (`Attended`); a step with prefills only does not count - nothing is
lost and the budget covers the buffer, and two decode steps after a token
has reached the age `T_SLO` its sequence runs (`held_until_slo`).

One step is not enough. A queue of a warp or more hands over whole warps,
and what stays behind may be expired. But it is less than a warp, it is at
the head, and new tokens queue up behind it: the next dispatch takes it,
in a warp or as an expired short queue.

The clock is that of the buffer. `Aged` is what the dispatch relies on: in
each queue times ascend, and `enqueue_time` is not later than any of them.
-/

namespace AdapterSlots

open Lib AlignmentBuffer

namespace AlignmentBuffer

/-! ## Ages -/

section Aged

variable {K : Type} [LinearOrder K] {b b' : AlignmentBuffer K}

/-- Queues in time order, none of whose tokens is older than `enqueue_time` says.
After a drain `enqueue_time` may be too early. -/
structure Aged (b : AlignmentBuffer K) : Prop where
  untimed : b.EmptyUntimed
  sorted : ∀ k, (b.queue k).Pairwise fun e e' => e.2 ≤ e'.2
  oldest : ∀ k, ∀ e ∈ b.queue k, ∃ t, b.oldest k = some t ∧ t ≤ e.2

theorem Aged.congr (h : b.Aged) (hq : SameQueues b b') : b'.Aged := by
  refine ⟨fun k hk => ?_, fun k => ?_, fun k e he => ?_⟩
  · rw [hq.oldest_eq]
    exact h.untimed k (hq.queue_eq k ▸ hk)
  · rw [hq.queue_eq]
    exact h.sorted k
  · rw [hq.queue_eq] at he
    rw [hq.oldest_eq]
    exact h.oldest k e he

theorem Aged.le_age [Field K] [IsStrictOrderedRing K] (h : b.Aged) {k : String} {t : K} :
    ∀ e ∈ b.queue k, t - e.2 ≤ b.age k t := by
  intro e he
  obtain ⟨t₀, ht₀, hle⟩ := h.oldest k e he
  rw [age, ht₀]
  exact sub_le_sub_left hle t

theorem Aged.init [Field K] (adapters : List String) (W : ℕ) (hW : 0 < W) (tmaxMs sloMs : K) :
    (init adapters W hW tmaxMs sloMs).Aged := by
  refine ⟨fun k _ => oldest_init .., fun k => ?_, fun k e he => ?_⟩
  · rw [queue_init]
    exact List.Pairwise.nil
  · rw [queue_init] at he
    cases he

omit [LinearOrder K] in
theorem EmptyUntimed.oldest_enqueue (hb : b.EmptyUntimed) {k : String} {s : ℕ} {t : K}
    (hs : s ∉ b.seqEnqueue) (k' : String) :
    (b.enqueue k s t).oldest k' = if k = k' ∧ b.oldest k = none then some t else b.oldest k' := by
  have hreg : ∀ k', (b.registerAdapter k).oldest k' = b.oldest k' := by
    intro k'
    unfold registerAdapter
    split
    · rfl
    · rename_i hk
      refine (oldest_insert b k k' none).trans ?_
      split
      · rename_i heq
        exact (hb k' (queue_of_not_mem (heq ▸ hk))).symm
      · rfl
  rw [enqueue_of_new hs, oldest_appendToken, hreg, hreg]

/-- An accepted enqueue sets `enqueue_time` of an empty queue only. -/
theorem Aged.enqueue (h : b.Aged) {k : String} {s : ℕ} {t : K} (ht : ∀ e ∈ b.queue k, e.2 ≤ t) :
    (b.enqueue k s t).Aged := by
  by_cases hs : s ∈ b.seqEnqueue
  · rwa [enqueue_of_recorded hs]
  · refine ⟨fun k' hk' => ?_, fun k' => ?_, fun k' e he => ?_⟩
    · rw [queue_enqueue hs] at hk'
      rw [h.untimed.oldest_enqueue hs]
      split at hk'
      · simp at hk'
      · rename_i hne
        rw [if_neg fun heq => hne heq.1]
        exact h.untimed k' hk'
    · rw [queue_enqueue hs]
      split
      · refine List.pairwise_append.mpr ⟨h.sorted k, List.pairwise_singleton .., ?_⟩
        intro e he e' he'
        obtain rfl := List.mem_singleton.mp he'
        exact ht e he
      · exact h.sorted k'
    · rw [queue_enqueue hs] at he
      rw [h.untimed.oldest_enqueue hs]
      split at he
      · rename_i hk
        subst hk
        cases hq : b.queue k with
        | nil =>
            rw [hq, List.nil_append, List.mem_singleton] at he
            exact ⟨t, if_pos ⟨rfl, h.untimed k hq⟩, he ▸ le_rfl⟩
        | cons e₀ q =>
            have he₀ : e₀ ∈ b.queue k := hq ▸ List.mem_cons_self ..
            obtain ⟨t₀, ht₀, hle⟩ := h.oldest k e₀ he₀
            rw [ht₀, if_neg fun hnone => Option.some_ne_none _ hnone.2]
            rcases List.mem_append.mp he with he | he
            · exact ht₀ ▸ h.oldest k e he
            · obtain rfl := List.mem_singleton.mp he
              exact ⟨t₀, rfl, hle.trans (ht e₀ he₀)⟩
      · rename_i hne
        rw [if_neg fun heq => hne heq.1]
        exact h.oldest k' e he

theorem Aged.enqueueGroups {clock : ℕ → K} : ∀ {groups : List SequenceGroup}
    {b : AlignmentBuffer K}, b.Aged → (groups.map fun g => clock g.seqGroupId).Pairwise (· ≤ ·) →
    (∀ k, ∀ e ∈ b.queue k, ∀ g ∈ groups, e.2 ≤ clock g.seqGroupId) →
    (AlignmentAwareScheduler.enqueueGroups clock groups b).Aged
  | [], _, h, _, _ => h
  | g :: gs, b, h, hmono, hle => by
      rw [List.map_cons, List.pairwise_cons] at hmono
      rw [AlignmentAwareScheduler.enqueueGroups, List.foldl_cons,
        ← AlignmentAwareScheduler.enqueueGroups]
      refine Aged.enqueueGroups (h.enqueue fun e he => hle _ e he g (List.mem_cons_self ..))
        hmono.2 fun k e he g' hg' => ?_
      rcases mem_queue_of_enqueue he with he | rfl
      · exact hle k e he g' (List.mem_cons_of_mem _ hg')
      · exact hmono.1 _ (List.mem_map.mpr ⟨g', hg', rfl⟩)

theorem Aged.apply [Field K] (h : b.Aged) (c : DispatchCall K) (m : Option ℤ) (t : K) :
    (c.apply b m t).1.Aged := by
  have hsorted : ∀ k, ((c.apply b m t).1.queue k).Pairwise fun e e' => e.2 ≤ e'.2 := fun k => by
    rw [queue_apply]
    exact (h.sorted k).sublist (List.drop_sublist ..)
  refine ⟨fun k hk => ?_, hsorted, fun k e he => ?_⟩
  · rw [queue_apply] at hk
    rw [oldest_apply]
    split
    · rw [hk]
      rfl
    · rename_i hnot
      rw [taken_eq_zero hnot, List.drop_zero] at hk
      exact h.untimed k hk
  · have hs := hsorted k
    rw [queue_apply] at he hs
    rw [oldest_apply]
    split
    · cases hq : (b.queue k).drop (taken (c.plan b m t) k) with
      | nil => rw [hq] at he; cases he
      | cons e₀ q =>
          rw [hq] at he hs
          refine ⟨e₀.2, rfl, ?_⟩
          rcases List.mem_cons.mp he with rfl | he
          · exact le_rfl
          · exact (List.pairwise_cons.mp hs).1 e he
    · exact h.oldest k e (List.mem_of_mem_drop he)

theorem Aged.drainGroups (h : b.Aged) (groups : List SequenceGroup) :
    (b.drainGroups groups).Aged := by
  have hspec := drainSeqs_spec (groups.map fun g => (g.adapterId, g.seqGroupId)) b h.untimed
  have hsub : ∀ k, ((b.drainGroups groups).queue k).Sublist (b.queue k) := fun k =>
    (hspec k).1 ▸ List.filter_sublist
  refine ⟨fun k hk => ?_, fun k => (h.sorted k).sublist (hsub k), fun k e he => ?_⟩
  · refine (hspec k).2.trans (if_pos ?_)
    rw [← (hspec k).1]
    exact List.isEmpty_iff.mpr hk
  · obtain ⟨t, ht, hle⟩ := h.oldest k e ((hsub k).subset he)
    refine ⟨t, (hspec k).2.trans ((if_neg ?_).trans ht), hle⟩
    rw [← (hspec k).1]
    exact fun hempty => List.ne_nil_of_mem he (List.isEmpty_iff.mp hempty)

/-- The deadline of a queue is at most `T_SLO`. -/
theorem DispatchCall.deadline_le_slo (c : DispatchCall K) (b : AlignmentBuffer K) (k : String) :
    c.deadline b k ≤ b.ttftSlo := by
  cases c <;> exact min_le_right _ _

/-- An expired token that stays behind is in the remainder of a queue of a warp or
more. -/
theorem Flushed.long_of_expired [Field K] [IsStrictOrderedRing K] {deadline : String → K} {t : K}
    {n : ℕ} {k : String} (h : Flushed b b.W deadline t n k) (hb : b.Aged) {e : ℕ × K}
    (he : e ∈ (b.queue k).drop n) (hexp : deadline k ≤ t - e.2) :
    b.W ≤ n ∧ ((b.queue k).drop n).length < b.W := by
  have hW := b.W_pos
  rcases Nat.lt_or_ge (b.queue k).length b.W with hshort | hlong
  · rcases h.short hshort with rfl | ⟨-, hage⟩
    · rw [List.drop_length] at he
      cases he
    · have hle := hb.le_age (t := t) e (List.mem_of_mem_drop he)
      exact absurd hage (not_lt.mpr (hexp.trans hle))
  · rw [List.length_drop, h.long hlong]
    have hdiv : 0 < (b.queue k).length / b.W := Nat.div_pos hlong hW
    refine ⟨Nat.le_mul_of_pos_left _ hdiv, ?_⟩
    have hmod := Nat.mod_lt (b.queue k).length hW
    have hsplit := Nat.div_add_mod' (b.queue k).length b.W
    omega

end Aged

end AlignmentBuffer

/-! ## Attended ticks -/

variable {K : Type} [Field K] [LinearOrder K]

omit [Field K] [LinearOrder K] in
/-- The readings of the clock a tick may take for the buffer, in order. -/
def TickInput.readings (i : TickInput K) : List K :=
  (i.sel.decodeGroups.map fun g => i.clock.enqueue g.seqGroupId) ++ [i.clock.formBatch]

namespace AlignmentAwareScheduler

/-- vLLM schedules prefills only, or every sequence with a token in the buffer. -/
def Attended (s : AlignmentAwareScheduler K) (i : TickInput K) : Prop :=
  i.sel.decodeGroups = []
    ∨ ∀ x ∈ s.buffer.queuedIds, x ∈ i.sel.decodeGroups.map SequenceGroup.seqGroupId

instance (s : AlignmentAwareScheduler K) (i : TickInput K) : Decidable (Attended s i) :=
  inferInstanceAs (Decidable (_ ∨ _))

/-- Sequence `x` decodes a token in the batch. -/
def Decodes (out : List SequenceGroup) (x : ℕ) : Prop :=
  ∃ g ∈ out, g.isDecode ∧ g.seqGroupId = x

instance (out : List SequenceGroup) (x : ℕ) : Decidable (Decodes out x) :=
  inferInstanceAs (Decidable (∃ g ∈ out, _))

section Tick

variable {adapterOf : ℕ → String} {cfg : Config K} {env : Env K}
  {s s' s₁ : AlignmentAwareScheduler K} {i : TickInput K} {call : DispatchCall K}
  {out : List SequenceGroup} {k : String} {x : ℕ} {e : ℕ × K}

theorem sameQueues_atSplit (cfg : Config K) (s : AlignmentAwareScheduler K) (i : TickInput K) :
    SameQueues s.buffer (atSplit cfg s i).buffer := by
  unfold atSplit
  split
  · exact ⟨rfl, rfl, rfl, rfl⟩
  · exact SameQueues.refl _

/-- The queue at the dispatch: what was there and the first-time groups without a
record. -/
theorem Prepared.queue_eq (h : Prepared cfg s i s₁ call) (k : String) :
    s₁.buffer.queue k = s.buffer.queue k ++ newEntries (atSplit cfg s i).buffer i.clock.enqueue
      ((atSplit cfg s i).firstTimeGroups i) k := by
  rw [h.buffer_eq, queue_enqueueGroups nodup_firstTimeGroups,
    (sameQueues_atSplit cfg s i).queue_eq]

theorem Prepared.mem_queue (h : Prepared cfg s i s₁ call) (he : e ∈ s₁.buffer.queue k) :
    e ∈ s.buffer.queue k
      ∨ ∃ g ∈ i.sel.decodeGroups, e = (g.seqGroupId, i.clock.enqueue g.seqGroupId) := by
  rw [h.queue_eq] at he
  refine (List.mem_append.mp he).imp_right fun hnew => ?_
  obtain ⟨g, hg, rfl⟩ := List.mem_map.mp hnew
  exact ⟨g, (mem_firstTimeGroups.mp (List.mem_filter.mp hg).1).1, rfl⟩

/-- The queues are in order at the dispatch when the clock has passed all times
before the tick. -/
theorem Prepared.aged (h : Prepared cfg s i s₁ call) (hs : s.buffer.Aged)
    (hclock : i.readings.Pairwise (· ≤ ·))
    (hle : ∀ k, ∀ e ∈ s.buffer.queue k, ∀ t ∈ i.readings, e.2 ≤ t) : s₁.buffer.Aged := by
  have hmem : ∀ g ∈ (atSplit cfg s i).firstTimeGroups i,
      i.clock.enqueue g.seqGroupId ∈ i.readings := fun g hg =>
    List.mem_append_left _ (List.mem_map.mpr ⟨g, (mem_firstTimeGroups.mp hg).1, rfl⟩)
  rw [h.buffer_eq]
  refine (hs.congr (sameQueues_atSplit cfg s i)).enqueueGroups ?_ fun k e he g hg => ?_
  · exact (List.pairwise_append.mp hclock).1.sublist (List.filter_sublist.map _)
  · rw [(sameQueues_atSplit cfg s i).queue_eq] at he
    exact hle k e he _ (hmem g hg)

/-- With every waiting sequence offered, the decode groups are at least as many as
the queued tokens. -/
theorem Prepared.budget (h : Prepared cfg s i s₁ call) (hw : Waiting adapterOf s₁)
    (hatt : ∀ x ∈ s.buffer.queuedIds, x ∈ i.sel.decodeGroups.map SequenceGroup.seqGroupId) :
    (∀ x ∈ s₁.buffer.queuedIds, x ∈ i.sel.decodeGroups.map SequenceGroup.seqGroupId)
      ∧ s₁.buffer.totalQueued ≤ i.sel.decodeGroups.length := by
  have hall : ∀ x ∈ s₁.buffer.queuedIds,
      x ∈ i.sel.decodeGroups.map SequenceGroup.seqGroupId := by
    intro x hx
    obtain ⟨k, hx⟩ := mem_queuedIds.mp hx
    obtain ⟨e, he, rfl⟩ := List.mem_map.mp hx
    rcases h.mem_queue he with hold | ⟨g, hg, rfl⟩
    · exact hatt _ (mem_queuedIds.mpr ⟨k, List.mem_map.mpr ⟨e, hold, rfl⟩⟩)
    · exact List.mem_map.mpr ⟨g, hg, rfl⟩
  refine ⟨hall, ?_⟩
  rw [← length_queuedIds, ← List.length_map SequenceGroup.seqGroupId]
  exact (List.subperm_of_subset hw.nodup_queuedIds hall).length_le

/-- A queued token of an offered sequence that does not decode in this tick was not
popped, and stays. -/
theorem Emitted.stays_of_not_decodes (hw : Waiting adapterOf s)
    (hemit : Emitted cfg s i call s' out) (he : e ∈ s.buffer.queue k)
    (hoff : e.1 ∈ i.sel.decodeGroups.map SequenceGroup.seqGroupId) (hnot : ¬ Decodes out e.1) :
    e ∈ (s.buffer.queue k).drop (taken (s.blocks i call) k) ∧ e ∈ s'.buffer.queue k := by
  obtain ⟨g, hg, hid⟩ := List.mem_map.mp hoff
  have hqueued : e.1 ∈ s.buffer.seqIds k := List.mem_map.mpr ⟨e, he, rfl⟩
  have hfirst : g ∈ s.firstTimeGroups i :=
    mem_firstTimeGroups.mpr ⟨hg, hid ▸ hw.unaligned k _ hqueued⟩
  have hpart : g ∉ s.decodePart cfg i call := fun hpart => hnot
    ⟨g, hemit.out_eq ▸ List.mem_append_right _ hpart, (mem_decodeGroups.mp hg).2, hid⟩
  have hdrop : e ∈ (s.buffer.queue k).drop (taken (s.blocks i call) k) := by
    rw [← List.take_append_drop (taken (s.blocks i call) k) (s.buffer.queue k)] at he
    refine (List.mem_append.mp he).resolve_left fun htake => hpart ?_
    refine mem_decodePart_iff.mpr (.inr (.inl (mem_alignedGroups.mpr ⟨hfirst, k, ?_⟩)))
    exact mem_dispatchedPairs.mpr (List.mem_map.mpr ⟨e, htake, hid.symm⟩)
  refine ⟨hdrop, ?_⟩
  rw [hemit.queue, List.mem_filter, decide_eq_true_eq, queue_apply]
  refine ⟨hdrop, ?_⟩
  rintro ⟨g', hdr, -, hid'⟩
  have hdec' := (mem_firstTimeGroups.mp (mem_drainedGroups hdr)).1
  obtain rfl : g' = g := eq_of_seqGroupId_eq (mem_decodeGroups.mp hdec').1
    (mem_decodeGroups.mp hg).1 (hid'.trans hid.symm)
  exact hpart (mem_decodePart_iff.mpr (.inr (.inr hdr)))

end Tick

/-! ## Runs of attended ticks -/

/-- The readings of a run. -/
def clockReadings (tr : TickHistory K) : List K := tr.flatMap fun e => e.label.readings

theorem clockReadings_append (tr tr' : TickHistory K) :
    clockReadings (tr ++ tr') = clockReadings tr ++ clockReadings tr' :=
  List.flatMap_append

theorem clockReadings_snoc (tr : TickHistory K)
    (e : Event (AlignmentAwareScheduler K) (TickInput K) (List SequenceGroup)) :
    clockReadings (tr ++ [e]) = clockReadings tr ++ e.label.readings := by
  rw [clockReadings_append, clockReadings, clockReadings, List.flatMap_singleton]

/-- The history and the state of an attended run. Only the PI tick forgets sequences
(`dropFinished`) and keeps their enqueue records. -/
structure Holding (adapterOf : ℕ → String) (cfg : Config K) (tr : TickHistory K)
    (s : AlignmentAwareScheduler K) : Prop where
  waiting : Waiting adapterOf s
  aged : s.buffer.Aged
  stored : ∀ k, ∀ e ∈ s.buffer.queue k, e.2 ∈ clockReadings tr
  aligned : ∀ x ∈ s.postAlignmentSeqs, ∃ e ∈ tr, Decodes e.out x
  settled : ∀ x ∈ s.buffer.seqEnqueue, (∃ k, x ∈ s.buffer.seqIds k) ∨ x ∈ s.postAlignmentSeqs
    ∨ cfg.mode = .piAdaptive ∧ ∃ e ∈ tr, Decodes e.out x

section Runs

variable {adapterOf : ℕ → String} {cfg : Config K} {env : Env K}
  {s s' s₁ : AlignmentAwareScheduler K} {i : TickInput K} {call : DispatchCall K}
  {out : List SequenceGroup} {tr : TickHistory K} {x : ℕ}

theorem holding_init : Holding adapterOf cfg [] (init cfg) := by
  refine ⟨waiting_init, Aged.init .., fun k e he => ?_, fun x hx => ?_, fun x hx => ?_⟩
  · cases he
  · exact absurd hx (Finset.notMem_empty x)
  · cases hx

/-- A group of the decode part decodes. -/
theorem Emitted.decodes (hemit : Emitted cfg s i call s' out) {g : SequenceGroup}
    (hg : g ∈ s.decodePart cfg i call) : Decodes out g.seqGroupId :=
  ⟨g, hemit.out_eq ▸ List.mem_append_right _ hg, (mem_decodeGroups.mp (mem_decodePart hg)).2, rfl⟩

/-- What decodes was aligned before or leaves now. -/
theorem Emitted.mem_of_decodes (hemit : Emitted cfg s i call s' out) (h : Decodes out x) :
    x ∈ s.postAlignmentSeqs ∨ x ∈ (s.alignedGroups i call ++ s.drainedGroups cfg i call).map
      SequenceGroup.seqGroupId := by
  obtain ⟨g, hg, hdec, rfl⟩ := h
  rw [hemit.out_eq] at hg
  rcases List.mem_append.mp hg with hpre | hpart
  · rw [(mem_prefillGroups.mp hpre).2] at hdec
    cases hdec
  · rcases mem_decodePart_iff.mp hpart with hpost | hleft
    · exact .inl (mem_postAlignmentGroups.mp hpost).2
    · exact .inr (List.mem_map.mpr ⟨g, List.mem_append.mpr hleft, rfl⟩)

/-- The cleanup forgets a sequence and its record together. -/
theorem mem_atSplit (hx : x ∈ (atSplit cfg s i).buffer.seqEnqueue) :
    x ∈ s.buffer.seqEnqueue
      ∧ (x ∈ s.postAlignmentSeqs → x ∈ (atSplit cfg s i).postAlignmentSeqs) := by
  unfold atSplit at hx ⊢
  split at hx
  · rename_i hmode
    rw [if_pos hmode]
    obtain ⟨hrec, hstale⟩ := Dict.mem_filterKeys.mp hx
    exact ⟨hrec, fun hpost => Finset.mem_sdiff.mpr ⟨hpost, of_decide_eq_true hstale⟩⟩
  · rename_i hmode
    rw [if_neg hmode]
    exact ⟨hx, id⟩

theorem atSplit_subset : (atSplit cfg s i).postAlignmentSeqs ⊆ s.postAlignmentSeqs := by
  unfold atSplit
  split
  · exact Finset.sdiff_subset
  · exact Finset.Subset.refl _

/-- A record at the dispatch that is not queued is that of an aligned sequence. -/
theorem Holding.settled_prepared (h : Holding adapterOf cfg tr s) (hprep : Prepared cfg s i s₁ call)
    (hx : x ∈ s₁.buffer.seqEnqueue) : (∃ k, x ∈ s₁.buffer.seqIds k) ∨ x ∈ s₁.postAlignmentSeqs
      ∨ cfg.mode = .piAdaptive ∧ ∃ e ∈ tr, Decodes e.out x := by
  rw [hprep.buffer_eq, mem_seqEnqueue_enqueueGroups] at hx
  have hold : x ∈ (atSplit cfg s i).buffer.seqEnqueue → (∃ k, x ∈ s₁.buffer.seqIds k)
      ∨ x ∈ s₁.postAlignmentSeqs ∨ cfg.mode = .piAdaptive ∧ ∃ e ∈ tr, Decodes e.out x := by
    intro hrec
    obtain ⟨hrec, hpost⟩ := mem_atSplit hrec
    rcases h.settled x hrec with ⟨k, hk⟩ | hin | hpi
    · refine .inl ⟨k, ?_⟩
      rw [seqIds, hprep.queue_eq, List.map_append]
      exact List.mem_append_left _ hk
    · exact .inr (.inl (hprep.post_eq ▸ hpost hin))
    · exact .inr (.inr hpi)
  rcases hx with hrec | hnew
  · exact hold hrec
  · obtain ⟨g, hg, rfl⟩ := List.mem_map.mp hnew
    by_cases hdrop : (atSplit cfg s i).Dropped g
    · exact hold hdrop.2.1
    · exact .inl ⟨_, (hprep.queued_iff (hprep.split_eq.1 ▸ hg)).mpr hdrop⟩

/-- One tick. -/
theorem Holding.tick (h : Holding adapterOf cfg tr s) (hfix : i.FixedAdapter adapterOf)
    (hatt : Attended s i)
    (hclock : (clockReadings tr ++ i.readings).Pairwise (· ≤ ·))
    (htick : Tick cfg env s i out s') : Holding adapterOf cfg (tr ++ [⟨s, i, out, s'⟩]) s' := by
  have hpast : ∀ {x}, (∃ e ∈ tr, Decodes e.out x) → ∃ e ∈ tr ++ [⟨s, i, out, s'⟩],
      Decodes e.out x := fun ⟨e, he, hd⟩ => ⟨e, List.mem_append_left _ he, hd⟩
  have hnow : ∀ {x}, Decodes out x → ∃ e ∈ tr ++ [⟨s, i, out, s'⟩], Decodes e.out x :=
    fun hd => ⟨⟨s, i, out, s'⟩, by simp, hd⟩
  rcases tick_cases htick with ⟨-, rfl, -⟩ | ⟨hsome, s₁, call, -, hprep, htail⟩
  · refine ⟨h.waiting.countCall, h.aged, fun k e he => ?_, fun x hx => hpast (h.aligned x hx),
      fun x hx => (h.settled x hx).imp_right (Or.imp_right (And.imp_right hpast))⟩
    rw [clockReadings_snoc]
    exact List.mem_append_left _ (h.stored k e he)
  · have hemit := emitted_of_emitTick htail
    have hw₁ : Waiting adapterOf s₁ := h.waiting.prepared hfix hprep
    obtain ⟨-, hnew, hle⟩ := List.pairwise_append.mp hclock
    have haged₁ : s₁.buffer.Aged :=
      hprep.aged h.aged hnew fun k e he t ht => hle e.2 (h.stored k e he) t ht
    have hoff := (hprep.budget hw₁ (hatt.resolve_left hsome)).1
    refine ⟨hemit.waiting hw₁ hfix, ?_, fun k e he => ?_, fun x hx => ?_, fun x hx => ?_⟩
    · exact ((haged₁.apply call _ _).drainGroups _).congr (sameQueues_emitTick htail)
    · rw [hemit.queue, queue_apply] at he
      rw [clockReadings_snoc]
      rcases hprep.mem_queue (List.mem_of_mem_drop (List.mem_of_mem_filter he)) with
        hold | ⟨g, hg, rfl⟩
      · exact List.mem_append_left _ (h.stored k e hold)
      · exact List.mem_append_right _ (List.mem_append_left _ (List.mem_map.mpr ⟨g, hg, rfl⟩))
    · rcases ((hemit.post x).mp hx).1 with hold | hleft
      · exact hpast (h.aligned x (atSplit_subset (hprep.post_eq ▸ hold)))
      · obtain ⟨g, hg, rfl⟩ := List.mem_map.mp hleft
        exact hnow (hemit.decodes (mem_decodePart_iff.mpr (.inr (List.mem_append.mp hg))))
    · rcases h.settled_prepared hprep (hemit.recorded_of x hx) with ⟨k, hk⟩ | hin | ⟨hpi, hold⟩
      · obtain ⟨e, he, rfl⟩ := List.mem_map.mp hk
        by_cases hd : Decodes out e.1
        · by_cases hmode : cfg.mode = .piAdaptive
          · exact .inr (.inr ⟨hmode, hnow hd⟩)
          · exact .inr (.inl ((hemit.post _).mpr
              ⟨hemit.mem_of_decodes hd, fun h => absurd h hmode⟩))
        · exact .inl ⟨k, List.mem_map.mpr ⟨e, (hemit.stays_of_not_decodes hw₁ he
            (hoff _ (mem_queuedIds.mpr ⟨k, hk⟩)) hd).2, rfl⟩⟩
      · by_cases hmode : cfg.mode = .piAdaptive
        · exact .inr (.inr ⟨hmode, hpast (h.aligned x (atSplit_subset (hprep.post_eq ▸ hin)))⟩)
        · exact .inr (.inl ((hemit.post _).mpr ⟨.inl hin, fun h => absurd h hmode⟩))
      · exact .inr (.inr ⟨hpi, hpast hold⟩)

/-- An attended run under a non-decreasing clock. -/
structure AttendedRun (adapterOf : ℕ → String) (cfg : Config K) (env : Env K) (tr : TickHistory K)
    (s : AlignmentAwareScheduler K) : Prop where
  exec : Exec (Tick cfg env) (init cfg) tr s
  fixed : ∀ e ∈ tr, e.label.FixedAdapter adapterOf
  attended : ∀ e ∈ tr, Attended e.pre e.label
  clock : (clockReadings tr).Pairwise (· ≤ ·)

theorem AttendedRun.holding (h : AttendedRun adapterOf cfg env tr s) :
    Holding adapterOf cfg tr s := by
  obtain ⟨hexec, hfix, hatt, hclock⟩ := h
  induction hexec with
  | nil => exact holding_init
  | @snoc tr s s' i out hpath htick ih =>
      rw [clockReadings_snoc] at hclock
      have hlast : (⟨s, i, out, s'⟩ : Event _ _ _) ∈ tr ++ [⟨s, i, out, s'⟩] := by simp
      refine Holding.tick (ih (fun e he => hfix e (List.mem_append_left _ he))
        (fun e he => hatt e (List.mem_append_left _ he)) (List.pairwise_append.mp hclock).1)
        (hfix _ hlast) (hatt _ hlast) hclock htick

/-- The run up to an event. -/
theorem AttendedRun.before {tr₁ tr₂ : TickHistory K}
    {a : Event (AlignmentAwareScheduler K) (TickInput K) (List SequenceGroup)}
    (h : AttendedRun adapterOf cfg env (tr₁ ++ a :: tr₂) s) :
    AttendedRun adapterOf cfg env tr₁ a.pre := by
  refine ⟨h.exec.before_event rfl, fun e he => h.fixed e (List.mem_append_left _ he),
    fun e he => h.attended e (List.mem_append_left _ he), ?_⟩
  have hclock := h.clock
  rw [clockReadings_append] at hclock
  exact (List.pairwise_append.mp hclock).1

/-! ## Expired tokens leave -/

/-- A decode tick of an attended run: what the dispatch relies on. -/
structure Roomy (cfg : Config K) (adapterOf : ℕ → String) (s : AlignmentAwareScheduler K)
    (i : TickInput K) (s₁ : AlignmentAwareScheduler K) (call : DispatchCall K) : Prop where
  prepared : Prepared cfg s i s₁ call
  waiting : Waiting adapterOf s₁
  aged : s₁.buffer.Aged
  covers : call.Covers s₁.buffer
  offered : ∀ x ∈ s₁.buffer.queuedIds, x ∈ i.sel.decodeGroups.map SequenceGroup.seqGroupId
  budget : s₁.buffer.totalQueued ≤ i.sel.decodeGroups.length

theorem Holding.roomy (h : Holding adapterOf cfg tr s) (hfix : i.FixedAdapter adapterOf)
    (hatt : Attended s i) (hclock : (clockReadings tr ++ i.readings).Pairwise (· ≤ ·))
    (hsome : i.sel.decodeGroups ≠ [])
    (hprep : s.countCall.prepareTick cfg env i = .ok (s₁, call)) :
    Roomy cfg adapterOf s i s₁ call := by
  have hspec := (prepared_of_prepareTick hprep).of_countCall
  obtain ⟨-, hnew, hle⟩ := List.pairwise_append.mp hclock
  have hw₁ := h.waiting.prepared hfix hspec
  obtain ⟨hoff, hbudget⟩ := hspec.budget hw₁ (hatt.resolve_left hsome)
  exact ⟨hspec, hw₁, hspec.aged h.aged hnew fun k e he t ht => hle e.2 (h.stored k e he) t ht,
    covers_of_prepareTick hprep, hoff, hbudget⟩

variable {k : String} {e : ℕ × K}

theorem Roomy.stays (h : Roomy cfg adapterOf s i s₁ call) (hemit : Emitted cfg s₁ i call s' out)
    (he : e ∈ s₁.buffer.queue k) (hnot : ¬ Decodes out e.1) :
    e ∈ (s₁.buffer.queue k).drop (taken (s₁.blocks i call) k) ∧ e ∈ s'.buffer.queue k :=
  hemit.stays_of_not_decodes h.waiting he
    (h.offered _ (mem_queuedIds.mpr ⟨k, List.mem_map.mpr ⟨e, he, rfl⟩⟩)) hnot

/-- An expired token that stays was behind a warp, and less than a warp stays. -/
theorem Roomy.long_of_expired [IsStrictOrderedRing K] (h : Roomy cfg adapterOf s i s₁ call)
    (hemit : Emitted cfg s₁ i call s' out) (he : e ∈ s₁.buffer.queue k)
    (hnot : ¬ Decodes out e.1) (hexp : s₁.buffer.ttftSlo ≤ i.clock.formBatch - e.2) :
    s₁.buffer.W ≤ taken (s₁.blocks i call) k ∧ (s'.buffer.queue k).length < s₁.buffer.W := by
  have hbudget : (s₁.buffer.totalQueued : ℤ)
      ≤ s₁.buffer.budget (some (i.sel.decodeGroups.length : ℤ)) := by
    exact Int.ofNat_le.mpr h.budget
  have hflush : Flushed s₁.buffer s₁.buffer.W (call.deadline s₁.buffer) i.clock.formBatch
      (taken (s₁.blocks i call) k) k := flushed_of_covers h.covers hbudget k
  obtain ⟨hlong, hrest⟩ := hflush.long_of_expired h.aged (h.stays hemit he hnot).1
    ((call.deadline_le_slo s₁.buffer k).trans hexp)
  refine ⟨hlong, ?_⟩
  rw [hemit.queue, queue_apply]
  exact (List.length_filter_le ..).trans_lt hrest

/-- With less than a warp in its queue before the tick an expired token leaves: the
new tokens are behind it. -/
theorem Roomy.decodes_of_short [IsStrictOrderedRing K] (h : Roomy cfg adapterOf s i s₁ call)
    (hs : Waiting adapterOf s) (hemit : Emitted cfg s₁ i call s' out)
    (he : e ∈ s.buffer.queue k) (hshort : (s.buffer.queue k).length < s₁.buffer.W)
    (hexp : s₁.buffer.ttftSlo ≤ i.clock.formBatch - e.2) : Decodes out e.1 := by
  by_contra hnot
  have he₁ : e ∈ s₁.buffer.queue k := by
    rw [h.prepared.queue_eq]
    exact List.mem_append_left _ he
  obtain ⟨hlong, -⟩ := h.long_of_expired hemit he₁ hnot hexp
  have hdrop := (h.stays hemit he₁ hnot).1
  rw [h.prepared.queue_eq, List.drop_append, List.drop_of_length_le (by omega),
    List.nil_append] at hdrop
  have hnew : e.1 ∈ (newEntries (atSplit cfg s i).buffer i.clock.enqueue
      ((atSplit cfg s i).firstTimeGroups i) k).map Prod.fst :=
    List.mem_map.mpr ⟨e, List.mem_of_mem_drop hdrop, rfl⟩
  refine (mem_newEntries.mp hnew).1 (hs.forget.recorded k _ ?_)
  rw [seqIds, (sameQueues_atSplit cfg s i).queue_eq]
  exact List.mem_map.mpr ⟨e, he, rfl⟩

/-- The tick that offers a sequence: it decodes, or waits from this reading on at the
latest, or a PI tick has forgotten that it decoded before. -/
theorem Holding.offered (h : Holding adapterOf cfg tr s) (hr : Roomy cfg adapterOf s i s₁ call)
    (hclock : (clockReadings tr ++ i.readings).Pairwise (· ≤ ·))
    (hfix : i.FixedAdapter adapterOf) (hemit : Emitted cfg s₁ i call s' out)
    {g : SequenceGroup} (hg : g ∈ i.sel.decodeGroups) :
    Decodes out g.seqGroupId
      ∨ (cfg.mode = .piAdaptive ∧ ∃ e ∈ tr, Decodes e.out g.seqGroupId)
      ∨ ∃ e ∈ s₁.buffer.queue g.adapterId, e.1 = g.seqGroupId
        ∧ e.2 ≤ i.clock.enqueue g.seqGroupId := by
  by_cases hpost : g.seqGroupId ∈ s₁.postAlignmentSeqs
  · exact .inl (hemit.decodes (mem_decodePart_iff.mpr
      (.inl (mem_postAlignmentGroups.mpr ⟨hg, hpost⟩))))
  · have hfirst := mem_firstTimeGroups.mpr ⟨hg, hpost⟩
    have hrec : g.seqGroupId ∈ s₁.buffer.seqEnqueue := by
      rw [hr.prepared.buffer_eq, mem_seqEnqueue_enqueueGroups, ← hr.prepared.split_eq.1]
      exact .inr (List.mem_map.mpr ⟨g, hfirst, rfl⟩)
    rcases h.settled_prepared hr.prepared hrec with ⟨k, hk⟩ | hin | hpi
    · obtain rfl : g.adapterId = k :=
        (adapterId_of_decode hfix hg).trans (hr.waiting.own k _ hk)
      obtain ⟨e, he, hid⟩ := List.mem_map.mp hk
      refine .inr (.inr ⟨e, he, hid, ?_⟩)
      rcases hr.prepared.mem_queue he with hold | ⟨g', -, rfl⟩
      · refine (List.pairwise_append.mp hclock).2.2 e.2 (h.stored _ e hold) _ ?_
        exact List.mem_append_left _ (List.mem_map.mpr ⟨g, hg, rfl⟩)
      · rw [show g'.seqGroupId = g.seqGroupId from hid]
    · exact absurd hin hpost
    · exact .inr (.inl hpi)

end Runs

/-! ## The bound -/

/-- A decode tick that forms its batch at least `T_SLO` after `t₀`. -/
def ExpiredTick (cfg : Config K) (t₀ : K)
    (e : Event (AlignmentAwareScheduler K) (TickInput K) (List SequenceGroup)) : Prop :=
  e.label.sel.decodeGroups ≠ [] ∧ cfg.ttftSloMs / 1000 ≤ e.label.clock.formBatch - t₀

instance (cfg : Config K) (t₀ : K)
    (e : Event (AlignmentAwareScheduler K) (TickInput K) (List SequenceGroup)) :
    Decidable (ExpiredTick cfg t₀ e) :=
  inferInstanceAs (Decidable (_ ∧ _))

/-- The token of sequence `x` has been waiting since `t₀` at the latest; behind an
expired tick it is among less than a warp. -/
def Lingers (cfg : Config K) (s : AlignmentAwareScheduler K) (x : ℕ) (t₀ : K) (expired : ℕ) :
    Prop :=
  ∃ k, ∃ e ∈ s.buffer.queue k, e.1 = x ∧ e.2 ≤ t₀
    ∧ (expired = 0 ∨ expired = 1 ∧ (s.buffer.queue k).length < cfg.warpSize)

section Bound

variable [IsStrictOrderedRing K] {adapterOf : ℕ → String} {cfg : Config K} {env : Env K}
  {s : AlignmentAwareScheduler K} {tr₁ tr₂ : TickHistory K} {x : ℕ}
  {a : Event (AlignmentAwareScheduler K) (TickInput K) (List SequenceGroup)}

omit [IsStrictOrderedRing K] in
theorem AttendedRun.snoc_inv {tr : TickHistory K}
    (h : AttendedRun adapterOf cfg env (tr ++ [a]) s) :
    AttendedRun adapterOf cfg env tr a.pre ∧ Tick cfg env a.pre a.label a.out s
      ∧ (clockReadings tr ++ a.label.readings).Pairwise (· ≤ ·) := by
  have hmem : a ∈ tr ++ [a] := by simp
  have hrest : Exec (Tick cfg env) a.post [] s := h.exec.after_event rfl
  have hpost : a.post = s := (hrest.eq_of_nil rfl).symm
  refine ⟨h.before, hpost ▸ h.exec.step_of_mem a hmem, ?_⟩
  rw [← clockReadings_snoc]
  exact h.clock

omit [IsStrictOrderedRing K] in
/-- The run up to and with an event. -/
theorem AttendedRun.upto (h : AttendedRun adapterOf cfg env (tr₁ ++ a :: tr₂) s) :
    AttendedRun adapterOf cfg env (tr₁ ++ [a]) a.post := by
  have hsplit : tr₁ ++ a :: tr₂ = (tr₁ ++ [a]) ++ tr₂ := by simp
  refine ⟨h.exec.upto_event rfl, fun e he => h.fixed e ?_, fun e he => h.attended e ?_, ?_⟩
  · exact hsplit ▸ List.mem_append_left _ he
  · exact hsplit ▸ List.mem_append_left _ he
  · have hclock := h.clock
    rw [hsplit, clockReadings_append] at hclock
    exact (List.pairwise_append.mp hclock).1

omit [IsStrictOrderedRing K] in
theorem AttendedRun.roomy {tr : TickHistory K} {s₁ : AlignmentAwareScheduler K}
    {call : DispatchCall K} (h : AttendedRun adapterOf cfg env (tr ++ [a]) s)
    (hsome : a.label.sel.decodeGroups ≠ [])
    (hprep : a.pre.countCall.prepareTick cfg env a.label = .ok (s₁, call)) :
    Roomy cfg adapterOf a.pre a.label s₁ call := by
  have hmem : a ∈ tr ++ [a] := by simp
  obtain ⟨hrun, -, hclock⟩ := h.snoc_inv
  exact hrun.holding.roomy (h.fixed a hmem) (h.attended a hmem) hclock hsome hprep

omit [IsStrictOrderedRing K] in
/-- The last tick of an attended run. -/
theorem AttendedRun.last {tr : TickHistory K} (h : AttendedRun adapterOf cfg env (tr ++ [a]) s) :
    (a.label.sel.decodeGroups = [] ∧ s.buffer = a.pre.buffer)
      ∨ a.label.sel.decodeGroups ≠ [] ∧ ∃ s₁ call, Roomy cfg adapterOf a.pre a.label s₁ call
        ∧ Emitted cfg s₁ a.label call s a.out
        ∧ s₁.buffer.settings = (cfg.warpSize, cfg.ttftSloMs / 1000) := by
  obtain ⟨hrun, htick, -⟩ := h.snoc_inv
  rcases tick_cases htick with ⟨hnone, rfl, -⟩ | ⟨hsome, s₁, call, hprep, hspec, htail⟩
  · exact .inl ⟨hnone, rfl⟩
  · refine .inr ⟨hsome, s₁, call, h.roomy hsome hprep, emitted_of_emitTick htail, ?_⟩
    rw [hspec.settings_eq, settings_of_run hrun.exec]

/-- A token that stays in a decode tick. -/
theorem Roomy.lingers {s₁ s' : AlignmentAwareScheduler K} {i : TickInput K}
    {call : DispatchCall K} {out : List SequenceGroup} {t₀ : K} {k : String} {e : ℕ × K}
    (h : Roomy cfg adapterOf s i s₁ call) (hemit : Emitted cfg s₁ i call s' out)
    (hset : s₁.buffer.settings = (cfg.warpSize, cfg.ttftSloMs / 1000))
    (he : e ∈ s₁.buffer.queue k) (hle : e.2 ≤ t₀) (hnot : ¬ Decodes out e.1) :
    e ∈ s'.buffer.queue k ∧ (cfg.ttftSloMs / 1000 ≤ i.clock.formBatch - t₀ →
      (s'.buffer.queue k).length < cfg.warpSize) := by
  obtain ⟨hW, hslo⟩ := Prod.mk.inj hset
  refine ⟨(h.stays hemit he hnot).2, fun hexp => ?_⟩
  rw [← hW]
  refine (h.long_of_expired hemit he hnot ?_).2
  rw [show s₁.buffer.ttftSlo = cfg.ttftSloMs / 1000 from hslo]
  exact hexp.trans (sub_le_sub_left hle _)

/-- A further tick that does not run the sequence leaves its token; of two expired ticks
the second takes it. -/
theorem Lingers.tick {tr : TickHistory K} {t₀ : K}
    (h : AttendedRun adapterOf cfg env ((tr₁ ++ tr) ++ [a]) s)
    (hling : Lingers cfg a.pre x t₀ (tr.countP fun e => decide (ExpiredTick cfg t₀ e)))
    (hnot : ¬ Decodes a.out x) :
    Lingers cfg s x t₀ ((tr ++ [a]).countP fun e => decide (ExpiredTick cfg t₀ e)) := by
  obtain ⟨hrun, -, hclock⟩ := h.snoc_inv
  obtain ⟨k, e, he, hid, hle, hcount⟩ := hling
  rw [List.countP_append, List.countP_singleton]
  rcases h.last with ⟨hnone, hbuf⟩ | ⟨hsome, s₁, call, hroom, hemit, hset⟩
  · have hexp : ¬ ExpiredTick cfg t₀ a := fun h => h.1 hnone
    refine ⟨k, e, hbuf ▸ he, hid, hle, ?_⟩
    rw [hbuf]
    simpa [hexp] using hcount
  · have he₁ : e ∈ s₁.buffer.queue k := by
      rw [hroom.prepared.queue_eq]
      exact List.mem_append_left _ he
    obtain ⟨hstay, hshort⟩ := hroom.lingers hemit hset he₁ hle fun hd => hnot (hid ▸ hd)
    refine ⟨k, e, hstay, hid, hle, ?_⟩
    rcases hcount with hzero | ⟨hone, hlen⟩
    · by_cases hexp : ExpiredTick cfg t₀ a
      · exact .inr ⟨by simp [hzero, hexp], hshort hexp.2⟩
      · exact .inl (by simp [hzero, hexp])
    · exfalso
      obtain ⟨e', he', hexp⟩ := List.countP_pos_iff.mp (hone ▸ Nat.one_pos)
      replace hexp := of_decide_eq_true hexp
      have hpast : e'.label.clock.formBatch ≤ a.label.clock.formBatch := by
        refine (List.pairwise_append.mp hclock).2.2 _ ?_ _ (by simp [TickInput.readings])
        exact List.mem_flatMap.mpr ⟨e', List.mem_append_right _ he',
          by simp [TickInput.readings]⟩
      obtain ⟨hW, hslo⟩ := Prod.mk.inj hset
      refine hnot (hid ▸ hroom.decodes_of_short hrun.holding.waiting hemit he ?_ ?_)
      · exact hlen.trans_eq hW.symm
      · rw [show s₁.buffer.ttftSlo = cfg.ttftSloMs / 1000 from hslo]
        exact hexp.2.trans (sub_le_sub hpast hle)

end Bound

/-! ## Nothing is lost -/

section Kept

variable {adapterOf : ℕ → String} {cfg : Config K} {env : Env K}
  {s : AlignmentAwareScheduler K} {tr₁ tr₂ : TickHistory K}
  {a : Event (AlignmentAwareScheduler K) (TickInput K) (List SequenceGroup)}

/-- **Nothing is lost** in an attended run: the budget of every tick covers the buffer
at its dispatch, and every sequence a tick offers decodes in it or waits in
the queue of its adapter; in PI mode it may have decoded before. -/
theorem attended_run_keeps (h : AttendedRun adapterOf cfg env (tr₁ ++ a :: tr₂) s) :
    (∀ s₁ call, a.label.sel.decodeGroups ≠ [] →
        a.pre.countCall.prepareTick cfg env a.label = .ok (s₁, call) →
        s₁.buffer.totalQueued ≤ a.label.sel.decodeGroups.length)
      ∧ ∀ g ∈ a.label.sel.decodeGroups, Decodes a.out g.seqGroupId
        ∨ g.seqGroupId ∈ a.post.buffer.seqIds g.adapterId
        ∨ cfg.mode = .piAdaptive ∧ ∃ e ∈ tr₁, Decodes e.out g.seqGroupId := by
  have hupto := h.upto
  have hmem : a ∈ tr₁ ++ [a] := by simp
  obtain ⟨hrun, -, hclock⟩ := hupto.snoc_inv
  constructor
  · intro s₁ call hsome hprep
    exact (hupto.roomy hsome hprep).budget
  · intro g hg
    obtain ⟨-, s₁, call, hroom, hemit, -⟩ := hupto.last.resolve_left fun hnone =>
      List.not_mem_nil (hnone.1 ▸ hg)
    rcases hrun.holding.offered hroom hclock (hupto.fixed a hmem) hemit hg with
      hd | hpi | ⟨e, he, hid, -⟩
    · exact .inl hd
    · exact .inr (.inr hpi)
    · by_cases hd : Decodes a.out e.1
      · exact .inl (hid ▸ hd)
      · exact .inr (.inl (List.mem_map.mpr ⟨e, (hroom.stays hemit he hd).2, hid⟩))

end Kept

/-! ### Two sequences that are held for one tick -/

/-- The step of `Config.default` that offers sequences 1 and 2 at time `t`. -/
def offerBoth (t : ℚ) : TickInput ℚ :=
  sampleTick t [sampleGroup 1 "a" false, sampleGroup 2 "b" false] nodup_oneTwo

theorem offerBoth_attended :
    ∃ a b c s, AttendedRun (fun x => if x = 1 then "a" else "b") (Config.default .threshold)
        sampleEnv [a, b, c] s
      ∧ [a, b, c].map Event.label = [offerBoth 0, offerBoth 1, offerBoth 2] := by
  have hfix : ∀ i ∈ [offerBoth 0, offerBoth 1, offerBoth 2],
      i.FixedAdapter fun x => if x = 1 then "a" else "b" := by
    unfold TickInput.FixedAdapter
    decide
  obtain ⟨tr, s, hexec, hlabels, hatt⟩ := exists_run (Config.default .threshold) sampleEnv
    [offerBoth 0, offerBoth 1, offerBoth 2] (fun e => decide (Attended e.pre e.label))
    (l := [true, true, true]) (by decide +kernel)
  have hclock : clockReadings tr = [offerBoth 0, offerBoth 1, offerBoth 2].flatMap
      TickInput.readings := by
    rw [← hlabels, List.flatMap_map]
    rfl
  have hlen : tr.length = 3 := by simpa using congrArg List.length hlabels
  obtain ⟨a, b, c, rfl⟩ := List.length_eq_three.mp hlen
  refine ⟨a, b, c, s, ⟨hexec, fun e he => ?_, fun e he => ?_, ?_⟩, hlabels⟩
  · exact hfix e.label (hlabels ▸ List.mem_map.mpr ⟨e, he, rfl⟩)
  · have hmem : decide (Attended e.pre e.label) ∈ [true, true, true] :=
      hatt ▸ List.mem_map.mpr ⟨e, he, rfl⟩
    simpa using hmem
  · rw [hclock]
    decide +kernel

/-- Nothing is lost of the offer of the first tick. -/
theorem offerBoth_kept :
    ∃ a b c s, AttendedRun (fun x => if x = 1 then "a" else "b") (Config.default .threshold)
        sampleEnv [a, b, c] s ∧ ∀ g ∈ a.label.sel.decodeGroups, Decodes a.out g.seqGroupId
          ∨ g.seqGroupId ∈ a.post.buffer.seqIds g.adapterId := by
  obtain ⟨a, b, c, s, hrun, -⟩ := offerBoth_attended
  refine ⟨a, b, c, s, hrun, fun g hg => ?_⟩
  have happ : AttendedRun _ _ _ ([] ++ a :: [b, c]) s := hrun
  rcases (attended_run_keeps happ).2 g hg with hd | hq | ⟨hpi, -⟩
  · exact .inl hd
  · exact .inr hq
  · cases hpi

end AlignmentAwareScheduler

end AdapterSlots
