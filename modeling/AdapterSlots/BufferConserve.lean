import Mathlib.Data.List.Count
import AdapterSlots.BufferRun

/-!
# The buffer conserves tokens

Every accepted `enqueue` puts one token into the buffer, and the token
stays in `Q_k` or `Q_k'` until a batch returns it. The step lemma
`Step.count_eq` says so for one operation and one pair `(k, s)`;
`Step.balanced` is the same fact for the cumulative counters. Both are
carried through a run by induction on its history.
-/

namespace AdapterSlots

open Lib

namespace AlignmentBuffer

variable {K : Type}

/-- The sequence ids waiting in `Q_k`, oldest position first. -/
def seqIds (b : AlignmentBuffer K) (k : String) : List ℕ := (b.queue k).map Prod.fst

def totalQueued (b : AlignmentBuffer K) : ℕ := b.queues.sumBy List.length

def totalHeld (b : AlignmentBuffer K) : ℕ := b.shadow.sumBy List.length

/-! ## Counting one token -/

theorem map_fst_withoutSeq (q : List (ℕ × K)) (s : ℕ) :
    (withoutSeq q s).map Prod.fst = (q.map Prod.fst).erase s := by
  rw [withoutSeq, List.erase_eq_eraseP', List.eraseP_map]
  rfl

theorem count_tokens (b : AlignmentBuffer K) (blk : Block) (k : String) (s : ℕ) :
    (pairs (tokens b blk)).count (k, s)
      = if blk.adapter = k then (((b.queue k).take blk.n).map Prod.fst).count s else 0 := by
  have hmap : pairs (tokens b blk)
      = (((b.queue blk.adapter).take blk.n).map Prod.fst).map (Prod.mk blk.adapter) := by
    simp [pairs, tokens, Function.comp_def]
  rw [hmap]
  split
  · rename_i heq
    subst heq
    exact List.count_map_of_injective _ _ (Prod.mk_right_injective _) s
  · rename_i hne
    refine List.count_eq_zero.mpr fun hmem => ?_
    obtain ⟨s', -, heq⟩ := List.mem_map.mp hmem
    exact hne (congrArg Prod.fst heq)

/-- A batch contains what was taken from each queue. -/
theorem count_batch (t : K) (k : String) (s : ℕ) : ∀ (P : List Block) (b : AlignmentBuffer K),
    (pairs (emitted t b P)).count (k, s)
      = (((b.queue k).take (taken P k)).map Prod.fst).count s
  | [], b => by simp [pairs, taken, emitted]
  | blk :: P, b => by
      have ih := count_batch t k s P (popBlock t b blk)
      have hsplit : pairs (emitted t b (blk :: P))
          = pairs (tokens b blk) ++ pairs (emitted t (popBlock t b blk) P) := by
        simp [pairs, emitted]
      rw [hsplit, List.count_append, count_tokens, ih, popBlock, queue_popChunk, taken]
      by_cases heq : blk.adapter = k
      · subst heq
        rw [if_pos rfl, if_pos rfl, if_pos rfl, List.take_add, List.map_append,
          List.count_append]
      · rw [if_neg heq, if_neg heq, if_neg heq, Nat.zero_add, Nat.zero_add]

/-- What a call adds to the accepted enqueues of `(k, s)`. -/
def BufferCall.accepts (call : BufferCall K) (b : AlignmentBuffer K) (k : String) (s : ℕ) : ℕ :=
  match call with
  | .enqueue k' s' _ => if k' = k ∧ s' = s ∧ s' ∉ b.seqEnqueue then 1 else 0
  | _ => 0

section Count

variable [Field K] [LinearOrder K] {b b' : AlignmentBuffer K} {call : BufferCall K}
  {batch : List (String × ℕ)}

omit [Field K] [LinearOrder K] in
theorem count_enqueue (hb : b.Registered) (k' : String) (s' : ℕ) (t : K) (k : String) (s : ℕ) :
    ((b.enqueue k' s' t).seqIds k).count s + ((b.enqueue k' s' t).held k).count s
      = (b.seqIds k).count s + (b.held k).count s
        + (BufferCall.enqueue k' s' t).accepts b k s := by
  rw [held_enqueue hb, BufferCall.accepts]
  by_cases hs : s' ∈ b.seqEnqueue
  · simp [enqueue_of_recorded hs, hs]
  · rw [seqIds, queue_enqueue hs, seqIds]
    by_cases hk : k' = k
    · subst hk
      by_cases hss : s' = s
      · subst hss
        simp [hs]
        omega
      · simp [hss]
    · simp [hk]

omit [Field K] [LinearOrder K] in
/-- Holding moves one occurrence from `Q_k` to `Q_k'`. -/
theorem count_preemptAndHold (b : AlignmentBuffer K) (k' : String) (s' : ℕ) (k : String) (s : ℕ) :
    ((b.preemptAndHold k' s').seqIds k).count s + ((b.preemptAndHold k' s').held k).count s
      = (b.seqIds k).count s + (b.held k).count s := by
  rw [seqIds, queue_preemptAndHold, held_preemptAndHold]
  by_cases hk : k' = k ∧ s' ∉ b.held k'
  · obtain ⟨rfl, hs⟩ := hk
    simp only [hs, not_false_eq_true, and_true, if_true, true_and, map_fst_withoutSeq]
    by_cases hmem : s' ∈ (b.queue k').map Prod.fst
    · rw [if_pos hmem, List.count_append, seqIds, List.count_erase]
      by_cases hss : s' = s
      · subst hss
        have := List.count_pos_iff.mpr hmem
        simp
        omega
      · simp [hss]
    · rw [if_neg hmem, List.erase_of_not_mem hmem, seqIds]
  · rw [if_neg hk, if_neg fun h => hk ⟨h.1, h.2.1⟩, seqIds]

omit [Field K] in
/-- Resuming moves it back. -/
theorem count_resumeFromShadow (hb : b.Registered) (k' : String) (s' : ℕ) (t : K) (k : String)
    (s : ℕ) :
    ((b.resumeFromShadow k' s' t).seqIds k).count s
        + ((b.resumeFromShadow k' s' t).held k).count s
      = (b.seqIds k).count s + (b.held k).count s := by
  by_cases hs : s' ∈ b.held k'
  · rw [seqIds, queue_resumeFromShadow hb hs, held_resumeFromShadow hb hs]
    by_cases hk : k' = k
    · subst hk
      rw [if_pos rfl, if_pos rfl, List.map_cons, List.count_cons, List.count_erase, seqIds]
      by_cases hss : s' = s
      · subst hss
        have := List.count_pos_iff.mpr hs
        simp
        omega
      · simp [hss]
    · rw [if_neg hk, if_neg hk, seqIds]
  · rw [resumeFromShadow_of_not_held hs]

/-- A dispatch moves the head of `Q_k` into the batch. -/
theorem count_apply (b : AlignmentBuffer K) (c : DispatchCall K) (m : Option ℤ) (t : K)
    (k : String) (s : ℕ) :
    ((c.apply b m t).1.seqIds k).count s + ((c.apply b m t).1.held k).count s
        + (c.apply b m t).2.count (k, s)
      = (b.seqIds k).count s + (b.held k).count s := by
  have hbatch : (c.apply b m t).2 = pairs (emitted t b (c.plan b m t)) := by
    rw [c.apply_eq_plan]
  have hheld : (c.apply b m t).1.held k = b.held k := by
    rw [held, held, shadow_apply]
  have hcut : ((b.queue k).map Prod.fst).count s
      = (((b.queue k).take (taken (c.plan b m t) k)).map Prod.fst).count s
        + (((b.queue k).drop (taken (c.plan b m t) k)).map Prod.fst).count s := by
    rw [← List.count_append, ← List.map_append, List.take_append_drop]
  rw [seqIds, queue_apply, hheld, hbatch, count_batch t k s, seqIds, hcut]
  omega

/-- One operation moves the tokens of `(k, s)` but neither makes nor loses
one: what is in `Q_k`, in `Q_k'` and in the returned batch is what was there
before plus what the call accepted. -/
theorem BufferCall.Step.count_eq (hb : b.Registered)
    (h : Step b call batch b') (k : String) (s : ℕ) :
    (b'.seqIds k).count s + (b'.held k).count s + batch.count (k, s)
      = (b.seqIds k).count s + (b.held k).count s + call.accepts b k s := by
  cases call with
  | registerAdapter k' =>
      obtain ⟨rfl, rfl⟩ := Prod.mk.inj h
      simp [seqIds, held_registerAdapter hb, accepts]
  | enqueue k' s' t =>
      obtain ⟨rfl, rfl⟩ := Prod.mk.inj h
      exact count_enqueue hb k' s' t k s
  | preemptAndHold k' s' =>
      obtain ⟨rfl, rfl⟩ := Prod.mk.inj h
      exact count_preemptAndHold b k' s' k s
  | resumeFromShadow k' s' t =>
      obtain ⟨rfl, rfl⟩ := Prod.mk.inj h
      exact count_resumeFromShadow hb k' s' t k s
  | formBatch c m t =>
      obtain ⟨rfl, rfl⟩ := Prod.mk.inj h
      exact count_apply b c m t k s
  | release | resetStats =>
      obtain ⟨rfl, rfl⟩ := Prod.mk.inj h
      rfl

end Count

/-! ## The cumulative counters -/

theorem sumBy_insert_queue (b : AlignmentBuffer K) (k : String) (q : List (ℕ × K)) :
    (b.queues.insert k q).sumBy List.length + (b.queue k).length
      = b.totalQueued + q.length := by
  have h := Dict.sumBy_insert List.length b.queues k q
  rw [queue, Dict.getD]
  cases hg : b.queues.get? k with
  | none => rwa [hg] at h
  | some q' => rwa [hg] at h

theorem sumBy_insert_held (b : AlignmentBuffer K) (k : String) (l : List ℕ) :
    (b.shadow.insert k l).sumBy List.length + (b.held k).length = b.totalHeld + l.length := by
  have h := Dict.sumBy_insert List.length b.shadow k l
  rw [held, Dict.getD]
  cases hg : b.shadow.get? k with
  | none => rwa [hg] at h
  | some l' => rwa [hg] at h

theorem totalQueued_popBlocks (t : K) : ∀ (P : List Block) (b : AlignmentBuffer K),
    Fits t b P → (P.foldl (popBlock t) b).totalQueued + (P.map Block.n).sum = b.totalQueued
  | [], _, _ => rfl
  | blk :: P, b, ⟨_, hle, hfit⟩ => by
      have ih := totalQueued_popBlocks t P (popBlock t b blk) hfit
      have hpop : (popBlock t b blk).totalQueued + (b.queue blk.adapter).length
          = b.totalQueued + ((b.queue blk.adapter).drop blk.n).length :=
        sumBy_insert_queue b blk.adapter _
      rw [List.length_drop] at hpop
      rw [List.foldl_cons, List.map_cons, List.sum_cons]
      omega

theorem totals_registerAdapter {b : AlignmentBuffer K} (hb : b.Registered) (k : String) :
    (b.registerAdapter k).totalQueued = b.totalQueued
      ∧ (b.registerAdapter k).totalHeld = b.totalHeld := by
  unfold registerAdapter
  split
  · exact ⟨rfl, rfl⟩
  · rename_i hk
    have hq := sumBy_insert_queue b k []
    have hh := sumBy_insert_held b k []
    rw [queue_of_not_mem hk] at hq
    rw [hb.held k hk] at hh
    exact ⟨hq, hh⟩

/-- Everything enqueued and not yet dispatched is in a queue. -/
def Balanced (b : AlignmentBuffer K) : Prop :=
  b.nTokensEnqueued = b.nTokensDispatched + b.totalQueued + b.totalHeld

theorem Balanced.enqueue {b : AlignmentBuffer K} (hb : b.Registered) (hbal : b.Balanced)
    (k : String) (s : ℕ) (t : K) : (b.enqueue k s t).Balanced := by
  by_cases hs : s ∈ b.seqEnqueue
  · rwa [enqueue_of_recorded hs]
  · have hcounts : (b.registerAdapter k).nTokensEnqueued = b.nTokensEnqueued
        ∧ (b.registerAdapter k).nTokensDispatched = b.nTokensDispatched := by
      unfold registerAdapter
      split <;> exact ⟨rfl, rfl⟩
    obtain ⟨hq, hh⟩ := totals_registerAdapter hb k
    have hins := sumBy_insert_queue (b.registerAdapter k) k
      ((b.registerAdapter k).queue k ++ [(s, t)])
    rw [List.length_append, List.length_singleton, hq] at hins
    rw [enqueue_of_new hs]
    show (b.registerAdapter k).nTokensEnqueued + 1 = (b.registerAdapter k).nTokensDispatched
      + ((b.registerAdapter k).queues.insert k _).sumBy List.length
      + (b.registerAdapter k).totalHeld
    rw [hcounts.1, hcounts.2, hh]
    unfold Balanced at hbal
    omega

theorem totalHeld_ensureShadow (b : AlignmentBuffer K) (k : String) :
    (b.ensureShadow k).totalHeld = b.totalHeld := by
  have h := sumBy_insert_held b k []
  unfold ensureShadow Dict.setDefault
  split
  · rfl
  · rename_i hk
    rw [held, Dict.getD, Dict.get?_eq_none.mpr hk] at h
    exact h

theorem Balanced.preemptAndHold {b : AlignmentBuffer K} (hbal : b.Balanced) (k : String)
    (s : ℕ) : (b.preemptAndHold k s).Balanced := by
  have hens : (b.ensureShadow k).Balanced := by
    unfold Balanced at hbal ⊢
    rw [totalHeld_ensureShadow]
    exact hbal
  unfold AlignmentBuffer.preemptAndHold
  split
  · exact hbal
  · split
    · exact hens
    · rcases holdEntry_cases (b.ensureShadow k) k s with ⟨-, heq⟩ | ⟨t, hmem, heq⟩
      · have hq := sumBy_insert_queue (b.ensureShadow k) k ((b.ensureShadow k).queue k)
        rw [heq]
        show (b.ensureShadow k).nTokensEnqueued = (b.ensureShadow k).nTokensDispatched
          + ((b.ensureShadow k).queues.insert k _).sumBy List.length + (b.ensureShadow k).totalHeld
        unfold Balanced at hens
        omega
      · have hq := sumBy_insert_queue (b.ensureShadow k) k
          (withoutSeq ((b.ensureShadow k).queue k) s)
        have hh := sumBy_insert_held (b.ensureShadow k) k ((b.ensureShadow k).held k ++ [s])
        have hlen : (withoutSeq ((b.ensureShadow k).queue k) s).length + 1
            = ((b.ensureShadow k).queue k).length := by
          have hin : s ∈ ((b.ensureShadow k).queue k).map Prod.fst :=
            List.mem_map.mpr ⟨_, hmem, rfl⟩
          have := List.length_erase_add_one hin
          rwa [← map_fst_withoutSeq, List.length_map, List.length_map] at this
        rw [List.length_append, List.length_singleton] at hh
        rw [heq]
        show (b.ensureShadow k).nTokensEnqueued = (b.ensureShadow k).nTokensDispatched
          + ((b.ensureShadow k).queues.insert k _).sumBy List.length
          + ((b.ensureShadow k).shadow.insert k _).sumBy List.length
        unfold Balanced at hens
        omega

section Balance

variable [LinearOrder K] {b b' : AlignmentBuffer K}

theorem Balanced.resumeFromShadow (hb : b.Registered) (hbal : b.Balanced) (k : String) (s : ℕ)
    (t : K) : (b.resumeFromShadow k s t).Balanced := by
  by_cases hs : s ∈ b.held k
  · have hq := sumBy_insert_queue b k ((s, b.shadowTime.getD s t) :: b.queue k)
    have hh := sumBy_insert_held b k ((b.held k).erase s)
    have hlen := List.length_erase_add_one hs
    rw [List.length_cons] at hq
    rw [resumeFromShadow_of_held hb hs]
    show b.nTokensEnqueued = b.nTokensDispatched
      + (b.queues.insert k ((s, b.shadowTime.getD s t) :: b.queue k)).sumBy List.length
      + (b.shadow.insert k ((b.held k).erase s)).sumBy List.length
    unfold Balanced at hbal
    omega
  · rwa [resumeFromShadow_of_not_held hs]

variable [Field K]

theorem Balanced.apply (c : DispatchCall K) (hbal : b.Balanced) (m : Option ℤ) (t : K) :
    (c.apply b m t).1.Balanced := by
  have htot := totalQueued_popBlocks t _ b (c.fits_plan b m t)
  obtain ⟨hsh, -, -, henq, hdisp⟩ := popBlocks_frame t (c.plan b m t) b
  rw [c.apply_eq_plan]
  unfold Balanced totalHeld at hbal ⊢
  simp only [hsh, henq, hdisp]
  omega

theorem BufferCall.Step.balanced {call : BufferCall K} {batch : List (String × ℕ)}
    (hb : b.Registered) (hreset : call ≠ .resetStats)
    (h : Step b call batch b') (hbal : b.Balanced) : b'.Balanced := by
  cases call with
  | registerAdapter k =>
      obtain ⟨rfl, -⟩ := Prod.mk.inj h
      obtain ⟨hq, hh⟩ := totals_registerAdapter hb k
      unfold Balanced at hbal ⊢
      rw [hq, hh]
      unfold AlignmentBuffer.registerAdapter
      split <;> exact hbal
  | enqueue k s t =>
      obtain ⟨rfl, -⟩ := Prod.mk.inj h
      exact hbal.enqueue hb k s t
  | release s =>
      obtain ⟨rfl, -⟩ := Prod.mk.inj h
      exact hbal
  | preemptAndHold k s =>
      obtain ⟨rfl, -⟩ := Prod.mk.inj h
      exact hbal.preemptAndHold k s
  | resumeFromShadow k s t =>
      obtain ⟨rfl, -⟩ := Prod.mk.inj h
      exact hbal.resumeFromShadow hb k s t
  | formBatch c m t =>
      obtain rfl := congrArg Prod.fst h
      exact hbal.apply c m t
  | resetStats => exact absurd rfl hreset

end Balance

/-! ## Whole runs -/

section Run

variable [Field K] [LinearOrder K]

/-- A history of calls with the batches they returned. -/
abbrev History (K : Type) :=
  List (Event (AlignmentBuffer K) (BufferCall K) (List (String × ℕ)))

/-- Accepted `enqueue(k, s)` calls of a history. -/
def acceptedEnqueues (k : String) (s : ℕ) (tr : History K) : ℕ :=
  (tr.map fun e => e.label.accepts e.pre k s).sum

/-- How often `(k, s)` appeared in a returned batch. -/
def timesDispatched (k : String) (s : ℕ) (tr : History K) : ℕ :=
  (tr.map fun e => e.out.count (k, s)).sum

variable {adapters : List String} {W : ℕ} {hW : 0 < W} {tmaxMs sloMs : K} {tr : History K}
  {b : AlignmentBuffer K}

theorem registered_of_run
    (h : Exec BufferCall.Step (init adapters W hW tmaxMs sloMs) tr b) :
    b.Registered ∧ ∀ e ∈ tr, e.pre.Registered ∧ e.post.Registered :=
  h.invariant Registered (fun _ _ => True) (fun _ _ _ _ hb _ hstep => hstep.registered hb)
    (registered_init ..) fun _ _ => trivial

/-- **Conservation.** In every run from an empty buffer, an accepted enqueue
of `(k, s)` is matched by one occurrence of `s` in `Q_k`, in `Q_k'` or in a
returned batch; and as long as the counters are not reset, the difference
of the two counters is the number of tokens in the buffer. -/
theorem buffer_conserves_tokens
    (h : Exec BufferCall.Step (init adapters W hW tmaxMs sloMs) tr b) :
    (∀ k s, acceptedEnqueues k s tr
        = (b.seqIds k).count s + (b.held k).count s + timesDispatched k s tr)
      ∧ ((∀ e ∈ tr, e.label ≠ .resetStats) →
        (b.nTokensEnqueued : ℤ) - b.nTokensDispatched = b.totalQueued + b.totalHeld) := by
  constructor
  · intro k s
    induction h with
    | nil =>
        simp [acceptedEnqueues, timesDispatched, seqIds, queue_init, held_init]
    | @snoc tr b b' call batch hpath hstep ih =>
        have hcount := hstep.count_eq (registered_of_run hpath).1 k s
        simp only [acceptedEnqueues, timesDispatched, List.map_append, List.map_cons,
          List.map_nil, List.sum_append, List.sum_cons, List.sum_nil] at ih ⊢
        omega
  · intro hreset
    have hinit : (init adapters W hW tmaxMs sloMs).Balanced := by
      have hq : (init adapters W hW tmaxMs sloMs).totalQueued = 0 :=
        Dict.sumBy_eq_zero fun k q hget => by
          have := queue_init adapters W hW tmaxMs sloMs k
          rw [queue, Dict.getD, hget] at this
          exact congrArg List.length this
      have hh : (init adapters W hW tmaxMs sloMs).totalHeld = 0 :=
        Dict.sumBy_eq_zero fun k l hget => by
          have := held_init adapters W hW tmaxMs sloMs k
          rw [held, Dict.getD, hget] at this
          exact congrArg List.length this
      unfold Balanced
      rw [hq, hh]
      rfl
    have hbal := (h.invariant (fun b => b.Registered ∧ b.Balanced)
      (fun _ call => call ≠ .resetStats)
      (fun _ _ _ _ hb hc hstep => ⟨hstep.registered hb.1, hstep.balanced hb.1 hc hb.2⟩)
      ⟨registered_init .., hinit⟩ hreset).1.2
    unfold Balanced at hbal
    omega

/-- Two tokens of one adapter, one of them held while the other times out and
leaves, then resumed. -/
def holdAndResume : List (BufferCall ℚ) :=
  [.enqueue "a" 1 0, .enqueue "a" 2 1, .preemptAndHold "a" 1, .formBatch .threshold (some 8) 3,
    .resumeFromShadow "a" 1 4]

theorem holdAndResume_conserves :
    acceptedEnqueues "a" 2 (history BufferCall.apply (init [] 4 (by decide) 5 200) holdAndResume)
        = timesDispatched "a" 2
            (history BufferCall.apply (init [] 4 (by decide) 5 200) holdAndResume)
      ∧ ((final BufferCall.apply (init [] 4 (by decide) 5 200) holdAndResume).nTokensEnqueued : ℤ)
          - (final BufferCall.apply (init [] 4 (by decide) 5 200) holdAndResume).nTokensDispatched
          = 1 := by
  have hreset : ∀ call ∈ holdAndResume, call ≠ .resetStats := by
    simp [holdAndResume]
  have h := buffer_conserves_tokens
    (exec_history BufferCall.apply holdAndResume (init [] 4 (by decide) 5 200))
  refine ⟨(h.1 "a" 2).trans ?_, (h.2 fun e he => hreset _ (label_mem_of_history e he)).trans ?_⟩
  · decide +kernel
  · decide +kernel

end Run

end AlignmentBuffer

end AdapterSlots
