import AdapterSlots.Lib.Exec
import AdapterSlots.BufferDispatch

/-!
# Runs of the buffer

The public operations of the buffer as labels of a step relation
(`BufferCall.Step`), and what one step does to the fields the invariants
read: the queues, the shadow queues, the enqueue records and the time of
the oldest token.

`Registered` is the background invariant: an adapter that was never
registered has no held tokens and no oldest time. It is what makes
`register_adapter`, which overwrites the shadow queue of a new adapter,
harmless.
-/

namespace AdapterSlots

open Lib

namespace AlignmentBuffer

variable {K : Type}

/-! ## Fields of the operations -/

/-- Adapters without a queue have no other data either. -/
structure Registered (b : AlignmentBuffer K) : Prop where
  held : ∀ k, k ∉ b.queues → b.held k = []
  oldest : ∀ k, k ∉ b.queues → b.oldest k = none

theorem Registered.mem_of_held {b : AlignmentBuffer K} (hb : b.Registered) {k : String} {s : ℕ}
    (hs : s ∈ b.held k) : k ∈ b.queues := by
  by_contra hk
  rw [hb.held k hk] at hs
  cases hs

theorem held_insert (b : AlignmentBuffer K) (k k' : String) (l : List ℕ) :
    ({ b with shadow := b.shadow.insert k l } : AlignmentBuffer K).held k'
      = if k = k' then l else b.held k' := by
  rw [held, Dict.getD, Dict.get?_insert]
  split <;> rfl

theorem oldest_insert (b : AlignmentBuffer K) (k k' : String) (o : Option K) :
    ({ b with enqueueTime := b.enqueueTime.insert k o } : AlignmentBuffer K).oldest k'
      = if k = k' then o else b.oldest k' := by
  rw [oldest, Dict.get?_insert]
  split <;> rfl

theorem held_registerAdapter {b : AlignmentBuffer K} (hb : b.Registered) (k k' : String) :
    (b.registerAdapter k).held k' = b.held k' := by
  unfold registerAdapter
  split
  · rfl
  · rename_i hk
    rw [held, Dict.getD, Dict.get?_insert]
    split
    · rename_i heq
      rw [← heq, hb.held k hk]
      rfl
    · rfl

theorem oldest_registerAdapter {b : AlignmentBuffer K} (hb : b.Registered) (k k' : String) :
    (b.registerAdapter k).oldest k' = b.oldest k' := by
  unfold registerAdapter
  split
  · rfl
  · rename_i hk
    rw [oldest, Dict.get?_insert]
    split
    · rename_i heq
      rw [← heq, hb.oldest k hk]
      rfl
    · rfl

theorem Registered.registerAdapter {b : AlignmentBuffer K} (hb : b.Registered) (k : String) :
    (b.registerAdapter k).Registered where
  held k' hk' := by
    rw [held_registerAdapter hb]
    exact hb.held k' fun h => hk' ((mem_queues_registerAdapter b).mpr (Or.inr h))
  oldest k' hk' := by
    rw [oldest_registerAdapter hb]
    exact hb.oldest k' fun h => hk' ((mem_queues_registerAdapter b).mpr (Or.inr h))

section Enqueue

variable {b : AlignmentBuffer K} {k : String} {s : ℕ} {t : K}

theorem oldest_appendToken (k' : String) :
    (b.appendToken k s t).oldest k'
      = if k = k' ∧ b.oldest k = none then some t else b.oldest k' := by
  unfold appendToken
  by_cases ho : b.oldest k = none
  · simp only [ho, if_true, and_true]
    exact oldest_insert b k k' (some t)
  · simp only [ho, if_false, and_false]
    rfl

theorem enqueue_of_recorded (hs : s ∈ b.seqEnqueue) : b.enqueue k s t = b := by
  rw [enqueue, if_pos hs]

theorem enqueue_of_new (hs : s ∉ b.seqEnqueue) :
    b.enqueue k s t = (b.registerAdapter k).appendToken k s t := by
  rw [enqueue, if_neg hs]

theorem queue_enqueue (hs : s ∉ b.seqEnqueue) (k' : String) :
    (b.enqueue k s t).queue k' = if k = k' then b.queue k ++ [(s, t)] else b.queue k' := by
  rw [enqueue_of_new hs, ← queue_registerAdapter b k k, ← queue_registerAdapter b k k']
  exact queue_insert (b.registerAdapter k) k k' _

theorem mem_queue_of_enqueue {k' : String} {e : ℕ × K} (h : e ∈ (b.enqueue k s t).queue k') :
    e ∈ b.queue k' ∨ e = (s, t) := by
  by_cases hs : s ∈ b.seqEnqueue
  · rw [enqueue_of_recorded hs] at h
    exact .inl h
  · rw [queue_enqueue hs] at h
    split at h
    · rename_i hk
      exact (List.mem_append.mp (hk ▸ h)).imp_right List.mem_singleton.mp
    · exact .inl h

theorem mem_seqEnqueue_enqueue {s' : ℕ} :
    s' ∈ (b.enqueue k s t).seqEnqueue ↔ s' = s ∨ s' ∈ b.seqEnqueue := by
  by_cases hs : s ∈ b.seqEnqueue
  · rw [enqueue_of_recorded hs]
    exact ⟨Or.inr, fun h => h.elim (fun heq => heq ▸ hs) id⟩
  · rw [enqueue_of_new hs, ← seqEnqueue_registerAdapter b k]
    exact Dict.mem_insert

theorem held_enqueue (hb : b.Registered) (k' : String) :
    (b.enqueue k s t).held k' = b.held k' := by
  by_cases hs : s ∈ b.seqEnqueue
  · rw [enqueue_of_recorded hs]
  · rw [enqueue_of_new hs]
    exact held_registerAdapter hb k k'

theorem oldest_enqueue (hb : b.Registered) (hs : s ∉ b.seqEnqueue) (k' : String) :
    (b.enqueue k s t).oldest k'
      = if k = k' ∧ b.oldest k = none then some t else b.oldest k' := by
  rw [enqueue_of_new hs, oldest_appendToken, oldest_registerAdapter hb, oldest_registerAdapter hb]

theorem mem_queues_enqueue {k' : String} :
    k' ∈ (b.enqueue k s t).queues ↔ (k' = k ∧ s ∉ b.seqEnqueue) ∨ k' ∈ b.queues := by
  by_cases hs : s ∈ b.seqEnqueue
  · simp [enqueue_of_recorded hs, hs]
  · rw [enqueue_of_new hs, appendToken, Dict.mem_insert, mem_queues_registerAdapter]
    tauto

theorem Registered.enqueue (hb : b.Registered) : (b.enqueue k s t).Registered where
  held k' hk' := by
    rw [held_enqueue hb]
    exact hb.held k' fun h => hk' (mem_queues_enqueue.mpr (Or.inr h))
  oldest k' hk' := by
    have hk : k' ∉ b.queues := fun h => hk' (mem_queues_enqueue.mpr (Or.inr h))
    by_cases hs : s ∈ b.seqEnqueue
    · rw [enqueue_of_recorded hs]
      exact hb.oldest k' hk
    · have hne : k ≠ k' := fun h => hk' (mem_queues_enqueue.mpr (Or.inl ⟨h.symm, hs⟩))
      rw [oldest_enqueue hb hs, if_neg fun h => hne h.1]
      exact hb.oldest k' hk

end Enqueue

section Hold

variable {b : AlignmentBuffer K} {k : String} {s : ℕ}

theorem queue_setQueue (k' : String) (q : List (ℕ × K)) :
    (b.setQueue k q).queue k' = if k = k' then q else b.queue k' :=
  queue_insert b k k' q

theorem oldest_setQueue (k' : String) (q : List (ℕ × K)) :
    (b.setQueue k q).oldest k' = if k = k' then q.head?.map Prod.snd else b.oldest k' :=
  oldest_insert b k k' _

@[simp] theorem held_ensureShadow (k' : String) : (b.ensureShadow k).held k' = b.held k' :=
  Dict.getD_setDefault b.shadow k k' []

@[simp] theorem queue_ensureShadow (k' : String) : (b.ensureShadow k).queue k' = b.queue k' := rfl

@[simp] theorem oldest_ensureShadow (k' : String) : (b.ensureShadow k).oldest k' = b.oldest k' :=
  rfl

@[simp] theorem seqEnqueue_ensureShadow : (b.ensureShadow k).seqEnqueue = b.seqEnqueue := rfl

theorem holdEntry_cases (b : AlignmentBuffer K) (k : String) (s : ℕ) :
    (s ∉ (b.queue k).map Prod.fst ∧ b.holdEntry k s = b.setQueue k (b.queue k))
      ∨ ∃ t, (s, t) ∈ b.queue k
        ∧ b.holdEntry k s = (b.hold k s t).setQueue k (withoutSeq (b.queue k) s) := by
  unfold holdEntry
  cases hf : (b.queue k).find? fun e => decide (e.1 = s) with
  | none =>
      refine Or.inl ⟨fun hmem => ?_, rfl⟩
      obtain ⟨e, he, hes⟩ := List.mem_map.mp hmem
      have := List.find?_eq_none.mp hf e he
      simp [hes] at this
  | some e =>
      have hes : e.1 = s := by simpa using List.find?_some hf
      exact Or.inr ⟨e.2, hes ▸ List.mem_of_find?_eq_some hf, rfl⟩

theorem withoutSeq_of_not_mem {q : List (ℕ × K)} (h : s ∉ q.map Prod.fst) :
    withoutSeq q s = q :=
  List.eraseP_of_forall_not fun e he hes =>
    h (List.mem_map.mpr ⟨e, he, of_decide_eq_true hes⟩)

theorem queue_preemptAndHold (k' : String) :
    (b.preemptAndHold k s).queue k'
      = if k = k' ∧ s ∉ b.held k then withoutSeq (b.queue k) s else b.queue k' := by
  unfold preemptAndHold
  by_cases hk : k ∉ b.queues
  · rw [if_pos hk]
    split
    · rename_i h
      rw [← h.1, queue_of_not_mem hk]
      rfl
    · rfl
  · rw [if_neg hk]
    by_cases hs : s ∈ b.held k
    · simp [hs]
    · rw [if_neg hs]
      rcases holdEntry_cases (b.ensureShadow k) k s with ⟨hnot, heq⟩ | ⟨t, -, heq⟩
      · rw [heq, queue_setQueue]
        simp only [queue_ensureShadow, hs, not_false_eq_true, and_true] at hnot ⊢
        rw [withoutSeq_of_not_mem hnot]
      · rw [heq, queue_setQueue]
        simp only [queue_ensureShadow, hs, not_false_eq_true, and_true]
        rfl

theorem mem_queue_of_preemptAndHold {k' : String} {e : ℕ × K}
    (h : e ∈ (b.preemptAndHold k s).queue k') : e ∈ b.queue k' := by
  rw [queue_preemptAndHold] at h
  split at h
  · rename_i hk
    exact hk.1 ▸ List.eraseP_sublist.subset h
  · exact h

theorem held_preemptAndHold (k' : String) :
    (b.preemptAndHold k s).held k'
      = if k = k' ∧ s ∉ b.held k ∧ s ∈ (b.queue k).map Prod.fst then b.held k ++ [s]
        else b.held k' := by
  unfold preemptAndHold
  by_cases hk : k ∉ b.queues
  · rw [if_pos hk, if_neg fun h => by
      rw [queue_of_not_mem hk] at h
      exact List.not_mem_nil h.2.2]
  · rw [if_neg hk]
    by_cases hs : s ∈ b.held k
    · simp [hs]
    · rw [if_neg hs]
      rcases holdEntry_cases (b.ensureShadow k) k s with ⟨hnot, heq⟩ | ⟨t, hmem, heq⟩
      · rw [queue_ensureShadow] at hnot
        rw [heq, if_neg fun h => hnot h.2.2]
        exact held_ensureShadow k'
      · rw [queue_ensureShadow] at hmem
        have hmem' : s ∈ (b.queue k).map Prod.fst := List.mem_map.mpr ⟨_, hmem, rfl⟩
        rw [heq]
        simp only [hs, hmem', not_false_eq_true, and_true]
        refine (held_insert _ k k' _).trans ?_
        simp only [held_ensureShadow]

theorem oldest_preemptAndHold (k' : String) :
    (b.preemptAndHold k s).oldest k'
      = if k = k' ∧ k ∈ b.queues ∧ s ∉ b.held k
        then (withoutSeq (b.queue k) s).head?.map Prod.snd else b.oldest k' := by
  unfold preemptAndHold
  by_cases hk : k ∉ b.queues
  · rw [if_pos hk, if_neg fun h => hk h.2.1]
  · rw [if_neg hk]
    by_cases hs : s ∈ b.held k
    · simp [hs]
    · rw [if_neg hs]
      rcases holdEntry_cases (b.ensureShadow k) k s with ⟨hnot, heq⟩ | ⟨t, -, heq⟩
      · rw [queue_ensureShadow] at hnot
        rw [heq, oldest_setQueue]
        simp only [not_not.mp hk, hs, not_false_eq_true, and_true, queue_ensureShadow,
          withoutSeq_of_not_mem hnot, oldest_ensureShadow]
      · rw [heq, oldest_setQueue]
        simp only [not_not.mp hk, hs, not_false_eq_true, and_true, queue_ensureShadow]
        rfl

theorem mem_seqEnqueue_preemptAndHold {s' : ℕ} :
    s' ∈ (b.preemptAndHold k s).seqEnqueue
      ↔ s' ∈ b.seqEnqueue ∧ ¬(s' = s ∧ s ∉ b.held k ∧ s ∈ (b.queue k).map Prod.fst) := by
  unfold preemptAndHold
  by_cases hk : k ∉ b.queues
  · rw [if_pos hk]
    simp [queue_of_not_mem hk]
  · rw [if_neg hk]
    by_cases hs : s ∈ b.held k
    · simp [hs]
    · rw [if_neg hs]
      rcases holdEntry_cases (b.ensureShadow k) k s with ⟨hnot, heq⟩ | ⟨t, hmem, heq⟩
      · rw [queue_ensureShadow] at hnot
        rw [heq]
        simp only [hnot, and_false, not_false_eq_true, and_true]
        exact Iff.rfl
      · rw [queue_ensureShadow] at hmem
        have hmem' : s ∈ (b.queue k).map Prod.fst := List.mem_map.mpr ⟨_, hmem, rfl⟩
        rw [heq]
        simp only [hs, hmem', not_false_eq_true, and_true]
        exact Dict.mem_erase

theorem mem_queues_preemptAndHold {k' : String} :
    k' ∈ (b.preemptAndHold k s).queues ↔ k' ∈ b.queues := by
  unfold preemptAndHold
  by_cases hk : k ∉ b.queues
  · rw [if_pos hk]
  · have hk' : k ∈ b.queues := not_not.mp hk
    have hins : ∀ q, k' ∈ b.queues.insert k q ↔ k' ∈ b.queues := by
      intro q
      rw [Dict.mem_insert]
      exact ⟨fun h => h.elim (fun heq => heq ▸ hk') id, Or.inr⟩
    rw [if_neg hk]
    split
    · rfl
    · rcases holdEntry_cases (b.ensureShadow k) k s with ⟨-, heq⟩ | ⟨t, -, heq⟩
      · rw [heq]
        exact hins _
      · rw [heq]
        exact hins _

theorem Registered.preemptAndHold (hb : b.Registered) : (b.preemptAndHold k s).Registered where
  held k' hk' := by
    have hk := fun h => hk' (mem_queues_preemptAndHold.mpr h)
    rw [held_preemptAndHold, if_neg, hb.held k' hk]
    rintro ⟨rfl, -, h⟩
    rw [queue_of_not_mem hk] at h
    cases h
  oldest k' hk' := by
    have hk := fun h => hk' (mem_queues_preemptAndHold.mpr h)
    rw [oldest_preemptAndHold, if_neg, hb.oldest k' hk]
    rintro ⟨rfl, h, -⟩
    exact hk h

end Hold

section Resume

variable [LinearOrder K] {b : AlignmentBuffer K} {k : String} {s : ℕ} {t : K}

theorem resumeFromShadow_of_not_held (hs : s ∉ b.held k) : b.resumeFromShadow k s t = b := by
  rw [resumeFromShadow, if_neg hs]

/-- For a registered adapter the call to `register_adapter` does nothing. -/
theorem resumeFromShadow_of_held (hb : b.Registered) (hs : s ∈ b.held k) :
    b.resumeFromShadow k s t = (b.unhold k s).pushHead k s (b.shadowTime.getD s t) := by
  have hk : k ∈ (b.unhold k s).queues := hb.mem_of_held hs
  rw [resumeFromShadow, if_pos hs, registerAdapter, if_pos hk]

theorem queue_resumeFromShadow (hb : b.Registered) (hs : s ∈ b.held k) (k' : String) :
    (b.resumeFromShadow k s t).queue k'
      = if k = k' then (s, b.shadowTime.getD s t) :: b.queue k else b.queue k' := by
  rw [resumeFromShadow_of_held hb hs]
  exact queue_insert (b.unhold k s) k k' _

theorem mem_queue_of_resumeFromShadow (hb : b.Registered) (hs : s ∈ b.held k) {k' : String}
    {e : ℕ × K} (h : e ∈ (b.resumeFromShadow k s t).queue k') :
    e ∈ b.queue k' ∨ e = (s, b.shadowTime.getD s t) := by
  rw [queue_resumeFromShadow hb hs] at h
  split at h
  · rename_i hk
    exact (List.mem_cons.mp (hk ▸ h)).symm
  · exact .inl h

theorem held_resumeFromShadow (hb : b.Registered) (hs : s ∈ b.held k) (k' : String) :
    (b.resumeFromShadow k s t).held k' = if k = k' then (b.held k).erase s else b.held k' := by
  rw [resumeFromShadow_of_held hb hs]
  exact held_insert b k k' _

theorem oldest_resumeFromShadow (hb : b.Registered) (hs : s ∈ b.held k) (k' : String) :
    (b.resumeFromShadow k s t).oldest k'
      = if k = k' then some (match b.oldest k with
          | none => b.shadowTime.getD s t
          | some t₀ => min t₀ (b.shadowTime.getD s t))
        else b.oldest k' := by
  rw [resumeFromShadow_of_held hb hs]
  exact oldest_insert (b.unhold k s) k k' _

theorem mem_seqEnqueue_resumeFromShadow (hb : b.Registered) (hs : s ∈ b.held k) {s' : ℕ} :
    s' ∈ (b.resumeFromShadow k s t).seqEnqueue ↔ s' = s ∨ s' ∈ b.seqEnqueue := by
  rw [resumeFromShadow_of_held hb hs]
  exact Dict.mem_insert

theorem mem_queues_resumeFromShadow (hb : b.Registered) {k' : String} :
    k' ∈ (b.resumeFromShadow k s t).queues ↔ k' ∈ b.queues := by
  by_cases hs : s ∈ b.held k
  · rw [resumeFromShadow_of_held hb hs]
    refine Dict.mem_insert.trans ⟨fun h => h.elim (fun heq => heq ▸ hb.mem_of_held hs) id, Or.inr⟩
  · rw [resumeFromShadow_of_not_held hs]

theorem Registered.resumeFromShadow (hb : b.Registered) :
    (b.resumeFromShadow k s t).Registered where
  held k' hk' := by
    have hk : k' ∉ b.queues := fun h => hk' ((mem_queues_resumeFromShadow hb).mpr h)
    by_cases hs : s ∈ b.held k
    · have hne : k ≠ k' := fun h => hk (h ▸ hb.mem_of_held hs)
      rw [held_resumeFromShadow hb hs, if_neg hne, hb.held k' hk]
    · rw [resumeFromShadow_of_not_held hs, hb.held k' hk]
  oldest k' hk' := by
    have hk : k' ∉ b.queues := fun h => hk' ((mem_queues_resumeFromShadow hb).mpr h)
    by_cases hs : s ∈ b.held k
    · have hne : k ≠ k' := fun h => hk (h ▸ hb.mem_of_held hs)
      rw [oldest_resumeFromShadow hb hs, if_neg hne, hb.oldest k' hk]
    · rw [resumeFromShadow_of_not_held hs, hb.oldest k' hk]

end Resume

theorem queue_init [Field K] (adapters : List String) (W : ℕ) (hW : 0 < W) (tmaxMs sloMs : K)
    (k : String) : (init adapters W hW tmaxMs sloMs).queue k = [] := by
  rw [queue, init, Dict.getD, Dict.get?_ofKeys]
  split <;> rfl

theorem held_init [Field K] (adapters : List String) (W : ℕ) (hW : 0 < W) (tmaxMs sloMs : K)
    (k : String) : (init adapters W hW tmaxMs sloMs).held k = [] := by
  rw [held, init, Dict.getD, Dict.get?_ofKeys]
  split <;> rfl

theorem oldest_init [Field K] (adapters : List String) (W : ℕ) (hW : 0 < W) (tmaxMs sloMs : K)
    (k : String) : (init adapters W hW tmaxMs sloMs).oldest k = none := by
  rw [oldest, init, Dict.get?_ofKeys]
  split <;> rfl

theorem registered_init [Field K] (adapters : List String) (W : ℕ) (hW : 0 < W)
    (tmaxMs sloMs : K) : (init adapters W hW tmaxMs sloMs).Registered :=
  ⟨fun k _ => held_init adapters W hW tmaxMs sloMs k,
    fun k _ => oldest_init adapters W hW tmaxMs sloMs k⟩

/-! ## The step relation -/

/-- One call of a public operation, with its clock reading where it takes one. -/
inductive BufferCall (K : Type) where
  | registerAdapter (k : String)
  | enqueue (k : String) (s : ℕ) (t : K)
  | release (s : ℕ)
  | preemptAndHold (k : String) (s : ℕ)
  | resumeFromShadow (k : String) (s : ℕ) (t : K)
  | formBatch (c : DispatchCall K) (maxTokens : Option ℤ) (t : K)
  | resetStats

namespace BufferCall

/-- The clock reading of a call. -/
def clock? : BufferCall K → Option K
  | .enqueue _ _ t => some t
  | .resumeFromShadow _ _ t => some t
  | .formBatch _ _ t => some t
  | _ => none

variable [Field K] [LinearOrder K]

/-- The state after the call and the batch it returns. -/
def apply (call : BufferCall K) (b : AlignmentBuffer K) :
    AlignmentBuffer K × List (String × ℕ) :=
  match call with
  | .registerAdapter k => (b.registerAdapter k, [])
  | .enqueue k s t => (b.enqueue k s t, [])
  | .release s => (b.release s, [])
  | .preemptAndHold k s => (b.preemptAndHold k s, [])
  | .resumeFromShadow k s t => (b.resumeFromShadow k s t, [])
  | .formBatch c m t => c.apply b m t
  | .resetStats => (b.resetStats, [])

abbrev Step : AlignmentBuffer K → BufferCall K → List (String × ℕ) → AlignmentBuffer K → Prop :=
  stepOf apply

theorem Step.registered {b b' : AlignmentBuffer K} {call : BufferCall K}
    {batch : List (String × ℕ)} (hb : b.Registered)
    (h : Step b call batch b') : b'.Registered := by
  cases call with
  | registerAdapter k =>
      obtain ⟨rfl, -⟩ := Prod.mk.inj h
      exact hb.registerAdapter k
  | enqueue k s t =>
      obtain ⟨rfl, -⟩ := Prod.mk.inj h
      exact hb.enqueue
  | release s =>
      obtain ⟨rfl, -⟩ := Prod.mk.inj h
      exact ⟨hb.held, hb.oldest⟩
  | preemptAndHold k s =>
      obtain ⟨rfl, -⟩ := Prod.mk.inj h
      exact hb.preemptAndHold
  | resumeFromShadow k s t =>
      obtain ⟨rfl, -⟩ := Prod.mk.inj h
      exact hb.resumeFromShadow
  | formBatch c m t =>
      obtain rfl := congrArg Prod.fst h
      have hmem : ∀ k, k ∈ (c.apply b m t).1.queues ↔ k ∈ b.queues := by
        intro k
        rw [Dict.mem_def, keys_apply, ← Dict.mem_def]
      refine ⟨fun k hk => ?_, fun k hk => ?_⟩
      · have : (c.apply b m t).1.held k = b.held k := by
          rw [held, held, shadow_apply]
        exact this.trans (hb.held k fun h => hk ((hmem k).mpr h))
      · refine (oldest_apply c b m t k).trans ?_
        rw [if_neg fun hin => hk ((hmem k).mpr (mem_queues_of_fits (c.fits_plan b m t) hin))]
        exact hb.oldest k fun h => hk ((hmem k).mpr h)
  | resetStats =>
      obtain ⟨rfl, -⟩ := Prod.mk.inj h
      exact ⟨hb.held, hb.oldest⟩

end BufferCall

end AlignmentBuffer

end AdapterSlots
