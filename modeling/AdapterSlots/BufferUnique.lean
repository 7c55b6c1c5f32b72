import AdapterSlots.BufferConserve

/-!
# A sequence is buffered at most once

`enqueue` refuses a sequence that has an enqueue record, and
`preempt_and_hold` removes the record of the sequence it holds. Between
the hold and the resumption a second `enqueue` of the same sequence is
therefore accepted, and the sequence is in `Q_k` and in `Q_k'` at once.

That is the only way to buffer a sequence twice. `OnceBuffered` is the
invariant of the runs without it: queued sequences have a record, held
ones have none, so an accepted `enqueue` finds the sequence nowhere.
`Dispatched` carries a dispatched sequence to its release.
-/

namespace AdapterSlots

open Lib

namespace AlignmentBuffer

variable {K : Type}

/-- How often `s` occurs in all main and shadow queues together. -/
def occurrences (b : AlignmentBuffer K) (s : ℕ) : ℕ :=
  (b.queues.sumBy fun q => (q.map Prod.fst).count s) + b.shadow.sumBy fun l => l.count s

/-- A call that keeps to its callers' discipline: every sequence has one
adapter, and only a sequence in no queue is released. -/
def BufferCall.Disciplined (adapterOf : ℕ → String) (b : AlignmentBuffer K) :
    BufferCall K → Prop
  | .enqueue k s _ => k = adapterOf s
  | .preemptAndHold k s => k = adapterOf s
  | .resumeFromShadow k s _ => k = adapterOf s
  | .release s => b.occurrences s = 0
  | _ => True

/-- The call does not enqueue a held sequence. -/
def BufferCall.SparesHeld (b : AlignmentBuffer K) : BufferCall K → Prop
  | .enqueue k s _ => s ∉ b.held k
  | _ => True

/-- Each sequence occurs at most once, under its own adapter; queued sequences
have an enqueue record and held sequences have none. -/
structure OnceBuffered (adapterOf : ℕ → String) (b : AlignmentBuffer K) : Prop where
  registered : b.Registered
  placed : ∀ k s, 0 < (b.seqIds k).count s + (b.held k).count s → k = adapterOf s
  once : ∀ k s, (b.seqIds k).count s + (b.held k).count s ≤ 1
  recorded : ∀ k s, s ∈ b.seqIds k → s ∈ b.seqEnqueue
  unrecorded : ∀ k s, s ∈ b.held k → s ∉ b.seqEnqueue

section Occurrences

variable {b : AlignmentBuffer K}

theorem count_of_get?_queues {k : String} {q : List (ℕ × K)} (h : b.queues.get? k = some q)
    (s : ℕ) : (q.map Prod.fst).count s = (b.seqIds k).count s := by
  rw [seqIds, queue, Dict.getD, h]
  rfl

theorem count_of_get?_shadow {k : String} {l : List ℕ} (h : b.shadow.get? k = some l)
    (s : ℕ) : l.count s = (b.held k).count s := by
  rw [held, Dict.getD, h]
  rfl

/-- When `s` occurs under one adapter only, that adapter's counts are all of them. -/
theorem occurrences_eq {k : String} {s : ℕ}
    (h : ∀ k', 0 < (b.seqIds k').count s + (b.held k').count s → k' = k) :
    b.occurrences s = (b.seqIds k).count s + (b.held k).count s := by
  have hq := Dict.sumBy_eq_get? (f := fun q => (q.map Prod.fst).count s) (d := b.queues) (k := k)
    fun k' q hget hne => by
      rw [count_of_get?_queues hget]
      by_contra hpos
      exact hne (h k' (by omega))
  have hh := Dict.sumBy_eq_get? (f := fun l => l.count s) (d := b.shadow) (k := k)
    fun k' l hget hne => by
      rw [count_of_get?_shadow hget]
      by_contra hpos
      exact hne (h k' (by omega))
  rw [occurrences, hq, hh, seqIds, held, queue, Dict.getD, Dict.getD]
  cases b.queues.get? k <;> cases b.shadow.get? k <;> rfl

theorem le_occurrences (k : String) (s : ℕ) :
    (b.seqIds k).count s + (b.held k).count s ≤ b.occurrences s := by
  have hq := Dict.sumBy_insert (fun q : List (ℕ × K) => (q.map Prod.fst).count s) b.queues k []
  have hh := Dict.sumBy_insert (fun l : List ℕ => l.count s) b.shadow k []
  rw [occurrences, seqIds, held, queue, Dict.getD, Dict.getD]
  cases hg : b.queues.get? k <;> cases hg' : b.shadow.get? k <;>
    simp only [hg, hg', Option.elim, List.map_nil, List.count_nil, Option.getD] at hq hh ⊢ <;>
    omega

end Occurrences

namespace OnceBuffered

variable {adapterOf : ℕ → String} {b : AlignmentBuffer K}

theorem occurrences_eq (hb : b.OnceBuffered adapterOf) (s : ℕ) :
    b.occurrences s
      = (b.seqIds (adapterOf s)).count s + (b.held (adapterOf s)).count s :=
  AlignmentBuffer.occurrences_eq fun k' h => hb.placed k' s h

theorem occurrences_le (hb : b.OnceBuffered adapterOf) (s : ℕ) : b.occurrences s ≤ 1 :=
  hb.occurrences_eq s ▸ hb.once (adapterOf s) s

theorem count_eq_zero (hb : b.OnceBuffered adapterOf) {k : String} {s : ℕ}
    (hs : s ∉ b.seqEnqueue) (hh : s ∉ b.held k) :
    (b.seqIds k).count s + (b.held k).count s = 0 := by
  rw [List.count_eq_zero.mpr fun h => hs (hb.recorded k s h), List.count_eq_zero.mpr hh]

/-- A held sequence that is enqueued is buffered twice. -/
theorem two_of_enqueue_held (hb : b.OnceBuffered adapterOf) {k : String} {s : ℕ}
    (t : K) (hs : s ∈ b.held k) : 2 ≤ (b.enqueue k s t).occurrences s := by
  have hnew := hb.unrecorded k s hs
  have hq : s ∈ (b.enqueue k s t).seqIds k := by
    rw [seqIds, queue_enqueue hnew, if_pos rfl]
    simp
  have hh : s ∈ (b.enqueue k s t).held k := by
    rwa [held_enqueue hb.registered]
  have := List.count_pos_iff.mpr hq
  have := List.count_pos_iff.mpr hh
  have := (b.enqueue k s t).le_occurrences k s
  omega

theorem init [Field K] (adapters : List String) (W : ℕ) (hW : 0 < W) (tmaxMs sloMs : K) :
    (init adapters W hW tmaxMs sloMs).OnceBuffered adapterOf := by
  have hq : ∀ k, (AlignmentBuffer.init adapters W hW tmaxMs sloMs).seqIds k = [] := by
    intro k
    rw [seqIds, queue_init, List.map_nil]
  have hh := held_init adapters W hW tmaxMs sloMs
  refine ⟨registered_init .., fun k s h => ?_, fun k s => ?_, fun k s h => ?_, fun k s h => ?_⟩
  · rw [hq, hh] at h
    exact absurd h (Nat.lt_irrefl 0)
  · rw [hq, hh]
    exact Nat.zero_le 1
  · rw [hq] at h
    cases h
  · rw [hh] at h
    cases h

end OnceBuffered

/-! ## One step -/

section Step

variable {adapterOf : ℕ → String} {b b' : AlignmentBuffer K} {call : BufferCall K}
  {batch : List (String × ℕ)}

open BufferCall

theorem BufferCall.accepts_pos {k : String} {s : ℕ} (h : 0 < call.accepts b k s) :
    call.accepts b k s = 1 ∧ ∃ t, call = .enqueue k s t ∧ s ∉ b.seqEnqueue := by
  cases call with
  | enqueue k' s' t =>
      rw [accepts] at h ⊢
      split at h
      · rename_i hacc
        obtain ⟨rfl, rfl, hs⟩ := hacc
        exact ⟨if_pos ⟨rfl, rfl, hs⟩, t, rfl, hs⟩
      · exact absurd h (Nat.lt_irrefl 0)
  | registerAdapter | release | preemptAndHold | resumeFromShadow | formBatch | resetStats =>
      exact absurd h (Nat.lt_irrefl 0)

variable [Field K] [LinearOrder K]

/-- The counting half of the invariant, from the conservation of tokens. -/
theorem OnceBuffered.step_counts (hb : b.OnceBuffered adapterOf)
    (hd : call.Disciplined adapterOf b) (hs : call.SparesHeld b) (h : Step b call batch b')
    (k : String) (s : ℕ) :
    (0 < (b'.seqIds k).count s + (b'.held k).count s → k = adapterOf s)
      ∧ (b'.seqIds k).count s + (b'.held k).count s ≤ 1 := by
  have hcount := h.count_eq hb.registered k s
  have honce := hb.once k s
  by_cases hacc : 0 < call.accepts b k s
  · obtain ⟨hone, t, rfl, hnew⟩ := accepts_pos hacc
    have hzero := hb.count_eq_zero hnew hs
    exact ⟨fun _ => hd, by omega⟩
  · exact ⟨fun hpos => hb.placed k s (by omega), by omega⟩

/-- A sequence in a main queue and in a shadow queue would be counted twice. -/
theorem OnceBuffered.step_apart (hb : b.OnceBuffered adapterOf)
    (hd : call.Disciplined adapterOf b) (hs : call.SparesHeld b) (h : Step b call batch b')
    {k : String} {s : ℕ} (hq : s ∈ b'.seqIds k) (k' : String) : s ∉ b'.held k' := by
  intro hh
  have hcounts := hb.step_counts hd hs h
  have hpos := List.count_pos_iff.mpr hq
  have hpos' := List.count_pos_iff.mpr hh
  obtain rfl : k = k' :=
    ((hcounts k s).1 (by omega)).trans ((hcounts k' s).1 (by omega)).symm
  have := (hcounts k s).2
  omega

/-! ### Where a queued or held sequence was before a call -/

omit [Field K] [LinearOrder K] in
theorem mem_seqIds_of_enqueue {k k' : String} {s s' : ℕ} {t : K}
    (h : s ∈ (b.enqueue k' s' t).seqIds k) : s = s' ∨ s ∈ b.seqIds k := by
  obtain ⟨e, he, rfl⟩ := List.mem_map.mp h
  rcases mem_queue_of_enqueue he with he | rfl
  · exact .inr (List.mem_map.mpr ⟨e, he, rfl⟩)
  · exact .inl rfl

omit [Field K] [LinearOrder K] in
theorem mem_seqIds_of_preemptAndHold {k k' : String} {s s' : ℕ}
    (h : s ∈ (b.preemptAndHold k' s').seqIds k) : s ∈ b.seqIds k := by
  obtain ⟨e, he, rfl⟩ := List.mem_map.mp h
  exact List.mem_map.mpr ⟨e, mem_queue_of_preemptAndHold he, rfl⟩

omit [Field K] in
theorem mem_seqIds_of_resumeFromShadow (hb : b.Registered) {k k' : String} {s s' : ℕ} {t : K}
    (hheld : s' ∈ b.held k') (h : s ∈ (b.resumeFromShadow k' s' t).seqIds k) :
    s = s' ∨ s ∈ b.seqIds k := by
  obtain ⟨e, he, rfl⟩ := List.mem_map.mp h
  rcases mem_queue_of_resumeFromShadow hb hheld he with he | rfl
  · exact .inr (List.mem_map.mpr ⟨e, he, rfl⟩)
  · exact .inl rfl

omit [Field K] in
theorem mem_held_of_resumeFromShadow (hb : b.Registered) {k k' : String} {s s' : ℕ} {t : K}
    (hheld : s' ∈ b.held k') (h : s ∈ (b.resumeFromShadow k' s' t).held k) : s ∈ b.held k := by
  rw [held_resumeFromShadow hb hheld] at h
  split at h
  · rename_i hk
    exact hk ▸ List.mem_of_mem_erase h
  · exact h

theorem OnceBuffered.step_recorded (hb : b.OnceBuffered adapterOf)
    (hd : call.Disciplined adapterOf b) (hs : call.SparesHeld b) (h : Step b call batch b')
    {k : String} {s : ℕ} (hq : s ∈ b'.seqIds k) : s ∈ b'.seqEnqueue := by
  cases call with
  | registerAdapter k' =>
      obtain ⟨rfl, rfl⟩ := Prod.mk.inj h
      rw [seqEnqueue_registerAdapter]
      exact hb.recorded k s (by rwa [seqIds, queue_registerAdapter] at hq)
  | enqueue k' s' t =>
      obtain ⟨rfl, rfl⟩ := Prod.mk.inj h
      rw [mem_seqEnqueue_enqueue]
      exact (mem_seqIds_of_enqueue hq).imp_right (hb.recorded k s)
  | release s' =>
      obtain ⟨rfl, rfl⟩ := Prod.mk.inj h
      refine Dict.mem_erase.mpr ⟨hb.recorded k s hq, fun heq => ?_⟩
      have hzero : b.occurrences s' = 0 := hd
      have hle := b.le_occurrences k s'
      have hpos := List.count_pos_iff.mpr (heq ▸ hq : s' ∈ b.seqIds k)
      omega
  | preemptAndHold k' s' =>
      obtain ⟨rfl, rfl⟩ := Prod.mk.inj h
      refine mem_seqEnqueue_preemptAndHold.mpr
        ⟨hb.recorded k s (mem_seqIds_of_preemptAndHold hq), ?_⟩
      -- the sequence just held is in the shadow queue, hence in no main queue
      rintro ⟨rfl, hnot, hmem⟩
      refine hb.step_apart hd hs h hq k' ?_
      rw [held_preemptAndHold, if_pos ⟨rfl, hnot, hmem⟩]
      exact List.mem_append_right _ (List.mem_singleton_self s)
  | resumeFromShadow k' s' t =>
      obtain ⟨rfl, rfl⟩ := Prod.mk.inj h
      by_cases hheld : s' ∈ b.held k'
      · rw [mem_seqEnqueue_resumeFromShadow hb.registered hheld]
        exact (mem_seqIds_of_resumeFromShadow hb.registered hheld hq).imp_right (hb.recorded k s)
      · rw [resumeFromShadow_of_not_held hheld] at hq ⊢
        exact hb.recorded k s hq
  | formBatch c m t =>
      obtain rfl := congrArg Prod.fst h
      change s ∈ ((c.apply b m t).1.queue k).map Prod.fst at hq
      show s ∈ (c.apply b m t).1.seqEnqueue
      rw [queue_apply] at hq
      rw [seqEnqueue_apply]
      exact hb.recorded k s (((List.drop_sublist ..).map _).subset hq)
  | resetStats =>
      obtain ⟨rfl, rfl⟩ := Prod.mk.inj h
      exact hb.recorded k s hq

theorem OnceBuffered.step_unrecorded (hb : b.OnceBuffered adapterOf)
    (hd : call.Disciplined adapterOf b) (hs : call.SparesHeld b) (h : Step b call batch b')
    {k : String} {s : ℕ} (hh : s ∈ b'.held k) : s ∉ b'.seqEnqueue := by
  cases call with
  | registerAdapter k' =>
      obtain ⟨rfl, rfl⟩ := Prod.mk.inj h
      rw [seqEnqueue_registerAdapter]
      exact hb.unrecorded k s (by rwa [held_registerAdapter hb.registered] at hh)
  | enqueue k' s' t =>
      obtain ⟨rfl, rfl⟩ := Prod.mk.inj h
      rw [held_enqueue hb.registered] at hh
      rw [mem_seqEnqueue_enqueue]
      rintro (rfl | hrec)
      · obtain rfl : k = k' := by
          rw [hb.placed k s (Nat.add_pos_right _ (List.count_pos_iff.mpr hh))]
          exact Eq.symm hd
        exact hs hh
      · exact hb.unrecorded k s hh hrec
  | release s' =>
      obtain ⟨rfl, rfl⟩ := Prod.mk.inj h
      exact fun hrec => hb.unrecorded k s hh (Dict.mem_erase.mp hrec).1
  | preemptAndHold k' s' =>
      obtain ⟨rfl, rfl⟩ := Prod.mk.inj h
      rw [mem_seqEnqueue_preemptAndHold]
      rintro ⟨hrec, hnot⟩
      rw [held_preemptAndHold] at hh
      split at hh
      · rename_i hk
        rcases List.mem_append.mp hh with hh | hh
        · exact hb.unrecorded k' s hh hrec
        · exact hnot ⟨List.mem_singleton.mp hh, hk.2⟩
      · exact hb.unrecorded k s hh hrec
  | resumeFromShadow k' s' t =>
      obtain ⟨rfl, rfl⟩ := Prod.mk.inj h
      by_cases hheld : s' ∈ b.held k'
      · rw [mem_seqEnqueue_resumeFromShadow hb.registered hheld]
        rintro (rfl | hrec)
        · -- the sequence resumed is in its main queue, hence no longer held
          refine hb.step_apart hd hs h (k := k') ?_ k hh
          rw [seqIds, queue_resumeFromShadow hb.registered hheld, if_pos rfl]
          exact List.mem_cons_self ..
        · exact hb.unrecorded k s (mem_held_of_resumeFromShadow hb.registered hheld hh) hrec
      · rw [resumeFromShadow_of_not_held hheld] at hh ⊢
        exact hb.unrecorded k s hh
  | formBatch c m t =>
      obtain rfl := congrArg Prod.fst h
      change s ∈ (c.apply b m t).1.shadow.getD k [] at hh
      show s ∉ (c.apply b m t).1.seqEnqueue
      rw [shadow_apply] at hh
      rw [seqEnqueue_apply]
      exact hb.unrecorded k s hh
  | resetStats =>
      obtain ⟨rfl, rfl⟩ := Prod.mk.inj h
      exact hb.unrecorded k s hh

theorem OnceBuffered.step (hb : b.OnceBuffered adapterOf)
    (hd : call.Disciplined adapterOf b) (hs : call.SparesHeld b) (h : Step b call batch b') :
    b'.OnceBuffered adapterOf where
  registered := h.registered hb.registered
  placed k s := (hb.step_counts hd hs h k s).1
  once k s := (hb.step_counts hd hs h k s).2
  recorded _ _ := hb.step_recorded hd hs h
  unrecorded _ _ := hb.step_unrecorded hd hs h

/-! ## From a batch to the release -/

/-- `s` has left the buffer in a batch and its record is still there. -/
def Dispatched (b : AlignmentBuffer K) (s : ℕ) : Prop :=
  s ∈ b.seqEnqueue ∧ b.occurrences s = 0

/-- A batch takes its tokens from the queues and leaves the records. -/
theorem BufferCall.Step.mem_batch {k : String} {s : ℕ} (h : Step b call batch b')
    (hmem : (k, s) ∈ batch) : s ∈ b.seqIds k ∧ b'.seqEnqueue = b.seqEnqueue := by
  cases call with
  | formBatch c m t =>
      obtain ⟨rfl, rfl⟩ := Prod.mk.inj h
      refine ⟨?_, seqEnqueue_apply c b m t⟩
      have hpos : 0 < (pairs (emitted t b (c.plan b m t))).count (k, s) := by
        change (k, s) ∈ (c.apply b m t).2 at hmem
        rw [c.apply_eq_plan] at hmem
        exact List.count_pos_iff.mpr hmem
      rw [count_batch] at hpos
      exact ((List.take_sublist ..).map _).subset (List.count_pos_iff.mp hpos)
  | registerAdapter | enqueue | release | preemptAndHold | resumeFromShadow | resetStats =>
      obtain ⟨-, rfl⟩ := Prod.mk.inj h
      cases hmem

theorem OnceBuffered.dispatched_of_batch (hb : b.OnceBuffered adapterOf)
    (hb' : b'.OnceBuffered adapterOf) (h : Step b call batch b') {k : String} {s : ℕ}
    (hmem : (k, s) ∈ batch) : b'.Dispatched s := by
  obtain ⟨hq, hrec⟩ := h.mem_batch hmem
  refine ⟨hrec ▸ hb.recorded k s hq, ?_⟩
  have hk : k = adapterOf s :=
    hb.placed k s (Nat.add_pos_left (List.count_pos_iff.mpr hq) _)
  have hacc : call.accepts b k s = 0 := Nat.eq_zero_of_not_pos fun hpos => by
    obtain ⟨-, t, -, hnew⟩ := accepts_pos hpos
    exact hnew (hb.recorded k s hq)
  have hcount := h.count_eq hb.registered k s
  have honce := hb.once k s
  have hbatch := List.count_pos_iff.mpr hmem
  rw [hb'.occurrences_eq, ← hk]
  omega

theorem Dispatched.not_mem_batch {s : ℕ} (hs : b.Dispatched s)
    (h : Step b call batch b') (k : String) : (k, s) ∉ batch := by
  intro hmem
  have hq := List.count_pos_iff.mpr (h.mem_batch hmem).1
  have := b.le_occurrences k s
  have := hs.2
  omega

/-- Only `release(s)` takes the record of a dispatched sequence. -/
theorem Dispatched.step_recorded (hb : b.OnceBuffered adapterOf) {s : ℕ} (hs : b.Dispatched s)
    (hne : call ≠ .release s) (h : Step b call batch b') : s ∈ b'.seqEnqueue := by
  obtain ⟨hrec, hzero⟩ := hs
  cases call with
  | registerAdapter k' =>
      obtain ⟨rfl, rfl⟩ := Prod.mk.inj h
      rwa [seqEnqueue_registerAdapter]
  | enqueue k' s' t =>
      obtain ⟨rfl, rfl⟩ := Prod.mk.inj h
      exact mem_seqEnqueue_enqueue.mpr (.inr hrec)
  | release s' =>
      obtain ⟨rfl, rfl⟩ := Prod.mk.inj h
      exact Dict.mem_erase.mpr ⟨hrec, fun heq => hne (heq ▸ rfl)⟩
  | preemptAndHold k' s' =>
      obtain ⟨rfl, rfl⟩ := Prod.mk.inj h
      refine mem_seqEnqueue_preemptAndHold.mpr ⟨hrec, ?_⟩
      rintro ⟨rfl, -, hmem⟩
      have hq : s ∈ b.seqIds k' := hmem
      have := List.count_pos_iff.mpr hq
      have := b.le_occurrences k' s
      omega
  | resumeFromShadow k' s' t =>
      obtain ⟨rfl, rfl⟩ := Prod.mk.inj h
      by_cases hheld : s' ∈ b.held k'
      · exact (mem_seqEnqueue_resumeFromShadow hb.registered hheld).mpr (.inr hrec)
      · rwa [resumeFromShadow_of_not_held hheld]
  | formBatch c m t =>
      obtain rfl := congrArg Prod.fst h
      exact (seqEnqueue_apply c b m t).symm ▸ hrec
  | resetStats =>
      obtain ⟨rfl, rfl⟩ := Prod.mk.inj h
      exact hrec

/-- Only `release(s)` undoes the dispatch of `s`. -/
theorem Dispatched.step (hb : b.OnceBuffered adapterOf) (hb' : b'.OnceBuffered adapterOf)
    {s : ℕ} (hs : b.Dispatched s) (hne : call ≠ .release s) (h : Step b call batch b') :
    b'.Dispatched s := by
  refine ⟨hs.step_recorded hb hne h, ?_⟩
  -- a recorded sequence is not accepted again
  have hacc : call.accepts b (adapterOf s) s = 0 := Nat.eq_zero_of_not_pos fun hpos => by
    obtain ⟨-, t, -, hnew⟩ := accepts_pos hpos
    exact hnew hs.1
  have hzero := hs.2
  have hcount := h.count_eq hb.registered (adapterOf s) s
  have hle := b.le_occurrences (adapterOf s) s
  rw [hb'.occurrences_eq]
  omega

end Step

/-! ## Whole runs -/

section Run

variable [Field K] [LinearOrder K]

/-- Between two batches that contain `s` the history has a `release(s)`. -/
def ReleasedBetween (tr : History K) : Prop :=
  ∀ tr₁ e tr₂ f tr₃ k k' s, tr = tr₁ ++ e :: (tr₂ ++ f :: tr₃) →
    (k, s) ∈ e.out → (k', s) ∈ f.out → ∃ g ∈ tr₂, g.label = .release s

variable {adapters : List String} {W : ℕ} {hW : 0 < W} {tmaxMs sloMs : K} {tr : History K}
  {b : AlignmentBuffer K} {adapterOf : ℕ → String}

theorem onceBuffered_of_run
    (h : Exec BufferCall.Step (init adapters W hW tmaxMs sloMs) tr b)
    (hd : ∀ e ∈ tr, e.label.Disciplined adapterOf e.pre)
    (hs : ∀ e ∈ tr, e.label.SparesHeld e.pre) :
    b.OnceBuffered adapterOf
      ∧ ∀ e ∈ tr, e.pre.OnceBuffered adapterOf ∧ e.post.OnceBuffered adapterOf :=
  h.invariant (OnceBuffered adapterOf)
    (fun b call => call.Disciplined adapterOf b ∧ call.SparesHeld b)
    (fun _ _ _ _ hb hc hstep => hb.step hc.1 hc.2 hstep) (OnceBuffered.init ..)
    fun e he => ⟨hd e he, hs e he⟩

/-- After a batch with `s`, and as long as nothing releases `s`, it stays
dispatched and no batch contains it. -/
theorem releasedBetween_of_run
    (h : Exec BufferCall.Step (init adapters W hW tmaxMs sloMs) tr b)
    (hd : ∀ e ∈ tr, e.label.Disciplined adapterOf e.pre)
    (hs : ∀ e ∈ tr, e.label.SparesHeld e.pre) : ReleasedBetween tr := by
  intro tr₁ e tr₂ f tr₃ k k' s heq he hf
  obtain ⟨-, hinv⟩ := onceBuffered_of_run h hd hs
  have hmem : e ∈ tr := heq ▸ List.mem_append_right _ (List.mem_cons_self ..)
  have hsub : ∀ g ∈ tr₂ ++ f :: tr₃, g ∈ tr := fun g hg =>
    heq ▸ List.mem_append_right _ (List.mem_cons_of_mem _ hg)
  obtain ⟨hpre, hpost⟩ := hinv e hmem
  have hafter := h.after_event heq
  have hfmem : f ∈ tr := hsub f (List.mem_append_right _ (List.mem_cons_self ..))
  have hdisp : e.post.Dispatched s := hpre.dispatched_of_batch hpost (h.step_of_mem e hmem) he
  by_contra hnone
  push Not at hnone
  have hmid := (hafter.before_event rfl).invariant
    (fun b => b.OnceBuffered adapterOf ∧ b.Dispatched s)
    (fun b call => (call.Disciplined adapterOf b ∧ call.SparesHeld b) ∧ call ≠ .release s)
    (fun _ _ _ _ hb hc hstep => by
      have hb' := hb.1.step hc.1.1 hc.1.2 hstep
      exact ⟨hb', hb.2.step hb.1 hb' hc.2 hstep⟩)
    ⟨hpost, hdisp⟩ fun g hg => by
      have hgtr := hsub g (List.mem_append_left _ hg)
      exact ⟨⟨hd g hgtr, hs g hgtr⟩, hnone g hg⟩
  exact hmid.1.2.not_mem_batch (h.step_of_mem f hfmem) k' hf

/-- **At most once.** In a run whose calls keep to the callers' discipline, no
sequence is ever buffered twice and every second batch of a sequence comes
after its release - if and only if no held sequence is enqueued. -/
theorem sequence_buffered_at_most_once
    (h : Exec BufferCall.Step (init adapters W hW tmaxMs sloMs) tr b)
    (hd : ∀ e ∈ tr, e.label.Disciplined adapterOf e.pre) :
    ((∀ s, b.occurrences s ≤ 1 ∧ ∀ e ∈ tr, e.pre.occurrences s ≤ 1) ∧ ReleasedBetween tr)
      ↔ ∀ e ∈ tr, e.label.SparesHeld e.pre := by
  constructor
  · rintro ⟨honce, -⟩
    induction h with
    | nil => exact fun e he => by cases he
    | @snoc tr b b' call batch hpath hstep ih =>
        have hlast : (⟨b, call, batch, b'⟩ : Event _ _ _) ∈ tr ++ [⟨b, call, batch, b'⟩] :=
          List.mem_append_right _ (List.mem_cons_self ..)
        have hd' := fun e he => hd e (List.mem_append_left _ he)
        have hsafe := ih hd' fun s =>
          ⟨(honce s).2 _ hlast, fun e he => (honce s).2 e (List.mem_append_left _ he)⟩
        intro e he
        rcases List.mem_append.mp he with he | he
        · exact hsafe e he
        · obtain rfl := List.mem_singleton.mp he
          cases call with
          | enqueue k s t =>
              intro hheld
              obtain ⟨rfl, -⟩ := Prod.mk.inj hstep
              have htwo := (onceBuffered_of_run hpath hd' hsafe).1.two_of_enqueue_held t hheld
              have := (honce s).1
              omega
          | registerAdapter | release | preemptAndHold | resumeFromShadow | formBatch
            | resetStats => trivial
  · intro hs
    obtain ⟨hb, hinv⟩ := onceBuffered_of_run h hd hs
    exact ⟨fun s => ⟨hb.occurrences_le s, fun e he => (hinv e he).1.occurrences_le s⟩,
      releasedBetween_of_run h hd hs⟩

/-- A sequence held and resumed, dispatched, released and offered again. -/
def holdResumeRelease : List (BufferCall ℚ) :=
  [.enqueue "a" 1 0, .preemptAndHold "a" 1, .resumeFromShadow "a" 1 1,
    .formBatch .threshold (some 8) 2, .release 1, .enqueue "a" 1 3]

theorem holdResumeRelease_at_most_once :
    (final BufferCall.apply (init [] 4 (by decide) 5 200) holdResumeRelease).occurrences 1 ≤ 1 := by
  have hd : ∀ e ∈ history BufferCall.apply (init [] 4 (by decide) (5 : ℚ) 200) holdResumeRelease,
      e.label.Disciplined (fun _ => "a") e.pre := by
    simp only [holdResumeRelease, history, List.forall_mem_cons, List.not_mem_nil,
      false_imp_iff, implies_true, BufferCall.Disciplined, and_true, true_and]
    decide +kernel
  have hs : ∀ e ∈ history BufferCall.apply (init [] 4 (by decide) (5 : ℚ) 200) holdResumeRelease,
      e.label.SparesHeld e.pre := by
    simp only [holdResumeRelease, history, List.forall_mem_cons, List.not_mem_nil,
      false_imp_iff, implies_true, BufferCall.SparesHeld, and_true, true_and]
    decide +kernel
  exact (((sequence_buffered_at_most_once
    (exec_history BufferCall.apply holdResumeRelease (init [] 4 (by decide) 5 200)) hd).mpr
      hs).1 1).1

/-- A held sequence offered again. -/
def enqueueWhileHeld : List (BufferCall ℚ) :=
  [.enqueue "a" 1 0, .preemptAndHold "a" 1, .enqueue "a" 1 1]

theorem enqueueWhileHeld_twice :
    (∀ e ∈ history BufferCall.apply (init [] 4 (by decide) (5 : ℚ) 200) enqueueWhileHeld,
        e.label.Disciplined (fun _ => "a") e.pre)
      ∧ ¬ (final BufferCall.apply (init [] 4 (by decide) (5 : ℚ) 200)
          enqueueWhileHeld).occurrences 1 ≤ 1 := by
  refine ⟨?_, ?_⟩
  · simp [enqueueWhileHeld, history, BufferCall.Disciplined]
  · decide +kernel

end Run

end AlignmentBuffer

end AdapterSlots
