import AdapterSlots.BufferConserve
import AdapterSlots.BufferProgress

/-!
# The time of the oldest token

`enqueue_time[k]` is kept next to the queue and every operation restores
it with a shortcut of its own. `enqueue` and `resume_from_shadow` restore
it to the least time of the queue. The others do not always: a dispatch
and a hold read the head of what they leave, which is a least entry only
while resumed tokens come back in time order, and the scheduler's drain
leaves the old value in place while any entry is left.

`TimeCall.InOrder` is a condition on the queues before a call under which its
shortcut is right. For a hold and a drain it is exact
(`exact_preemptAndHold_iff`, `exact_drainRemaining_iff`). How many tokens a
dispatch takes depends on its other queues, so there the condition is about
every number it may take. `enqueueTime_exact` is the statement about runs.
-/

namespace AdapterSlots

open Lib

namespace AlignmentBuffer

variable {K : Type}

section Oldest

variable [LinearOrder K]

/-- What `enqueue_time` says about a queue: `none` for an empty one, else the
least time stored in it. -/
def IsOldest (q : List (ℕ × K)) : Option K → Prop
  | none => q = []
  | some t => (∃ e ∈ q, e.2 = t) ∧ ∀ e ∈ q, t ≤ e.2

/-- The first entry is a least one. -/
def HeadLeast : List (ℕ × K) → Prop
  | [] => True
  | e :: q => ∀ e' ∈ q, e.2 ≤ e'.2

instance : ∀ q : List (ℕ × K), Decidable (HeadLeast q)
  | [] => inferInstanceAs (Decidable True)
  | e :: q => inferInstanceAs (Decidable (∀ e' ∈ q, e.2 ≤ e'.2))

theorem isOldest_head : ∀ {q : List (ℕ × K)}, IsOldest q (q.head?.map Prod.snd) ↔ HeadLeast q
  | [] => by simp [IsOldest, HeadLeast]
  | e :: q => by simp [IsOldest, HeadLeast]

/-- A queue with an oldest time is empty exactly when that time is `none`. -/
theorem IsOldest.eq_nil_iff {q : List (ℕ × K)} {o : Option K} (h : IsOldest q o) :
    o = none ↔ q = [] := by
  cases o with
  | none => exact ⟨fun _ => h, fun _ => rfl⟩
  | some t =>
      refine ⟨fun hn => (Option.some_ne_none t hn).elim, fun hq => ?_⟩
      obtain ⟨⟨e, he, -⟩, -⟩ := h
      rw [hq] at he
      cases he

/-- Appending an entry that is not older than any other. -/
theorem IsOldest.append {q : List (ℕ × K)} {o : Option K} (h : IsOldest q o) {s : ℕ} {t : K}
    (ht : ∀ e ∈ q, e.2 ≤ t) : IsOldest (q ++ [(s, t)]) (some (o.getD t)) := by
  cases o with
  | none =>
      obtain rfl : q = [] := h
      simp [IsOldest]
  | some t₀ =>
      obtain ⟨⟨e, he, rfl⟩, hle⟩ := h
      refine ⟨⟨e, List.mem_append_left _ he, rfl⟩, fun e' he' => ?_⟩
      rcases List.mem_append.mp he' with he' | he'
      · exact hle e' he'
      · obtain rfl := List.mem_singleton.mp he'
        exact ht e he

/-- Putting an entry in front takes the lesser of the two times. -/
theorem IsOldest.cons {q : List (ℕ × K)} {o : Option K} (h : IsOldest q o) (s : ℕ) (t : K) :
    IsOldest ((s, t) :: q) (some (o.elim t fun t₀ => min t₀ t)) := by
  cases o with
  | none =>
      obtain rfl : q = [] := h
      simp [IsOldest]
  | some t₀ =>
      obtain ⟨⟨e, he, rfl⟩, hle⟩ := h
      refine ⟨?_, fun e' he' => ?_⟩
      · rcases le_total e.2 t with hlt | hlt
        · exact ⟨e, List.mem_cons_of_mem _ he, (min_eq_left hlt).symm⟩
        · exact ⟨(s, t), List.mem_cons_self .., (min_eq_right hlt).symm⟩
      · rcases List.mem_cons.mp he' with rfl | he'
        · exact min_le_right _ _
        · exact (min_le_left _ _).trans (hle e' he')

/-- Keeping the old time while entries are taken out is right when nothing is
left or an entry of that time stays. -/
theorem IsOldest.sublist_iff {q q' : List (ℕ × K)} {o : Option K} (h : IsOldest q o)
    (hsub : q'.Sublist q) :
    IsOldest q' (if q'.isEmpty then none else o) ↔ q' = [] ∨ ∃ e ∈ q', o = some e.2 := by
  by_cases hq' : q' = []
  · simp [hq', IsOldest]
  · rw [if_neg (by simpa using hq')]
    cases o with
    | none =>
        obtain rfl : q = [] := h
        exact absurd (List.sublist_nil.mp hsub) hq'
    | some t =>
        have hle : ∀ e ∈ q', t ≤ e.2 := fun e he => h.2 e (hsub.subset he)
        simp only [IsOldest, hq', false_or, Option.some.injEq]
        exact ⟨fun ⟨⟨e, he, heq⟩, _⟩ => ⟨e, he, heq.symm⟩,
          fun ⟨e, he, heq⟩ => ⟨⟨e, he, heq.symm⟩, hle⟩⟩

/-- `enqueue_time` is right for every adapter. -/
def Exact (b : AlignmentBuffer K) : Prop := ∀ k, IsOldest (b.queue k) (b.oldest k)

end Oldest

/-! ## The drain -/

section Drain

variable {b : AlignmentBuffer K}

/-- What is left of the queue of `k` after a drain of `remaining`. -/
def undrained (b : AlignmentBuffer K) (remaining : List (String × ℕ)) (k : String) :
    List (ℕ × K) :=
  (b.queue k).filter fun e => decide ((k, e.1) ∉ remaining)

/-- Adapters with an empty queue have no oldest time. -/
def EmptyUntimed (b : AlignmentBuffer K) : Prop := ∀ k, b.queue k = [] → b.oldest k = none

theorem oldest_drainSeq (hb : b.EmptyUntimed) (k k' : String) (s : ℕ) :
    (b.drainSeq k s).oldest k'
      = if ((b.drainSeq k s).queue k').isEmpty then none else b.oldest k' := by
  by_cases hkk : k ∈ b.queues ∧ k = k'
  · obtain ⟨hk, rfl⟩ := hkk
    rw [queue_drainSeq, if_pos rfl, drainSeq, if_pos hk]
    simp only
    split
    · exact (oldest_insert b k k none).trans (if_pos rfl)
    · rfl
  · -- the queue and the oldest time of `k'` are untouched
    have hq : (b.drainSeq k s).queue k' = b.queue k' := by
      rw [queue_drainSeq]
      split
      · rename_i heq
        rw [queue_of_not_mem fun hk' => hkk ⟨heq ▸ hk', heq⟩]
        rfl
      · rfl
    have ho : (b.drainSeq k s).oldest k' = b.oldest k' := by
      unfold drainSeq
      split
      · rename_i hk
        simp only
        split
        · exact (oldest_insert b k k' none).trans (if_neg fun heq => hkk ⟨hk, heq⟩)
        · rfl
      · rfl
    rw [hq, ho]
    split
    · rename_i hempty
      exact hb k' (List.isEmpty_iff.mp hempty)
    · rfl

theorem EmptyUntimed.drainSeq (hb : b.EmptyUntimed) (k : String) (s : ℕ) :
    (b.drainSeq k s).EmptyUntimed := by
  intro k' hk'
  rw [oldest_drainSeq hb, hk']
  rfl

theorem undrained_cons (g : String × ℕ) (gs : List (String × ℕ)) (k : String) :
    b.undrained (g :: gs) k = (b.drainSeq g.1 g.2).undrained gs k := by
  rw [undrained, undrained, queue_drainSeq]
  split
  · rename_i heq
    rw [List.filter_filter]
    refine List.filter_congr fun e _ => ?_
    have hg : (k, e.1) = g ↔ e.1 = g.2 := by
      rw [Prod.ext_iff]
      exact ⟨And.right, fun h => ⟨heq.symm, h⟩⟩
    simp only [List.mem_cons, not_or, hg, Bool.decide_and, Bool.and_comm]
  · rename_i hne
    refine List.filter_congr fun e _ => ?_
    have hg : (k, e.1) ≠ g := fun h => hne (congrArg Prod.fst h).symm
    simp [hg]

theorem drainSeqs_spec : ∀ (gs : List (String × ℕ)) (b : AlignmentBuffer K) (_ : b.EmptyUntimed)
    (k : String),
    (gs.foldl (fun b g => b.drainSeq g.1 g.2) b).queue k = b.undrained gs k
      ∧ (gs.foldl (fun b g => b.drainSeq g.1 g.2) b).oldest k
          = if (b.undrained gs k).isEmpty then none else b.oldest k
  | [], b, hb, k => by
      simp only [List.foldl_nil, undrained, List.not_mem_nil, not_false_eq_true, decide_true,
        List.filter_true, true_and]
      split
      · rename_i hempty
        exact hb k (List.isEmpty_iff.mp hempty)
      · rfl
  | g :: gs, b, hb, k => by
      obtain ⟨hq, ho⟩ := drainSeqs_spec gs (b.drainSeq g.1 g.2) (hb.drainSeq g.1 g.2) k
      rw [List.foldl_cons, hq, ho, undrained_cons]
      refine ⟨rfl, ?_⟩
      split
      · rfl
      · rename_i hne
        rw [oldest_drainSeq hb, if_neg]
        intro hempty
        rw [undrained, List.isEmpty_iff.mp hempty] at hne
        exact hne rfl

theorem drainSeqs_frame : ∀ (gs : List (String × ℕ)) (b : AlignmentBuffer K),
    (gs.foldl (fun b g => b.drainSeq g.1 g.2) b).shadow = b.shadow
      ∧ (gs.foldl (fun b g => b.drainSeq g.1 g.2) b).shadowTime = b.shadowTime
      ∧ (gs.foldl (fun b g => b.drainSeq g.1 g.2) b).queues.keys = b.queues.keys
  | [], _ => ⟨rfl, rfl, rfl⟩
  | g :: gs, b => by
      have hone : (b.drainSeq g.1 g.2).shadow = b.shadow
          ∧ (b.drainSeq g.1 g.2).shadowTime = b.shadowTime
          ∧ (b.drainSeq g.1 g.2).queues.keys = b.queues.keys := by
        unfold drainSeq
        split
        · rename_i hk
          exact ⟨rfl, rfl, Dict.keys_insert_of_mem hk _⟩
        · exact ⟨rfl, rfl, rfl⟩
      obtain ⟨h₁, h₂, h₃⟩ := drainSeqs_frame gs (b.drainSeq g.1 g.2)
      exact ⟨h₁.trans hone.1, h₂.trans hone.2.1, h₃.trans hone.2.2⟩

end Drain

/-- A drain of `remaining` takes all of `Q_k`, or leaves an entry that is no younger than any
other. -/
def SparesOldest [LinearOrder K] (b : AlignmentBuffer K) (remaining : List (String × ℕ))
    (k : String) : Prop :=
  (∀ e ∈ b.queue k, (k, e.1) ∈ remaining)
    ∨ ∃ e ∈ b.queue k, (k, e.1) ∉ remaining ∧ ∀ e' ∈ b.queue k, e.2 ≤ e'.2

/-! ## Calls with the drain -/

/-- A public operation of the buffer or the scheduler's drain. -/
inductive TimeCall (K : Type) where
  | call (c : BufferCall K)
  | drain (groups : List (String × ℕ)) (dispatchedIds : List ℕ)

namespace TimeCall

def clock? : TimeCall K → Option K
  | .call c => c.clock?
  | .drain _ _ => none

variable [Field K] [LinearOrder K]

def apply (call : TimeCall K) (b : AlignmentBuffer K) : AlignmentBuffer K × List (String × ℕ) :=
  match call with
  | .call c => c.apply b
  | .drain groups dispatchedIds => (b.drainRemaining groups dispatchedIds, [])

abbrev Step : AlignmentBuffer K → TimeCall K → List (String × ℕ) → AlignmentBuffer K → Prop :=
  stepOf apply

/-- Entries that may come to the front of a queue are no younger than those behind them: in
a hold, when the entry of the held token is gone; in a dispatch, behind any number of
tokens that the call may take. A drain takes a whole queue or spares an oldest entry. -/
def InOrder (b : AlignmentBuffer K) : TimeCall K → Prop
  | .call (.preemptAndHold k s) => s ∉ b.held k → HeadLeast (withoutSeq (b.queue k) s)
  | .call (.formBatch c m t) => ∀ k n, c.MayTake b m t k n → HeadLeast ((b.queue k).drop n)
  | .call _ => True
  | .drain groups dispatchedIds => ∀ k,
      b.SparesOldest (groups.filter fun g => decide (g.2 ∉ dispatchedIds)) k

end TimeCall

section Step

variable [Field K] [LinearOrder K] {b b' : AlignmentBuffer K} {call : TimeCall K}
  {out : List (String × ℕ)}

omit [Field K] in
theorem Exact.emptyUntimed (h : b.Exact) : b.EmptyUntimed := fun k hk =>
  (h k).eq_nil_iff.mpr hk

theorem TimeCall.Step.registered (hb : b.Registered) (hex : b.EmptyUntimed)
    (h : Step b call out b') : b'.Registered := by
  cases call with
  | call c => exact BufferCall.Step.registered hb h
  | drain gs ds =>
      obtain ⟨rfl, -⟩ := Prod.mk.inj h
      obtain ⟨hsh, -, hkeys⟩ :=
        drainSeqs_frame (gs.filter fun g => decide (g.2 ∉ ds)) b
      have hmem : ∀ k, k ∉ (b.drainRemaining gs ds).queues → k ∉ b.queues := by
        intro k hk h
        rw [Dict.mem_def] at hk h
        exact hk (hkeys ▸ h)
      refine ⟨fun k hk => ?_, fun k hk => ?_⟩
      · exact (congrArg (Dict.getD · k []) hsh).trans (hb.held k (hmem k hk))
      · obtain ⟨-, ho⟩ := drainSeqs_spec (gs.filter fun g => decide (g.2 ∉ ds)) b hex k
        refine ho.trans ?_
        split
        · rfl
        · exact hb.oldest k (hmem k hk)

/-! ### One operation, from a state whose oldest times are right -/

omit [Field K] in
theorem Exact.registerAdapter (hb : b.Registered) (hex : b.Exact) (k : String) :
    (b.registerAdapter k).Exact := by
  intro k'
  rw [queue_registerAdapter, oldest_registerAdapter hb]
  exact hex k'

omit [Field K] in
/-- The clock has passed every queued time, so a new token is not the oldest one. -/
theorem Exact.enqueue (hb : b.Registered) (hex : b.Exact) {k : String} {t : K}
    (hclock : ∀ e ∈ b.queue k, e.2 ≤ t) (s : ℕ) : (b.enqueue k s t).Exact := by
  intro k'
  by_cases hs : s ∈ b.seqEnqueue
  · rw [enqueue_of_recorded hs]
    exact hex k'
  · rw [queue_enqueue hs, oldest_enqueue hb hs]
    by_cases hk : k = k'
    · subst hk
      have happ := (hex k).append (s := s) hclock
      cases ho : b.oldest k with
      | none => simpa [ho] using happ
      | some t₀ => simpa [ho] using happ
    · rw [if_neg hk, if_neg fun h => hk h.1]
      exact hex k'

omit [Field K] in
theorem exact_preemptAndHold_iff (hex : b.Exact) (k : String) (s : ℕ) :
    (b.preemptAndHold k s).Exact ↔ (s ∉ b.held k → HeadLeast (withoutSeq (b.queue k) s)) := by
  by_cases hk : k ∈ b.queues ∧ s ∉ b.held k
  · have hself : IsOldest ((b.preemptAndHold k s).queue k)
        ((b.preemptAndHold k s).oldest k) ↔ HeadLeast (withoutSeq (b.queue k) s) := by
      rw [queue_preemptAndHold, oldest_preemptAndHold, if_pos ⟨rfl, hk.2⟩,
        if_pos ⟨rfl, hk⟩]
      exact isOldest_head
    refine ⟨fun h _ => hself.mp (h k), fun h k' => ?_⟩
    by_cases hkk : k = k'
    · exact hkk ▸ hself.mpr (h hk.2)
    · rw [queue_preemptAndHold, oldest_preemptAndHold, if_neg fun h => hkk h.1,
        if_neg fun h => hkk h.1]
      exact hex k'
  · -- nothing is taken out of a queue: `k` has none or `s` is held already
    refine iff_of_true (fun k' => ?_) fun hs => ?_
    · rw [oldest_preemptAndHold, if_neg fun h => hk h.2, queue_preemptAndHold]
      split
      · rename_i hs
        obtain ⟨rfl, hs⟩ := hs
        have hq : b.queue k = [] := queue_of_not_mem fun hmem => hk ⟨hmem, hs⟩
        have hkk := hex k
        rw [hq] at hkk ⊢
        exact hkk
      · exact hex k'
    · rw [queue_of_not_mem fun hmem => hk ⟨hmem, hs⟩]
      trivial

omit [Field K] in
theorem Exact.resumeFromShadow (hb : b.Registered) (hex : b.Exact) (k : String) (s : ℕ) (t : K) :
    (b.resumeFromShadow k s t).Exact := by
  intro k'
  by_cases hs : s ∈ b.held k
  · rw [queue_resumeFromShadow hb hs, oldest_resumeFromShadow hb hs]
    by_cases hk : k = k'
    · subst hk
      rw [if_pos rfl, if_pos rfl]
      have hcons := (hex k).cons s (b.shadowTime.getD s t)
      cases ho : b.oldest k with
      | none => rwa [ho] at hcons
      | some t₀ => rwa [ho] at hcons
    · rw [if_neg hk, if_neg hk]
      exact hex k'
  · rw [resumeFromShadow_of_not_held hs]
    exact hex k'

theorem exact_apply_iff (hex : b.Exact) (c : DispatchCall K) (m : Option ℤ) (t : K) :
    (c.apply b m t).1.Exact ↔ ∀ k, 0 < taken (c.plan b m t) k →
      HeadLeast ((b.queue k).drop (taken (c.plan b m t) k)) := by
  refine forall_congr' fun k => ?_
  rw [queue_apply, oldest_apply]
  by_cases hk : k ∈ (c.plan b m t).map Block.adapter
  · rw [if_pos hk, isOldest_head]
    exact ⟨fun h _ => h, fun h => h (taken_pos (c.fits_plan b m t) hk)⟩
  · rw [if_neg hk, taken_eq_zero hk, List.drop_zero]
    exact iff_of_true (hex k) fun h => absurd h (Nat.lt_irrefl 0)

omit [Field K] in
theorem sparesOldest_iff (hex : b.Exact) (remaining : List (String × ℕ)) (k : String) :
    b.SparesOldest remaining k ↔ b.undrained remaining k = []
      ∨ ∃ e ∈ b.undrained remaining k, b.oldest k = some e.2 := by
  have hmem : ∀ e, e ∈ b.undrained remaining k ↔ e ∈ b.queue k ∧ (k, e.1) ∉ remaining := fun e => by
    rw [undrained, List.mem_filter, decide_eq_true_eq]
  have hall : b.undrained remaining k = [] ↔ ∀ e ∈ b.queue k, (k, e.1) ∈ remaining := by
    simp only [List.eq_nil_iff_forall_not_mem, hmem, not_and, not_not]
  rw [hall]
  refine or_congr_right ⟨?_, ?_⟩
  · rintro ⟨e, he, hnot, hleast⟩
    refine ⟨e, (hmem e).mpr ⟨he, hnot⟩, ?_⟩
    have hold := hex k
    cases ho : b.oldest k with
    | none =>
        rw [(hex k).eq_nil_iff.mp ho] at he
        cases he
    | some t =>
        rw [ho] at hold
        obtain ⟨⟨e₀, he₀, rfl⟩, hle⟩ := hold
        exact congrArg some (le_antisymm (hle e he) (hleast e₀ he₀))
  · rintro ⟨e, he, ho⟩
    have hold := hex k
    rw [ho] at hold
    exact ⟨e, ((hmem e).mp he).1, ((hmem e).mp he).2, hold.2⟩

omit [Field K] in
theorem exact_drainRemaining_iff (hex : b.Exact) (gs : List (String × ℕ)) (ds : List ℕ) :
    (b.drainRemaining gs ds).Exact
      ↔ ∀ k, b.SparesOldest (gs.filter fun g => decide (g.2 ∉ ds)) k := by
  have hspec := drainSeqs_spec (gs.filter fun g => decide (g.2 ∉ ds)) b hex.emptyUntimed
  refine forall_congr' fun k => ?_
  obtain ⟨hq, ho⟩ := hspec k
  rw [drainRemaining, hq, ho, sparesOldest_iff hex]
  exact (hex k).sublist_iff (List.filter_sublist ..)

/-- One call, from a state whose oldest times are right. -/
theorem Exact.step (hb : b.Registered) (hex : b.Exact)
    (hclock : ∀ t, call.clock? = some t → ∀ k, ∀ e ∈ b.queue k, e.2 ≤ t)
    (horder : call.InOrder b) (h : TimeCall.Step b call out b') : b'.Exact := by
  obtain rfl := congrArg Prod.fst h
  cases call with
  | drain gs ds => exact (exact_drainRemaining_iff hex gs ds).mpr horder
  | call c =>
      cases c with
      | registerAdapter k => exact hex.registerAdapter hb k
      | enqueue k s t => exact hex.enqueue hb (hclock t rfl k) s
      | release s => exact hex
      | preemptAndHold k s => exact (exact_preemptAndHold_iff hex k s).mpr horder
      | resumeFromShadow k s t => exact hex.resumeFromShadow hb k s t
      | formBatch c m t =>
          refine (exact_apply_iff hex c m t).mpr fun k hpos => ?_
          exact horder k _ (DispatchCall.mayTake_taken hpos)
      | resetStats => exact hex

end Step

/-! ## Stored times come from the clock -/

section Stored

/-- A time the buffer keeps, in a queue or for a held token. -/
def IsStored (b : AlignmentBuffer K) (t : K) : Prop :=
  (∃ k, ∃ e ∈ b.queue k, e.2 = t) ∨ ∃ s, b.shadowTime.get? s = some t

theorem shadowTime_preemptAndHold (b : AlignmentBuffer K) (k : String) (s : ℕ) :
    (b.preemptAndHold k s).shadowTime = b.shadowTime
      ∨ ∃ t, (s, t) ∈ b.queue k
          ∧ (b.preemptAndHold k s).shadowTime = b.shadowTime.insert s t := by
  unfold preemptAndHold
  split
  · exact .inl rfl
  · split
    · exact .inl rfl
    · rcases holdEntry_cases (b.ensureShadow k) k s with ⟨-, heq⟩ | ⟨t, hmem, heq⟩
      · exact .inl (heq ▸ rfl)
      · exact .inr ⟨t, hmem, heq ▸ rfl⟩

variable [Field K] [LinearOrder K] {b b' : AlignmentBuffer K} {call : TimeCall K}
  {out : List (String × ℕ)}

omit [Field K] [LinearOrder K] in
theorem IsStored.of_registerAdapter {t : K} {k : String} (ht : (b.registerAdapter k).IsStored t) :
    b.IsStored t := by
  rcases ht with ⟨k', e, he, het⟩ | ⟨s, hs⟩
  · exact .inl ⟨k', e, by rwa [queue_registerAdapter] at he, het⟩
  · exact .inr ⟨s, by rwa [shadowTime_registerAdapter] at hs⟩

omit [Field K] [LinearOrder K] in
theorem IsStored.of_enqueue {t t' : K} {k : String} {s : ℕ}
    (ht : (b.enqueue k s t').IsStored t) : b.IsStored t ∨ t' = t := by
  rcases ht with ⟨k', e, he, het⟩ | ⟨s', hs'⟩
  · rcases mem_queue_of_enqueue he with he | rfl
    · exact .inl (.inl ⟨k', e, he, het⟩)
    · exact .inr het
  · by_cases hs : s ∈ b.seqEnqueue
    · rw [enqueue_of_recorded hs] at hs'
      exact .inl (.inr ⟨s', hs'⟩)
    · rw [enqueue_of_new hs] at hs'
      exact .inl (IsStored.of_registerAdapter (.inr ⟨s', hs'⟩))

omit [Field K] [LinearOrder K] in
theorem IsStored.of_preemptAndHold {t : K} {k : String} {s : ℕ}
    (ht : (b.preemptAndHold k s).IsStored t) : b.IsStored t := by
  rcases ht with ⟨k', e, he, het⟩ | ⟨s', hs'⟩
  · exact .inl ⟨k', e, mem_queue_of_preemptAndHold he, het⟩
  · rcases shadowTime_preemptAndHold b k s with heq | ⟨t', hmem, heq⟩
    · exact .inr ⟨s', heq ▸ hs'⟩
    · rw [heq, Dict.get?_insert] at hs'
      split at hs'
      · exact .inl ⟨k, _, hmem, Option.some.inj hs'⟩
      · exact .inr ⟨s', hs'⟩

omit [Field K] in
/-- The time a held token comes back with was stored, unless none was kept. -/
theorem IsStored.of_resumeFromShadow (hb : b.Registered) {t t' : K} {k : String} {s : ℕ}
    (ht : (b.resumeFromShadow k s t').IsStored t) : b.IsStored t ∨ t' = t := by
  by_cases hs : s ∈ b.held k
  · rcases ht with ⟨k', e, he, het⟩ | ⟨s', hs'⟩
    · rcases mem_queue_of_resumeFromShadow hb hs he with he | rfl
      · exact .inl (.inl ⟨k', e, he, het⟩)
      · rw [Dict.getD] at het
        cases hg : b.shadowTime.get? s with
        | none =>
            rw [hg] at het
            exact .inr het
        | some t₀ =>
            rw [hg] at het
            exact .inl (.inr ⟨s, hg.trans (congrArg some het)⟩)
    · rw [resumeFromShadow_of_held hb hs] at hs'
      change (b.shadowTime.erase s).get? s' = some t at hs'
      rw [Dict.get?_erase] at hs'
      split at hs'
      · cases hs'
      · exact .inl (.inr ⟨s', hs'⟩)
  · rw [resumeFromShadow_of_not_held hs] at ht
    exact .inl ht

theorem IsStored.of_apply {t t' : K} {c : DispatchCall K} {m : Option ℤ}
    (ht : (c.apply b m t').1.IsStored t) : b.IsStored t := by
  rcases ht with ⟨k, e, he, het⟩ | ⟨s, hs⟩
  · rw [queue_apply] at he
    exact .inl ⟨k, e, (List.drop_sublist ..).subset he, het⟩
  · exact .inr ⟨s, by rwa [shadowTime_apply] at hs⟩

omit [Field K] [LinearOrder K] in
theorem IsStored.of_drainRemaining (hex : b.EmptyUntimed) {t : K} {gs : List (String × ℕ)}
    {ds : List ℕ} (ht : (b.drainRemaining gs ds).IsStored t) : b.IsStored t := by
  rcases ht with ⟨k, e, he, het⟩ | ⟨s, hs⟩
  · have hq := (drainSeqs_spec (gs.filter fun g => decide (g.2 ∉ ds)) b hex k).1
    rw [drainRemaining, hq] at he
    exact .inl ⟨k, e, (List.mem_filter.mp he).1, het⟩
  · rw [drainRemaining, (drainSeqs_frame _ b).2.1] at hs
    exact .inr ⟨s, hs⟩

/-- A call stores no time but those already stored and its own clock reading. -/
theorem TimeCall.Step.stored (hb : b.Registered) (hex : b.EmptyUntimed)
    (h : Step b call out b') {t : K} (ht : b'.IsStored t) :
    b.IsStored t ∨ call.clock? = some t := by
  obtain rfl := congrArg Prod.fst h
  cases call with
  | drain gs ds => exact .inl (IsStored.of_drainRemaining hex ht)
  | call c =>
      cases c with
      | registerAdapter k => exact .inl (IsStored.of_registerAdapter ht)
      | enqueue k s t' => exact (IsStored.of_enqueue ht).imp_right (congrArg some)
      | release s => exact .inl ht
      | preemptAndHold k s => exact .inl (IsStored.of_preemptAndHold ht)
      | resumeFromShadow k s t' =>
          exact (IsStored.of_resumeFromShadow hb ht).imp_right (congrArg some)
      | formBatch c m t' => exact .inl (IsStored.of_apply ht)
      | resetStats => exact .inl ht

end Stored

/-! ## Whole runs -/

section Run

variable [Field K] [LinearOrder K]

variable {adapters : List String} {W : ℕ} {hW : 0 < W} {tmaxMs sloMs : K}
  {tr : List (Event (AlignmentBuffer K) (TimeCall K) (List (String × ℕ)))}
  {b : AlignmentBuffer K}

omit [LinearOrder K] in
theorem not_isStored_init (t : K) : ¬ (init adapters W hW tmaxMs sloMs).IsStored t := by
  rintro (⟨k, e, he, -⟩ | ⟨s, hs⟩)
  · rw [queue_init] at he
    cases he
  · cases hs

theorem exact_init : (init adapters W hW tmaxMs sloMs).Exact := by
  intro k
  rw [queue_init, oldest_init]
  rfl

/-- As long as the oldest times are right, the buffer's data is sound and all
its times are readings of the run. -/
theorem sound_of_exact (h : Exec TimeCall.Step (init adapters W hW tmaxMs sloMs) tr b)
    (hex : ∀ e ∈ tr, e.pre.Exact) :
    b.Registered ∧ ∀ t, b.IsStored t → t ∈ readings TimeCall.clock? tr := by
  induction h with
  | nil => exact ⟨registered_init .., fun t ht => absurd ht (not_isStored_init t)⟩
  | @snoc tr b b' call out hpath hstep ih =>
      have hpre : b.Exact := hex ⟨b, call, out, b'⟩ (by simp)
      obtain ⟨hb, hst⟩ := ih fun e he => hex e (List.mem_append_left _ he)
      refine ⟨hstep.registered hb hpre.emptyUntimed, fun t ht => ?_⟩
      rw [readings_snoc, List.mem_append]
      rcases hstep.stored hb hpre.emptyUntimed ht with hold | hnew
      · exact .inl (hst t hold)
      · exact .inr (by simp [hnew])

/-- **The oldest time.** In a run under a non-decreasing clock whose calls find the queues
in order, `enqueue_time` is right at every point. -/
theorem enqueueTime_exact (h : Exec TimeCall.Step (init adapters W hW tmaxMs sloMs) tr b)
    (hclock : (readings TimeCall.clock? tr).Pairwise (· ≤ ·))
    (horder : ∀ e ∈ tr, e.label.InOrder e.pre) : b.Exact ∧ ∀ e ∈ tr, e.pre.Exact := by
  induction h with
  | nil => exact ⟨exact_init, fun e he => by cases he⟩
  | @snoc tr b b' call out hpath hstep ih =>
      obtain ⟨hclock, hle⟩ := readings_le_of_snoc hclock
      simp only [List.forall_mem_append, List.forall_mem_singleton] at horder ⊢
      obtain ⟨hb, htr⟩ := ih hclock horder.1
      obtain ⟨hreg, hst⟩ := sound_of_exact hpath htr
      refine ⟨hb.step hreg (fun t ht k e he => ?_) horder.2 hstep, htr, hb⟩
      exact hle e.2 (hst e.2 (.inl ⟨k, e, he, rfl⟩)) t ht

omit [Field K] in
/-- A queue in time order is in order for every dispatch. -/
theorem headLeast_drop {q : List (ℕ × K)} (h : q.Pairwise fun e e' => e.2 ≤ e'.2) (n : ℕ) :
    HeadLeast (q.drop n) := by
  have hdrop := h.sublist (List.drop_sublist n q)
  cases hq : q.drop n with
  | nil => trivial
  | cons e q' =>
      rw [hq] at hdrop
      exact (List.pairwise_cons.mp hdrop).1

/-- Two tokens held and resumed in time order, then the later one drained and the other
dispatched. -/
def resumeInOrder : List (TimeCall ℚ) :=
  [.call (.enqueue "a" 1 0), .call (.enqueue "a" 2 1), .call (.preemptAndHold "a" 2),
    .call (.preemptAndHold "a" 1), .call (.resumeFromShadow "a" 2 2),
    .call (.resumeFromShadow "a" 1 3), .drain [("a", 2)] [], .call (.enqueue "a" 3 4),
    .call (.formBatch .threshold (some 1) 5)]

theorem resumeInOrder_exact :
    (final TimeCall.apply (init [] 4 (by decide) (5 : ℚ) 200) resumeInOrder).Exact := by
  have hrun := exec_history TimeCall.apply resumeInOrder (init [] 4 (by decide) (5 : ℚ) 200)
  have hclock : (readings TimeCall.clock? (history TimeCall.apply
      (init [] 4 (by decide) (5 : ℚ) 200) resumeInOrder)).Pairwise (· ≤ ·) := by decide +kernel
  have horder : ∀ e ∈ history TimeCall.apply (init [] 4 (by decide) (5 : ℚ) 200) resumeInOrder,
      e.label.InOrder e.pre := by
    simp only [resumeInOrder, history, List.forall_mem_cons, TimeCall.InOrder,
      List.not_mem_nil, false_imp_iff, implies_true, and_true, true_and]
    refine ⟨by decide +kernel, by decide +kernel, fun k => ?_, fun k n hmay => ?_⟩
    · by_cases hk : k = "a"
      · subst hk
        exact .inr ⟨(1, 0), by decide +kernel⟩
      · refine .inl fun e he => ?_
        rw [queue_of_not_mem] at he
        · cases he
        · rw [Dict.mem_def, show Dict.keys _ = ["a"] by decide +kernel]
          simpa using hk
    · -- "a" alone is queued, in time order
      have hvisit := hmay.visited
      rw [DispatchCall.visiting, show Dict.keys _ = ["a"] by decide +kernel] at hvisit
      obtain rfl := List.mem_singleton.mp hvisit
      exact headLeast_drop (by decide +kernel) n
  exact (enqueueTime_exact hrun hclock horder).1

/-- Resumed out of time order, then a hold of the token behind the two. -/
def holdAfterResume : List (TimeCall ℚ) :=
  [.call (.enqueue "a" 1 0), .call (.enqueue "a" 2 1), .call (.enqueue "a" 3 2),
    .call (.preemptAndHold "a" 1), .call (.preemptAndHold "a" 2),
    .call (.resumeFromShadow "a" 1 3), .call (.resumeFromShadow "a" 2 4),
    .call (.preemptAndHold "a" 3)]

theorem holdAfterResume_not_exact :
    (readings TimeCall.clock? (history TimeCall.apply (init [] 4 (by decide) (5 : ℚ) 200)
        holdAfterResume)).Pairwise (· ≤ ·)
      ∧ ¬ (final TimeCall.apply (init [] 4 (by decide) (5 : ℚ) 200) holdAfterResume).Exact := by
  refine ⟨by decide +kernel, fun h => ?_⟩
  have hq : (final TimeCall.apply (init [] 4 (by decide) (5 : ℚ) 200) holdAfterResume).queue "a"
      = [(2, 1), (1, 0)] := by decide +kernel
  have ho : (final TimeCall.apply (init [] 4 (by decide) (5 : ℚ) 200) holdAfterResume).oldest "a"
      = some 1 := by decide +kernel
  have ha := h "a"
  rw [hq, ho] at ha
  have hle : (1 : ℚ) ≤ 0 := ha.2 (1, 0) (by simp)
  exact absurd hle (by decide +kernel)

end Run

end AlignmentBuffer

end AdapterSlots
