import Mathlib.Algebra.Order.Ring.Rat
import Mathlib.Tactic.NormNum
import AdapterSlots.Lib.BatchStation
import AdapterSlots.BufferConserve

/-!
# Full warps under two deadlines

`form_batch` for one adapter, in two runs with the same calls and two values
of `T_max`. The buffer of one adapter is a `Station` of the library
(`Lone.step`): its queue holds the enqueue times, and it is late when the
head is as old as the deadline.

A longer deadline may cost full warps: the run that waits longer may flush
tokens at a moment when the other one, which flushed earlier, keeps newer
tokens for the next warp. `longer_tmax_bound` says that this is all it
costs: one warp for each such flush, and nothing for warps of one or two
tokens.
-/

namespace AdapterSlots

open Lib

namespace AlignmentBuffer

variable {K : Type} [Field K]

/-! ## A dispatch of one adapter -/

section Lone

variable {b : AlignmentBuffer K} {k : String} {m : Option ℤ} {t : K}

/-- The loop passes over empty queues. -/
theorem visitLoop_of_empty {rule : String → ℕ → K → ℕ → Verdict} {budget : ℤ}
    {batch : List (String × ℕ × Bool)} : ∀ {ks : List String}, (∀ k ∈ ks, b.queue k = []) →
    visitLoop rule budget t ks b batch = (b, batch)
  | [], _ => rfl
  | k :: ks, h => by
      have hempty : (b.queue k).length = 0 := by rw [h k (List.mem_cons_self ..)]; rfl
      rw [visitLoop]
      by_cases hfull : budget ≤ batch.length
      · rw [if_pos hfull]
      · rw [if_neg hfull, if_pos hempty]
        exact visitLoop_of_empty fun k' hk' => h k' (List.mem_cons_of_mem _ hk')

/-- The loop meets one queue that is not empty. -/
theorem visitLoop_lone {rule : String → ℕ → K → ℕ → Verdict} {budget : ℤ}
    (hpos : 0 < (b.queue k).length) (hbudget : 0 < budget) : ∀ {ks : List String}, ks.Nodup →
    k ∈ ks → (∀ k' ∈ ks, k' ≠ k → b.queue k' = []) →
    visitLoop rule budget t ks b []
      = match rule k (b.queue k).length (b.age k t) budget.toNat with
        | .stop => (b, [])
        | .skip => (b, [])
        | .take n p w o =>
            (b.popChunk k n w o t, ((b.queue k).take n).map fun e => (k, e.1, p))
  | [], _, hk, _ => by cases hk
  | k₀ :: ks, hnd, hk, hothers => by
      obtain ⟨hnot, hnd'⟩ := List.nodup_cons.mp hnd
      have hroom : ¬ budget ≤ (([] : List (String × ℕ × Bool)).length : ℤ) := by
        rw [List.length_nil]
        omega
      have hrest : ∀ k' ∈ ks, k' ≠ k → b.queue k' = [] := fun k' hk' =>
        hothers k' (List.mem_cons_of_mem _ hk')
      rw [visitLoop, if_neg hroom]
      by_cases hkk : k₀ = k
      · subst hkk
        have hempty : ∀ k' ∈ ks, b.queue k' = [] := fun k' hk' =>
          hrest k' hk' fun heq => hnot (heq ▸ hk')
        rw [if_neg (by omega), List.length_nil, Int.ofNat_zero, Int.sub_zero]
        cases rule k₀ (b.queue k₀).length (b.age k₀ t) budget.toNat with
        | stop => rfl
        | skip => exact visitLoop_of_empty hempty
        | take n p w o =>
            refine visitLoop_of_empty fun k' hk' => ?_
            have hne : k₀ ≠ k' := fun heq => hnot (heq ▸ hk')
            rw [queue_popChunk, if_neg hne]
            exact hempty k' hk'
      · have hempty : (b.queue k₀).length = 0 := by
          rw [hothers k₀ (List.mem_cons_self ..) hkk]
          rfl
        rw [if_pos hempty]
        exact visitLoop_lone hpos hbudget hnd'
          ((List.mem_cons.mp hk).resolve_left fun heq => hkk heq.symm) hrest

variable [LinearOrder K]

/-- The deadline of `form_batch`. -/
def effectiveDeadline (b : AlignmentBuffer K) : K := min b.tMax b.ttftSlo

theorem formBatch_of_empty (h : ∀ k, b.queue k = []) : b.formBatch m t = (b, []) := by
  rw [formBatch, visitLoop_of_empty fun k _ => h k]
  rfl

/-- The three results of `form_batch` when only `k` has tokens and all of them fit. -/
theorem formBatch_lone (hothers : ∀ k', k' ≠ k → b.queue k' = [])
    (hroom : ((b.queue k).length : ℤ) ≤ b.budget m) :
    (b.W ≤ (b.queue k).length ∧ b.formBatch m t
        = (b.popChunk k ((b.queue k).length / b.W * b.W) ((b.queue k).length / b.W) 0 t,
          ((b.queue k).take ((b.queue k).length / b.W * b.W)).map fun e => (k, e.1)))
      ∨ (0 < (b.queue k).length ∧ (b.queue k).length < b.W ∧ b.effectiveDeadline ≤ b.age k t
        ∧ b.formBatch m t = (b.popChunk k (b.queue k).length 0 1 t,
          (b.queue k).map fun e => (k, e.1)))
      ∨ ((b.queue k).length < b.W
        ∧ ((b.queue k).length = 0 ∨ b.age k t < b.effectiveDeadline)
        ∧ b.formBatch m t = (b, [])) := by
  have hW := b.W_pos
  rcases Nat.eq_zero_or_pos (b.queue k).length with hzero | hpos
  · have hall : ∀ k', b.queue k' = [] := fun k' => by
      by_cases hk : k' = k
      · rw [hk]
        exact List.eq_nil_of_length_eq_zero hzero
      · exact hothers k' hk
    exact .inr (.inr ⟨by omega, .inl hzero, formBatch_of_empty hall⟩)
  · have hbudget : (b.queue k).length ≤ (b.budget m).toNat := by omega
    rw [formBatch, visitLoop_lone hpos (by omega) b.queues.nodup_keys
      (mem_queues_of_lt_length hpos) fun k' _ => hothers k', deadlineRule_of_room hW _ k _ hbudget]
    by_cases hlong : b.W ≤ (b.queue k).length
    · rw [if_pos hlong]
      refine .inl ⟨hlong, ?_⟩
      simp only [pairs, List.map_map]
      rfl
    · rw [if_neg hlong]
      by_cases hage : min b.tMax b.ttftSlo ≤ b.age k t
      · rw [if_pos hage]
        refine .inr (.inl ⟨hpos, by omega, hage, ?_⟩)
        simp only [pairs, List.map_map, List.take_length]
        rfl
      · rw [if_neg hage]
        exact .inr (.inr ⟨by omega, .inr (not_le.mp hage), rfl⟩)

end Lone

variable [LinearOrder K]

/-! ## The buffer as a station -/

/-- Only `k` has tokens, and `enqueue_time` is the time of its head. -/
structure Lone (k : String) (b : AlignmentBuffer K) : Prop where
  registered : b.Registered
  others : ∀ k', k' ≠ k → b.queue k' = []
  head : b.oldest k = (b.queue k).head?.map Prod.snd

def station (b : AlignmentBuffer K) (k : String) : Station K :=
  ⟨(b.queue k).map Prod.snd, b.nWarpsDispatched⟩

/-- A token enqueued at `a` has reached the deadline. -/
def expired (deadline t a : K) : Bool := decide (deadline ≤ t - a)

/-- The calls of a run with one adapter. -/
inductive Drives (k : String) : BufferCall K → Visit K → Prop
  | enqueue (s : ℕ) (t : K) : Drives k (.enqueue k s t) (.arrive t)
  | formBatch (m : Option ℤ) (t : K) : Drives k (.formBatch .threshold m t) (.look t)

/-- `max_tokens` is at least the queue length. -/
def BufferCall.HasRoom (k : String) (b : AlignmentBuffer K) : BufferCall K → Prop
  | .formBatch _ m _ => ((b.queue k).length : ℤ) ≤ b.budget m
  | _ => True

instance (k : String) (b : AlignmentBuffer K) : ∀ call : BufferCall K,
    Decidable (call.HasRoom k b)
  | .registerAdapter _ => .isTrue trivial
  | .enqueue _ _ _ => .isTrue trivial
  | .release _ => .isTrue trivial
  | .preemptAndHold _ _ => .isTrue trivial
  | .resumeFromShadow _ _ _ => .isTrue trivial
  | .formBatch _ m _ => inferInstanceAs (Decidable (((b.queue k).length : ℤ) ≤ b.budget m))
  | .resetStats => .isTrue trivial

/-- The sequence a call enqueues. -/
def BufferCall.seq? : BufferCall K → Option ℕ
  | .enqueue _ s _ => some s
  | _ => none

section Station

variable {b : AlignmentBuffer K} {k : String} {m : Option ℤ} {t : K}

variable (t) in
theorem headLate_station (hb : Lone k b) (deadline : K) :
    (b.station k).headLate (expired deadline) t = true
      ↔ 0 < (b.queue k).length ∧ deadline ≤ b.age k t := by
  rw [Station.headLate, station, age, hb.head]
  cases b.queue k with
  | nil => simp
  | cons e q => simp [expired]

/-- What a call does to the buffer of one adapter, as a station and in its counters. -/
structure Served (k : String) (v : Visit K) (b : AlignmentBuffer K)
    (r : AlignmentBuffer K × List (String × ℕ)) : Prop where
  lone : Lone k r.1
  station : r.1.station k = (b.station k).serve b.W (expired b.effectiveDeadline) v
  width : r.1.W = b.W
  deadline : r.1.effectiveDeadline = b.effectiveDeadline
  warps : r.1.nWarpsDispatched = b.nWarpsDispatched + r.2.length / b.W
  timeouts : r.1.nTimeoutDispatches = b.nTimeoutDispatches
    + if (b.station k).flushesAt b.W (expired b.effectiveDeadline) v then 1 else 0

omit [Field K] [LinearOrder K] in
theorem enqueue_frame (b : AlignmentBuffer K) (k : String) (s : ℕ) (t : K) :
    (b.enqueue k s t).W = b.W ∧ (b.enqueue k s t).tMax = b.tMax
      ∧ (b.enqueue k s t).ttftSlo = b.ttftSlo
      ∧ (b.enqueue k s t).nWarpsDispatched = b.nWarpsDispatched
      ∧ (b.enqueue k s t).nTimeoutDispatches = b.nTimeoutDispatches := by
  unfold enqueue appendToken registerAdapter
  split
  · exact ⟨rfl, rfl, rfl, rfl, rfl⟩
  · split <;> exact ⟨rfl, rfl, rfl, rfl, rfl⟩

theorem Lone.enqueue (hb : Lone k b) {s : ℕ} (hs : s ∉ b.seqEnqueue) (t : K) :
    Served k (.arrive t) b ((BufferCall.enqueue k s t).apply b) := by
  obtain ⟨hwidth, htMax, hslo, hwarps, htimeouts⟩ := enqueue_frame b k s t
  have hqueue : (b.enqueue k s t).queue k = b.queue k ++ [(s, t)] := by
    rw [queue_enqueue hs, if_pos rfl]
  refine ⟨⟨hb.registered.enqueue, fun k' hk' => ?_, ?_⟩, ?_, hwidth, ?_, ?_, htimeouts⟩
  · show (b.enqueue k s t).queue k' = []
    rw [queue_enqueue hs, if_neg fun heq => hk' heq.symm]
    exact hb.others k' hk'
  · show (b.enqueue k s t).oldest k = ((b.enqueue k s t).queue k).head?.map Prod.snd
    rw [oldest_enqueue hb.registered hs, hqueue, hb.head]
    cases b.queue k <;> simp
  · show (b.enqueue k s t).station k = _
    rw [AlignmentBuffer.station, hqueue, hwarps, List.map_append]
    rfl
  · show min (b.enqueue k s t).tMax (b.enqueue k s t).ttftSlo = _
    rw [htMax, hslo]
    rfl
  · show (b.enqueue k s t).nWarpsDispatched = b.nWarpsDispatched + 0 / b.W
    rw [hwarps, Nat.zero_div, Nat.add_zero]

omit [Field K] [LinearOrder K] in
theorem Lone.popChunk (hb : Lone k b) (n w o : ℕ) (t : K) : Lone k (b.popChunk k n w o t) := by
  have hmem : ∀ {k'}, k' ∉ (b.popChunk k n w o t).queues → k ≠ k' ∧ k' ∉ b.queues := by
    intro k' hk'
    have hins : k' ∉ b.queues.insert k ((b.queue k).drop n) := hk'
    rw [Dict.mem_insert, not_or] at hins
    exact ⟨fun heq => hins.1 heq.symm, hins.2⟩
  refine ⟨⟨fun k' hk' => hb.registered.held k' (hmem hk').2, fun k' hk' => ?_⟩,
    fun k' hk' => ?_, ?_⟩
  · rw [oldest_popChunk, if_neg (hmem hk').1]
    exact hb.registered.oldest k' (hmem hk').2
  · rw [queue_popChunk, if_neg fun heq => hk' heq.symm]
    exact hb.others k' hk'
  · rw [oldest_popChunk, queue_popChunk, if_pos rfl, if_pos rfl]

omit [Field K] [LinearOrder K] in
theorem station_popChunk (n w o : ℕ) :
    (b.popChunk k n w o t).station k
      = ⟨(b.station k).queue.drop n, (b.station k).batches + w⟩ := by
  rw [AlignmentBuffer.station, queue_popChunk, if_pos rfl, AlignmentBuffer.station, List.map_drop]
  rfl

/-- A dispatch that pops as many tokens as the station gives. -/
theorem Lone.served_popChunk (hb : Lone k b) {n w o : ℕ} {batch : List (String × ℕ)}
    (hlook : (b.station k).look b.W (expired b.effectiveDeadline) t
      = ⟨(b.station k).queue.drop n, (b.station k).batches + w⟩)
    (hwarps : w = batch.length / b.W)
    (htimeouts : o = if (b.station k).flushes b.W (expired b.effectiveDeadline) t then 1 else 0) :
    Served k (.look t) b (b.popChunk k n w o t, batch) :=
  ⟨hb.popChunk .., (station_popChunk ..).trans hlook.symm, rfl, rfl,
    congrArg (b.nWarpsDispatched + ·) hwarps, congrArg (b.nTimeoutDispatches + ·) htimeouts⟩

theorem Lone.formBatch (hb : Lone k b) (hroom : ((b.queue k).length : ℤ) ≤ b.budget m) (t : K) :
    Served k (.look t) b ((BufferCall.formBatch .threshold m t).apply b) := by
  have hlen : (b.station k).queue.length = (b.queue k).length := List.length_map ..
  have hlate := headLate_station t hb b.effectiveDeadline
  show Served k (.look t) b (b.formBatch m t)
  rcases formBatch_lone (t := t) hb.others hroom with ⟨hlong, heq⟩ | ⟨hpos, hshort, hage, heq⟩
    | ⟨hshort, hkeep, heq⟩
  · rw [heq]
    refine hb.served_popChunk ?_ ?_ ?_
    · rw [Station.look, hlen, if_pos hlong]
    · rw [List.length_map, List.length_take, Nat.min_eq_left (Nat.div_mul_le_self ..),
        Nat.mul_div_cancel _ b.W_pos]
    · rw [Station.flushes, hlen, decide_eq_false (Nat.not_lt.mpr hlong), Bool.false_and,
        if_neg Bool.false_ne_true]
  · have hhead := hlate.mpr ⟨hpos, hage⟩
    rw [heq]
    refine hb.served_popChunk ?_ ?_ ?_
    · rw [Station.look_of_late (by rwa [hlen]) hhead, ← hlen, List.drop_length, Nat.add_zero]
    · rw [List.length_map, Nat.div_eq_of_lt hshort]
    · rw [Station.flushes, hlen, decide_eq_true hshort, hhead, Bool.true_and, if_pos rfl]
  · have hhead : (b.station k).headLate (expired b.effectiveDeadline) t = false := by
      refine Bool.eq_false_iff.mpr fun h => ?_
      obtain ⟨hpos, hage⟩ := hlate.mp h
      rcases hkeep with hzero | hyoung
      · omega
      · exact absurd hage (not_le.mpr hyoung)
    rw [heq]
    refine ⟨hb, (Station.look_of_early (by rwa [hlen]) hhead).symm, rfl, rfl, ?_, ?_⟩
    · rw [List.length_nil, Nat.zero_div, Nat.add_zero]
    · rw [Station.flushesAt, Station.flushes, hhead, Bool.and_false, if_neg Bool.false_ne_true,
        Nat.add_zero]

end Station

/-! ## Runs -/

/-- The sequences that the calls enqueue. -/
def enqueued (calls : List (BufferCall K)) : List ℕ := calls.filterMap BufferCall.seq?

/-- A run of one adapter from `b`: its sequences are distinct and new, and every token
fits into every batch. -/
structure LoneRun (k : String) (b : AlignmentBuffer K) (calls : List (BufferCall K))
    (vs : List (Visit K)) : Prop where
  lone : Lone k b
  drives : List.Forall₂ (Drives k) calls vs
  distinct : (enqueued calls).Nodup
  fresh : ∀ s ∈ enqueued calls, s ∉ b.seqEnqueue
  room : ∀ e ∈ history BufferCall.apply b calls, e.label.HasRoom k e.pre

/-- One call of a run. -/
theorem LoneRun.step {k : String} {b : AlignmentBuffer K} {call : BufferCall K}
    {calls : List (BufferCall K)} {v : Visit K} {vs : List (Visit K)}
    (h : LoneRun k b (call :: calls) (v :: vs)) :
    Served k v b (call.apply b) ∧ LoneRun k (call.apply b).1 calls vs := by
  obtain ⟨hdrive, hdrives⟩ := List.forall₂_cons.mp h.drives
  have hroom : call.HasRoom k b :=
    h.room ⟨b, call, (call.apply b).2, (call.apply b).1⟩ (List.mem_cons_self ..)
  have hrest : ∀ e ∈ history BufferCall.apply (call.apply b).1 calls, e.label.HasRoom k e.pre :=
    fun e he => h.room e (List.mem_cons_of_mem _ he)
  cases hdrive with
  | enqueue s t =>
      have hdistinct : (s :: enqueued calls).Nodup := h.distinct
      obtain ⟨hnot, hnd⟩ := List.nodup_cons.mp hdistinct
      have hserved := h.lone.enqueue (h.fresh s (List.mem_cons_self ..)) t
      refine ⟨hserved, hserved.lone, hdrives, hnd, fun s' hs' hmem => ?_, hrest⟩
      rcases mem_seqEnqueue_enqueue.mp hmem with rfl | hold
      · exact hnot hs'
      · exact h.fresh s' (List.mem_cons_of_mem _ hs') hold
  | formBatch m t =>
      have hserved := h.lone.formBatch hroom t
      refine ⟨hserved, hserved.lone, hdrives, h.distinct, fun s' hs' hmem => ?_, hrest⟩
      have hsame : (DispatchCall.threshold.apply b m t).1.seqEnqueue = b.seqEnqueue :=
        seqEnqueue_apply ..
      exact h.fresh s' hs' (hsame ▸ hmem)

/-- The tokens that left in full warps. -/
def fullWarpTokens (W : ℕ) (tr : History K) : ℕ :=
  (tr.map fun e => e.out.length / W * W).sum

/-- The calls at which the second run makes a timeout dispatch and the first one keeps
tokens. -/
def costlyFlushes (k : String) (tr tr' : History K) : ℕ :=
  (tr.zip tr').countP fun p =>
    decide (p.2.pre.nTimeoutDispatches < p.2.post.nTimeoutDispatches)
      && !(p.1.post.queue k).isEmpty

theorem LoneRun.fullWarpTokens_eq {k : String} : ∀ {calls : List (BufferCall K)}
    {vs : List (Visit K)} {b : AlignmentBuffer K}, LoneRun k b calls vs →
    b.W * b.nWarpsDispatched + fullWarpTokens b.W (history BufferCall.apply b calls)
      = b.W * ((b.station k).run b.W (expired b.effectiveDeadline) vs).batches
  | [], vs, b, h => by
      obtain rfl := List.forall₂_nil_left_iff.mp h.drives
      rfl
  | call :: calls, vs, b, h => by
      obtain ⟨v, vs, -, -, rfl⟩ := List.forall₂_cons_left_iff.mp h.drives
      obtain ⟨hserved, hrest⟩ := h.step
      have ih := hrest.fullWarpTokens_eq
      rw [hserved.width, hserved.deadline, hserved.station, hserved.warps] at ih
      rw [history, fullWarpTokens, List.map_cons, List.sum_cons, ← fullWarpTokens]
      show _ = b.W * ((((b.station k).serve b.W (expired b.effectiveDeadline) v)).run b.W
        (expired b.effectiveDeadline) vs).batches
      rw [← ih]
      ring

/-- A timeout dispatch is a flush. -/
theorem Served.setback {k : String} {v : Visit K} {b b' : AlignmentBuffer K}
    {r r' : AlignmentBuffer K × List (String × ℕ)} (h : Served k v b r) (h' : Served k v b' r')
    (hW : b'.W = b.W) :
    (decide (b'.nTimeoutDispatches < r'.1.nTimeoutDispatches) && !(r.1.queue k).isEmpty)
      = Station.setback b.W (expired b.effectiveDeadline) (expired b'.effectiveDeadline)
        (b.station k) (b'.station k) v := by
  have hempty : (r.1.queue k).isEmpty = (r.1.station k).queue.isEmpty := List.isEmpty_map.symm
  rw [hempty, h.station, Station.setback, h'.timeouts, hW]
  cases (b'.station k).flushesAt b.W (expired b'.effectiveDeadline) v with
  | true => rw [if_pos rfl, decide_eq_true (Nat.lt_succ_self _)]
  | false => rw [if_neg Bool.false_ne_true, Nat.add_zero, decide_eq_false (Nat.lt_irrefl _)]

/-- The costly flushes are the setbacks of the second station. -/
theorem LoneRun.costlyFlushes_eq {k : String} : ∀ {vs : List (Visit K)}
    {calls calls' : List (BufferCall K)} {b b' : AlignmentBuffer K}, LoneRun k b calls vs →
    LoneRun k b' calls' vs → b'.W = b.W →
    costlyFlushes k (history BufferCall.apply b calls) (history BufferCall.apply b' calls')
      = Station.setbacks b.W (expired b.effectiveDeadline) (expired b'.effectiveDeadline)
        (b.station k) (b'.station k) vs
  | [], calls, calls', b, b', h, h', _ => by
      obtain rfl := List.forall₂_nil_right_iff.mp h.drives
      rfl
  | v :: vs, calls, calls', b, b', h, h', hW => by
      obtain ⟨call, calls, -, -, rfl⟩ := List.forall₂_cons_right_iff.mp h.drives
      obtain ⟨call', calls', -, -, rfl⟩ := List.forall₂_cons_right_iff.mp h'.drives
      obtain ⟨hserved, hrest⟩ := h.step
      obtain ⟨hserved', hrest'⟩ := h'.step
      have ih := hrest.costlyFlushes_eq hrest' (by rw [hserved.width, hserved'.width, hW])
      rw [hserved.width, hserved.deadline, hserved'.deadline, hserved.station, hserved'.station,
        hW] at ih
      rw [history, history, costlyFlushes, List.zip_cons_cons, List.countP_cons, ← costlyFlushes,
        ih, Station.setbacks, hserved.setback hserved' hW, Nat.add_comm]

/-- There are no more of them than timeout dispatches. -/
theorem LoneRun.costlyFlushes_le {k : String} : ∀ {vs : List (Visit K)}
    {calls calls' : List (BufferCall K)} {b b' : AlignmentBuffer K}, LoneRun k b calls vs →
    LoneRun k b' calls' vs →
    b'.nTimeoutDispatches
        + costlyFlushes k (history BufferCall.apply b calls) (history BufferCall.apply b' calls')
      ≤ (final BufferCall.apply b' calls').nTimeoutDispatches
  | [], calls, calls', b, b', h, h' => by
      obtain rfl := List.forall₂_nil_right_iff.mp h.drives
      obtain rfl := List.forall₂_nil_right_iff.mp h'.drives
      exact le_rfl
  | v :: vs, calls, calls', b, b', h, h' => by
      obtain ⟨call, calls, -, -, rfl⟩ := List.forall₂_cons_right_iff.mp h.drives
      obtain ⟨call', calls', -, -, rfl⟩ := List.forall₂_cons_right_iff.mp h'.drives
      obtain ⟨-, hrest⟩ := h.step
      obtain ⟨hserved', hrest'⟩ := h'.step
      have ih := hrest.costlyFlushes_le hrest'
      have hone : b'.nTimeoutDispatches ≤ (call'.apply b').1.nTimeoutDispatches :=
        hserved'.timeouts ▸ Nat.le_add_right ..
      rw [history, history, costlyFlushes, List.zip_cons_cons, List.countP_cons, ← costlyFlushes]
      refine le_trans ?_ ih
      split
      · rename_i hcostly
        have hlt := of_decide_eq_true (Bool.and_eq_true _ _ ▸ hcostly).1
        simp only at hlt
        omega
      · omega

/-! ## Two values of `T_max` -/

/-- A call of both runs; the caps of their batches may differ. -/
inductive TwinCall (K : Type) where
  | enqueue (s : ℕ) (t : K)
  | formBatch (maxTokens maxTokens' : Option ℤ) (t : K)

namespace TwinCall

def left (k : String) : TwinCall K → BufferCall K
  | .enqueue s t => .enqueue k s t
  | .formBatch m _ t => .formBatch .threshold m t

def right (k : String) : TwinCall K → BufferCall K
  | .enqueue s t => .enqueue k s t
  | .formBatch _ m t => .formBatch .threshold m t

def visit : TwinCall K → Visit K
  | .enqueue _ t => .arrive t
  | .formBatch _ _ t => .look t

/-- The clock reading of the call. -/
def time : TwinCall K → K
  | .enqueue _ t => t
  | .formBatch _ _ t => t

omit [Field K] [LinearOrder K] in
theorem drives_left (k : String) : ∀ cs : List (TwinCall K),
    List.Forall₂ (Drives k) (cs.map (left k)) (cs.map visit)
  | [] => .nil
  | .enqueue s t :: cs => .cons (.enqueue s t) (drives_left k cs)
  | .formBatch m _ t :: cs => .cons (.formBatch m t) (drives_left k cs)

omit [Field K] [LinearOrder K] in
theorem drives_right (k : String) : ∀ cs : List (TwinCall K),
    List.Forall₂ (Drives k) (cs.map (right k)) (cs.map visit)
  | [] => .nil
  | .enqueue s t :: cs => .cons (.enqueue s t) (drives_right k cs)
  | .formBatch _ m t :: cs => .cons (.formBatch m t) (drives_right k cs)

omit [Field K] [LinearOrder K] in
theorem enqueued_right (k : String) : ∀ cs : List (TwinCall K),
    enqueued (cs.map (right k)) = enqueued (cs.map (left k))
  | [] => rfl
  | .enqueue s _ :: cs => congrArg (s :: ·) (enqueued_right k cs)
  | .formBatch _ _ _ :: cs => enqueued_right k cs

end TwinCall

section Twin

variable {adapters : List String} {k : String} {W : ℕ} {hW : 0 < W} {tmaxMs tmaxMs' sloMs : K}

omit [LinearOrder K] in
theorem Lone.init : Lone k (init adapters W hW tmaxMs sloMs) := by
  refine ⟨registered_init .., fun k' _ => queue_init .., ?_⟩
  rw [queue_init, oldest_init]
  rfl

theorem LoneRun.init {calls : List (BufferCall K)} {vs : List (Visit K)}
    (hdrives : List.Forall₂ (Drives k) calls vs) (hdistinct : (enqueued calls).Nodup)
    (hroom : ∀ e ∈ history BufferCall.apply (init adapters W hW tmaxMs sloMs) calls,
      e.label.HasRoom k e.pre) :
    LoneRun k (init adapters W hW tmaxMs sloMs) calls vs :=
  ⟨Lone.init, hdrives, hdistinct, fun _ _ h => absurd h List.not_mem_nil, hroom⟩

omit [LinearOrder K] in
theorem station_init :
    (AlignmentBuffer.init adapters W hW tmaxMs sloMs).station k = ⟨[], 0⟩ := by
  rw [station, queue_init]
  rfl

theorem LoneRun.fullWarpTokens_init {calls : List (BufferCall K)} {vs : List (Visit K)}
    (h : LoneRun k (AlignmentBuffer.init adapters W hW tmaxMs sloMs) calls vs) :
    fullWarpTokens W
        (history BufferCall.apply (AlignmentBuffer.init adapters W hW tmaxMs sloMs) calls)
      = W * (Station.run W (expired (min (tmaxMs / 1000) (sloMs / 1000))) ⟨[], 0⟩ vs).batches := by
  have htokens := h.fullWarpTokens_eq
  rw [station_init] at htokens
  exact (Nat.zero_add _).symm.trans htokens

section Loss

variable {calls calls' : List (BufferCall K)} {vs : List (Visit K)}
  (hrun : LoneRun k (AlignmentBuffer.init adapters W hW tmaxMs sloMs) calls vs)
  (hrun' : LoneRun k (AlignmentBuffer.init adapters W hW tmaxMs' sloMs) calls' vs)

include hrun hrun'

theorem LoneRun.costlyFlushes_init :
    costlyFlushes k
        (history BufferCall.apply (AlignmentBuffer.init adapters W hW tmaxMs sloMs) calls)
        (history BufferCall.apply (AlignmentBuffer.init adapters W hW tmaxMs' sloMs) calls')
      = Station.setbacks W (expired (min (tmaxMs / 1000) (sloMs / 1000)))
        (expired (min (tmaxMs' / 1000) (sloMs / 1000))) ⟨[], 0⟩ ⟨[], 0⟩ vs := by
  have hcostly := hrun.costlyFlushes_eq hrun' rfl
  rwa [station_init, station_init] at hcostly

/-- A warp for each costly flush. -/
theorem LoneRun.tokens_le :
    fullWarpTokens W
        (history BufferCall.apply (AlignmentBuffer.init adapters W hW tmaxMs sloMs) calls)
      ≤ fullWarpTokens W
          (history BufferCall.apply (AlignmentBuffer.init adapters W hW tmaxMs' sloMs) calls')
        + W * costlyFlushes k
          (history BufferCall.apply (AlignmentBuffer.init adapters W hW tmaxMs sloMs) calls)
          (history BufferCall.apply (AlignmentBuffer.init adapters W hW tmaxMs' sloMs) calls') := by
  have hstart : Station.Behind W (⟨[], 0⟩ : Station K) ⟨[], 0⟩ 0 := ⟨le_rfl, le_rfl⟩
  have hbatches := (Station.run_behind (expired (min (tmaxMs / 1000) (sloMs / 1000)))
    (expired (min (tmaxMs' / 1000) (sloMs / 1000))) hW vs hstart).batches
  rw [Nat.zero_add] at hbatches
  rw [hrun.fullWarpTokens_init, hrun'.fullWarpTokens_init, hrun.costlyFlushes_init hrun',
    ← Nat.mul_add]
  exact Nat.mul_le_mul_left W hbatches

end Loss

variable [IsStrictOrderedRing K]

/-- The longer deadline is the more patient one. -/
theorem expired_mono {tmaxMs tmaxMs' : K} (h : tmaxMs ≤ tmaxMs') (slo t a : K)
    (hlate : expired (min (tmaxMs' / 1000) slo) t a = true) :
    expired (min (tmaxMs / 1000) slo) t a = true := by
  have hle : tmaxMs / 1000 ≤ tmaxMs' / 1000 := div_le_div_of_nonneg_right h (by norm_num)
  exact decide_eq_true ((min_le_min_right slo hle).trans (of_decide_eq_true hlate))

theorem LoneRun.costlyFlushes_eq_zero {calls calls' : List (BufferCall K)} {vs : List (Visit K)}
    (hrun : LoneRun k (AlignmentBuffer.init adapters W hW tmaxMs sloMs) calls vs)
    (hrun' : LoneRun k (AlignmentBuffer.init adapters W hW tmaxMs' sloMs) calls' vs)
    (htmax : tmaxMs ≤ tmaxMs') (hsmall : W ≤ 2) :
    costlyFlushes k
        (history BufferCall.apply (AlignmentBuffer.init adapters W hW tmaxMs sloMs) calls)
        (history BufferCall.apply (AlignmentBuffer.init adapters W hW tmaxMs' sloMs) calls')
      = 0 := by
  have hnear : Station.Near W (⟨[], 0⟩ : Station K) ⟨[], 0⟩ :=
    ⟨by simpa using hW, by simpa using hW, [], List.suffix_rfl, List.suffix_rfl⟩
  rw [hrun.costlyFlushes_init hrun']
  exact Station.setbacks_eq_zero hW hsmall (expired_mono htmax _) vs hnear

/-- Every run of one adapter under two values of `T_max`: the longer one costs at most a
full warp for each of its timeout dispatches behind which the shorter one keeps tokens,
and nothing when a warp is one token or two. -/
theorem longer_tmax_bound (adapters : List String) (k : String) (W : ℕ) (hW : 0 < W)
    (tmaxMs tmaxMs' sloMs : K) (htmax : tmaxMs ≤ tmaxMs') (calls : List (TwinCall K))
    (hdistinct : (enqueued (calls.map (TwinCall.left k))).Nodup)
    (hroom : ∀ e ∈ history BufferCall.apply (init adapters W hW tmaxMs sloMs)
      (calls.map (TwinCall.left k)), e.label.HasRoom k e.pre)
    (hroom' : ∀ e ∈ history BufferCall.apply (init adapters W hW tmaxMs' sloMs)
      (calls.map (TwinCall.right k)), e.label.HasRoom k e.pre) :
    let tr := history BufferCall.apply (init adapters W hW tmaxMs sloMs)
      (calls.map (TwinCall.left k))
    let tr' := history BufferCall.apply (init adapters W hW tmaxMs' sloMs)
      (calls.map (TwinCall.right k))
    fullWarpTokens W tr ≤ fullWarpTokens W tr' + W * costlyFlushes k tr tr'
      ∧ costlyFlushes k tr tr'
        ≤ (final BufferCall.apply (init adapters W hW tmaxMs' sloMs)
          (calls.map (TwinCall.right k))).nTimeoutDispatches
      ∧ (W ≤ 2 → fullWarpTokens W tr ≤ fullWarpTokens W tr') := by
  intro tr tr'
  have hrun := LoneRun.init (TwinCall.drives_left k calls) hdistinct hroom
  have hrun' := LoneRun.init (TwinCall.drives_right k calls)
    (TwinCall.enqueued_right k calls ▸ hdistinct) hroom'
  have hbound : fullWarpTokens W tr ≤ fullWarpTokens W tr' + W * costlyFlushes k tr tr' :=
    hrun.tokens_le hrun'
  refine ⟨hbound, (Nat.le_add_left ..).trans (hrun.costlyFlushes_le hrun'), fun hsmall => ?_⟩
  have hnone : costlyFlushes k tr tr' = 0 := hrun.costlyFlushes_eq_zero hrun' htmax hsmall
  rwa [hnone, Nat.mul_zero, Nat.add_zero] at hbound

end Twin

/-! ### A flush that costs a warp -/

/-- Four tokens and three batches with a warp of three. After one second the first token is
alone, after two it has company. -/
def flushThenFill : List (TwinCall ℚ) :=
  [.enqueue 1 0, .formBatch none none 1, .enqueue 2 (3 / 2), .formBatch none none 2,
    .enqueue 3 (21 / 10), .enqueue 4 (21 / 10), .formBatch none none (21 / 10)]

/-- With one second the last three tokens leave as a warp, with two seconds none does. -/
theorem longer_tmax_loses_warp :
    (enqueued (flushThenFill.map (TwinCall.left "a"))).Nodup
      ∧ (flushThenFill.map TwinCall.time).Pairwise (· ≤ ·)
      ∧ (∀ e ∈ history BufferCall.apply (init ["a"] 3 three_pos 1000 5000)
        (flushThenFill.map (TwinCall.left "a")), e.label.HasRoom "a" e.pre)
      ∧ (∀ e ∈ history BufferCall.apply (init ["a"] 3 three_pos 2000 5000)
        (flushThenFill.map (TwinCall.right "a")), e.label.HasRoom "a" e.pre)
      ∧ fullWarpTokens 3 (history BufferCall.apply (init ["a"] 3 three_pos 1000 5000)
        (flushThenFill.map (TwinCall.left "a"))) = 3
      ∧ fullWarpTokens 3 (history BufferCall.apply (init ["a"] 3 three_pos 2000 5000)
        (flushThenFill.map (TwinCall.right "a"))) = 0 := by
  decide +kernel

/-- The one costly flush accounts for the warp. -/
theorem longer_tmax_bound_three :
    fullWarpTokens 3 (history BufferCall.apply (init ["a"] 3 three_pos 1000 5000)
        (flushThenFill.map (TwinCall.left "a")))
      ≤ fullWarpTokens 3 (history BufferCall.apply (init ["a"] 3 three_pos 2000 5000)
        (flushThenFill.map (TwinCall.right "a"))) + 3 * 1 := by
  have hbound := (longer_tmax_bound ["a"] "a" 3 three_pos 1000 2000 5000 (by norm_num) flushThenFill
    (by decide +kernel) (by decide +kernel) (by decide +kernel)).1
  have hone : costlyFlushes "a"
      (history BufferCall.apply (init ["a"] 3 three_pos 1000 5000)
        (flushThenFill.map (TwinCall.left "a")))
      (history BufferCall.apply (init ["a"] 3 three_pos 2000 5000)
        (flushThenFill.map (TwinCall.right "a"))) = 1 := by decide +kernel
  rwa [hone] at hbound

end AlignmentBuffer

end AdapterSlots
