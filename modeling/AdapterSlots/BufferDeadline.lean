import Mathlib.Algebra.Order.BigOperators.Group.List
import Mathlib.Algebra.Order.Group.Defs
import Mathlib.Algebra.Order.Ring.Rat
import AdapterSlots.BufferConserve

/-!
# Deadlines

With room for every queued token, a dispatch empties each queue shorter
than a warp whose oldest token has reached the deadline. A queue of a warp
or more takes the other branch of the rule: whole warps leave, and the
remainder stays whatever its age. `dispatch_leaves_no_expired_iff` says
that an expired token stays behind exactly when it is in such a remainder.

`Timely` is the invariant of runs of enqueues and dispatches: the queues
are sorted by time and `enqueue_time` is the time of their first token.
-/

namespace AdapterSlots

open Lib

namespace AlignmentBuffer

variable {K : Type}

/-! ## Queues in time order -/

section Timely

variable [LinearOrder K] {b : AlignmentBuffer K}

/-- The queues are in time order and `enqueue_time` is the time of the head. -/
structure Timely (b : AlignmentBuffer K) : Prop where
  sorted : ∀ k, (b.queue k).Pairwise fun e e' => e.2 ≤ e'.2
  head : ∀ k, b.oldest k = (b.queue k).head?.map Prod.snd

theorem Timely.init [Field K] (adapters : List String) (W : ℕ) (hW : 0 < W) (tmaxMs sloMs : K) :
    (init adapters W hW tmaxMs sloMs).Timely := by
  refine ⟨fun k => ?_, fun k => ?_⟩
  · rw [queue_init]
    exact List.Pairwise.nil
  · rw [queue_init, oldest_init]
    rfl

theorem Timely.enqueue (hr : b.Registered) (hb : b.Timely) {k : String} {s : ℕ} {t : K}
    (ht : ∀ e ∈ b.queue k, e.2 ≤ t) : (b.enqueue k s t).Timely := by
  by_cases hs : s ∈ b.seqEnqueue
  · rwa [enqueue_of_recorded hs]
  · refine ⟨fun k' => ?_, fun k' => ?_⟩
    · rw [queue_enqueue hs]
      split
      · refine List.pairwise_append.mpr ⟨hb.sorted k, List.pairwise_singleton .., ?_⟩
        intro e he e' he'
        obtain rfl := List.mem_singleton.mp he'
        exact ht e he
      · exact hb.sorted k'
    · rw [queue_enqueue hs, oldest_enqueue hr hs]
      by_cases hk : k = k'
      · subst hk
        have hhead := hb.head k
        cases hq : b.queue k with
        | nil =>
            rw [hq] at hhead
            simp [hhead]
        | cons e q =>
            rw [hq] at hhead
            simp [hhead]
      · rw [if_neg hk, if_neg fun h => hk h.1]
        exact hb.head k'

theorem Timely.apply [Field K] (hb : b.Timely) (c : DispatchCall K) (m : Option ℤ) (t : K) :
    (c.apply b m t).1.Timely := by
  refine ⟨fun k => ?_, fun k => ?_⟩
  · rw [queue_apply]
    exact (hb.sorted k).sublist (List.drop_sublist ..)
  · rw [queue_apply, oldest_apply]
    split
    · rfl
    · rename_i hk
      rw [taken_eq_zero hk, List.drop_zero]
      exact hb.head k

/-- The head of a timely queue is its oldest token, and `age` is its age. -/
theorem Timely.le_age [Field K] [IsStrictOrderedRing K] (hb : b.Timely) {k : String} {t : K} :
    ∀ e ∈ b.queue k, t - e.2 ≤ b.age k t := by
  intro e he
  have hsorted := hb.sorted k
  rw [age, hb.head k]
  cases hq : b.queue k with
  | nil => rw [hq] at he; cases he
  | cons e₀ q =>
      rw [hq] at he hsorted
      have hle : e₀.2 ≤ e.2 := by
        rcases List.mem_cons.mp he with rfl | he
        · exact le_refl _
        · exact (List.pairwise_cons.mp hsorted).1 e he
      exact sub_le_sub_left hle t

end Timely

/-! ## A dispatch with room for every token -/

section Roomy

variable [Field K] [LinearOrder K]

/-- What a rule does with a queue that fits into the batch: whole warps of a
long queue; all of a short one, or nothing of it before its deadline. -/
def Flushes (W : ℕ) (deadline : String → K) (rule : String → ℕ → K → ℕ → Verdict) : Prop :=
  ∀ k qLen age room, 0 < qLen → qLen ≤ room →
    (W ≤ qLen ∧ ∃ p w o, rule k qLen age room = .take (qLen / W * W) p w o)
      ∨ (qLen < W ∧ ∃ p w o, rule k qLen age room = .take qLen p w o)
      ∨ (qLen < W ∧ age < deadline k ∧ rule k qLen age room = .skip)

omit [Field K] in
theorem flushes_deadlineRule {W : ℕ} (hW : 0 < W) (deadline : String → K) :
    Flushes W deadline (deadlineRule W deadline) := by
  intro k qLen age room hpos hroom
  rw [deadlineRule_of_room hW deadline k age hroom]
  by_cases hlong : W ≤ qLen
  · rw [if_pos hlong]
    exact .inl ⟨hlong, _, _, _, rfl⟩
  · rw [if_neg hlong]
    by_cases hage : deadline k ≤ age
    · rw [if_pos hage]
      exact .inr (.inl ⟨by omega, _, _, _, rfl⟩)
    · rw [if_neg hage]
      exact .inr (.inr ⟨by omega, not_le.mp hage, rfl⟩)

theorem flushes_wgkpRule {W : ℕ} (hW : 0 < W) (eff half : ℕ) (deadline : String → K)
    (merged : List String) : Flushes W deadline (wgkpRule W eff half deadline merged) := by
  intro k qLen age room hpos hroom
  rcases Nat.lt_or_ge qLen W with hshort | hlong
  · by_cases hleaves : eff ≤ qLen ∨ (half ≤ qLen ∧ deadline k / 2 < age) ∨ deadline k ≤ age
    · refine .inr (.inl ⟨hshort, wgkpRule_take ?_ hpos.ne'⟩)
      rw [wgkpChoice_of_short hshort, if_pos hleaves, Nat.min_eq_left hroom]
    · refine .inr (.inr ⟨hshort, not_le.mp fun hage => hleaves (.inr (.inr hage)),
        wgkpRule_skip ?_⟩)
      rw [wgkpChoice_of_short hshort, if_neg hleaves]
  · refine .inl ⟨hlong, wgkpRule_take ?_ (Nat.mul_pos (Nat.div_pos hlong hW) hW).ne'⟩
    rw [wgkpChoice_of_long hlong, Nat.min_eq_left (Nat.div_le_div_right hroom)]

theorem DispatchCall.flushes (c : DispatchCall K) (b : AlignmentBuffer K) :
    Flushes b.W (c.deadline b) (c.rule b) := by
  cases c with
  | threshold => exact flushes_deadlineRule b.W_pos _
  | erlang _ => exact flushes_deadlineRule b.W_pos _
  | cash _ _ => exact flushes_deadlineRule b.W_pos _
  | wgkp _ _ _ _ => exact flushes_wgkpRule b.W_pos _ _ _ _

variable {rule : String → ℕ → K → ℕ → Verdict} {deadline : String → K} {W : ℕ} {budget : ℤ}
  {t : K} {b : AlignmentBuffer K}

/-- What leaves the queue of a visited adapter when every token fits. -/
structure Flushed (b : AlignmentBuffer K) (W : ℕ) (deadline : String → K) (t : K) (n : ℕ)
    (k : String) : Prop where
  long : W ≤ (b.queue k).length → n = (b.queue k).length / W * W
  short : (b.queue k).length < W →
    n = (b.queue k).length ∨ n = 0 ∧ b.age k t < deadline k

theorem flushed_of_empty (hW : 0 < W) {k : String}
    (h : (b.queue k).length = 0) : Flushed b W deadline t 0 k :=
  ⟨fun hlong => by omega, fun _ => .inl h.symm⟩

/-- A block before blocks of other adapters. -/
theorem flushed_taken_cons {blk : Block} {P : List Block} {k : String}
    (hzero : taken P blk.adapter = 0)
    (hself : k = blk.adapter → Flushed b W deadline t blk.n k)
    (hrest : k ≠ blk.adapter → Flushed b W deadline t (taken P k) k) :
    Flushed b W deadline t (taken (blk :: P) k) k := by
  rw [taken]
  by_cases hk : k = blk.adapter
  · rw [if_pos hk.symm, hk, hzero]
    exact hk ▸ hself hk
  · rw [if_neg fun heq => hk heq.symm, Nat.zero_add]
    exact hrest hk

/-- With room for all remaining queues, every visited queue is flushed. The
induction is on the adapters left to visit. -/
theorem flushed_of_roomy (hW : 0 < W) (hrule : Flushes W deadline rule) : ∀ {ks : List String}
    {sent : ℕ}, ks.Nodup →
    ((sent + (ks.map fun k => (b.queue k).length).sum : ℕ) : ℤ) ≤ budget → ∀ k ∈ ks,
    Flushed b W deadline t (taken (dispatchPlan rule budget t b ks sent) k) k
  | [], _, _, _, k, hk => by cases hk
  | k₀ :: ks, sent, hnd, hroom, k, hk => by
      obtain ⟨hnot, hnd'⟩ := List.nodup_cons.mp hnd
      have hzero : ∀ n, taken (dispatchPlan rule budget t b ks n) k₀ = 0 :=
        taken_dispatchPlan hnd' hnot
      have hle : (b.queue k).length ≤ ((k₀ :: ks).map fun k => (b.queue k).length).sum :=
        List.single_le_sum (fun _ _ => Nat.zero_le _) _ (List.mem_map.mpr ⟨k, hk, rfl⟩)
      rw [List.map_cons, List.sum_cons] at hroom hle
      rw [dispatchPlan]
      split
      · -- a full batch: nothing is left in the queues to visit
        exact flushed_of_empty hW (by omega)
      · split
        · rename_i hempty
          rcases List.mem_cons.mp hk with rfl | hk
          · rw [hzero]
            exact flushed_of_empty hW hempty
          · exact flushed_of_roomy hW hrule hnd' (by omega) k hk
        · rename_i hne
          have hrest : ∀ n, n ≤ (b.queue k₀).length → k ≠ k₀ →
              Flushed b W deadline t (taken (dispatchPlan rule budget t b ks (sent + n)) k) k :=
            fun n hn hne => flushed_of_roomy hW hrule hnd' (by omega) k
              ((List.mem_cons.mp hk).resolve_left hne)
          rcases hrule k₀ (b.queue k₀).length (b.age k₀ t) (budget - sent).toNat (by omega)
            (by omega) with ⟨hlong, p, w, o, hv⟩ | ⟨hshort, p, w, o, hv⟩ | ⟨hshort, hage, hv⟩
          · rw [hv]
            refine flushed_taken_cons (hzero _) ?_ (hrest _ (Nat.div_mul_le_self ..))
            rintro rfl
            exact ⟨fun _ => rfl, fun h => by omega⟩
          · rw [hv]
            refine flushed_taken_cons (hzero _) ?_ (hrest _ le_rfl)
            rintro rfl
            exact ⟨fun h => by omega, fun _ => .inl rfl⟩
          · rw [hv]
            rcases List.mem_cons.mp hk with rfl | hk
            · show Flushed b W deadline t (taken (dispatchPlan rule budget t b ks sent) k) k
              rw [hzero]
              exact ⟨fun h => by omega, fun _ => .inr ⟨rfl, hage⟩⟩
            · exact flushed_of_roomy hW hrule hnd' (by omega) k hk

end Roomy

/-! ## Expired tokens -/

section Expired

variable [Field K] [LinearOrder K] {b : AlignmentBuffer K}

/-- The call visits every registered adapter, and none twice. -/
def DispatchCall.Covers (c : DispatchCall K) (b : AlignmentBuffer K) : Prop :=
  c.RankedNodup ∧ ∀ k ∈ b.queues, k ∈ c.visiting b

/-- The tokens of `Q_k` behind its last whole warp; all of them when there is
none. -/
def remainder (b : AlignmentBuffer K) (k : String) : List (ℕ × K) :=
  (b.queue k).drop ((b.queue k).length / b.W * b.W)

theorem flushed_of_covers {c : DispatchCall K} {m : Option ℤ} {t : K} (hc : c.Covers b)
    (hm : (b.totalQueued : ℤ) ≤ b.budget m) (k : String) :
    Flushed b b.W (c.deadline b) t (taken (c.plan b m t) k) k := by
  by_cases hk : k ∈ c.visiting b
  · have hnd := DispatchCall.nodup_visiting hc.1 b
    have hsum : ((c.visiting b).map fun k => (b.queue k).length).sum ≤ b.totalQueued := by
      refine le_trans (le_of_eq ?_) (Dict.sum_map_get?_le List.length b.queues hnd)
      congr 1
      refine List.map_congr_left fun k _ => ?_
      rw [queue, Dict.getD]
      cases b.queues.get? k <;> rfl
    rw [c.plan_eq_dispatchPlan hc.1]
    exact flushed_of_roomy b.W_pos (c.flushes b) hnd (by omega) k hk
  · have hnot : k ∉ (c.plan b m t).map Block.adapter := fun h =>
      hk ((adapters_visitBlocks _ b 0).subset h)
    rw [taken_eq_zero hnot]
    refine flushed_of_empty b.W_pos ?_
    rw [queue_of_not_mem fun h => hk (hc.2 k h), List.length_nil]

/-- One adapter: what is left of its queue is unexpired exactly when the
remainder of a queue of a warp or more is. -/
theorem Flushed.unexpired_iff [IsStrictOrderedRing K] (hb : b.Timely) {deadline : String → K}
    {t : K} {n : ℕ} {k : String} (h : Flushed b b.W deadline t n k) :
    (∀ e ∈ (b.queue k).drop n, t - e.2 < deadline k)
      ↔ (b.W ≤ (b.queue k).length → ∀ e ∈ b.remainder k, t - e.2 < deadline k) := by
  rcases le_or_gt b.W (b.queue k).length with hlong | hshort
  · rw [h.long hlong]
    exact ⟨fun h _ => h, fun h => h hlong⟩
  · refine iff_of_true ?_ fun hlong => by omega
    rcases h.short hshort with rfl | ⟨rfl, hage⟩
    · simp
    · intro e he
      exact lt_of_le_of_lt (hb.le_age e (List.mem_of_mem_drop he)) hage

end Expired

/-! ## Runs of enqueues and dispatches -/

section Run

variable [Field K] [LinearOrder K]

def BufferCall.EnqueueOrDispatch : BufferCall K → Prop
  | .enqueue _ _ _ => True
  | .formBatch _ _ _ => True
  | _ => False

variable {adapters : List String} {W : ℕ} {hW : 0 < W} {tmaxMs sloMs : K} {tr : History K}
  {b : AlignmentBuffer K}

/-- The queues stay in time order, and their times are readings of the run. -/
theorem timely_of_run (h : Exec BufferCall.Step (init adapters W hW tmaxMs sloMs) tr b)
    (honly : ∀ e ∈ tr, e.label.EnqueueOrDispatch)
    (hclock : (readings BufferCall.clock? tr).Pairwise (· ≤ ·)) :
    b.Timely ∧ ∀ k, ∀ e ∈ b.queue k, e.2 ∈ readings BufferCall.clock? tr := by
  induction h with
  | nil =>
      refine ⟨Timely.init .., fun k e he => ?_⟩
      rw [queue_init] at he
      cases he
  | @snoc tr b b' call batch hpath hstep ih =>
      obtain ⟨hclock, hle⟩ := readings_le_of_snoc hclock
      obtain ⟨hb, hst⟩ := ih (fun e he => honly e (List.mem_append_left _ he)) hclock
      have hcall : call.EnqueueOrDispatch := honly ⟨b, call, batch, b'⟩ (by simp)
      have hold : ∀ k, ∀ e ∈ b.queue k,
          e.2 ∈ readings BufferCall.clock? (tr ++ [⟨b, call, batch, b'⟩]) := by
        intro k e he
        rw [readings_snoc]
        exact List.mem_append_left _ (hst k e he)
      cases call with
      | enqueue k s t =>
          obtain ⟨rfl, rfl⟩ := Prod.mk.inj hstep
          refine ⟨hb.enqueue (registered_of_run hpath).1 fun e he =>
            hle e.2 (hst k e he) t rfl, fun k' e he => ?_⟩
          rcases mem_queue_of_enqueue he with he | rfl
          · exact hold k' e he
          · rw [readings_snoc]
            exact List.mem_append_right _ (by simp [BufferCall.clock?])
      | formBatch c m t =>
          obtain rfl := congrArg Prod.fst hstep
          refine ⟨hb.apply c m t, fun k e he => ?_⟩
          change e ∈ (c.apply b m t).1.queue k at he
          rw [queue_apply] at he
          exact hold k e (List.mem_of_mem_drop he)
      | registerAdapter | release | preemptAndHold | resumeFromShadow | resetStats =>
          exact hcall.elim

/-- **Deadlines.** In a state reached by enqueues and dispatches, a dispatch
that visits every adapter and has room for every token leaves no token past
its queue's deadline if and only if the remainder of every queue of a warp
or more is unexpired. -/
theorem dispatch_leaves_no_expired_iff [IsStrictOrderedRing K]
    (h : Exec BufferCall.Step (init adapters W hW tmaxMs sloMs) tr b)
    (honly : ∀ e ∈ tr, e.label.EnqueueOrDispatch)
    (hclock : (readings BufferCall.clock? tr).Pairwise (· ≤ ·))
    (c : DispatchCall K) (m : Option ℤ) (t : K) (hc : c.Covers b)
    (hm : (b.totalQueued : ℤ) ≤ b.budget m) :
    (∀ k, ∀ e ∈ (c.apply b m t).1.queue k, t - e.2 < c.deadline b k)
      ↔ ∀ k, b.W ≤ (b.queue k).length → ∀ e ∈ b.remainder k, t - e.2 < c.deadline b k := by
  have hb := (timely_of_run h honly hclock).1
  refine forall_congr' fun k => ?_
  rw [queue_apply]
  exact (flushed_of_covers hc hm k).unexpired_iff hb

/-- Three tokens of one adapter in a buffer of warp width two. -/
def threeTokens (t₃ : ℚ) : List (BufferCall ℚ) :=
  [.enqueue "a" 1 0, .enqueue "a" 2 0, .enqueue "a" 3 t₃]

/-- The third token is fresh when the warp leaves. -/
theorem threeTokens_fresh_remainder :
    (DispatchCall.apply .threshold (final BufferCall.apply
        (init [] 2 (by decide) 5 200) (threeTokens 1)) (some 3) 1).1.queue "a" = [(3, 1)]
      ∧ ∀ e ∈ (DispatchCall.apply .threshold (final BufferCall.apply
            (init [] 2 (by decide) 5 200) (threeTokens 1)) (some 3) 1).1.queue "a",
          (1 : ℚ) - e.2 < DispatchCall.threshold.deadline
            (final BufferCall.apply (init [] 2 (by decide) 5 200) (threeTokens 1)) "a" := by
  have hrun := exec_history BufferCall.apply (threeTokens 1) (init [] 2 (by decide) (5 : ℚ) 200)
  have hclock : (readings BufferCall.clock? (history BufferCall.apply
      (init [] 2 (by decide) (5 : ℚ) 200) (threeTokens 1))).Pairwise (· ≤ ·) := by decide +kernel
  have honly : ∀ e ∈ history BufferCall.apply (init [] 2 (by decide) (5 : ℚ) 200) (threeTokens 1),
      e.label.EnqueueOrDispatch := by
    simp [threeTokens, history, BufferCall.EnqueueOrDispatch]
  refine ⟨by decide +kernel, (dispatch_leaves_no_expired_iff hrun honly hclock .threshold (some 3) 1
    ⟨trivial, fun k hk => hk⟩ (by decide +kernel)).mpr (fun k hlong => ?_) "a"⟩
  by_cases hk : k = "a"
  · subst hk
    decide +kernel
  · have hempty : (final BufferCall.apply (init [] 2 (by decide) (5 : ℚ) 200)
        (threeTokens 1)).queue k = [] := by
      refine queue_of_not_mem ?_
      rw [Dict.mem_def, show Dict.keys _ = ["a"] by decide +kernel]
      simpa using hk
    rw [hempty] at hlong
    exact absurd hlong (by decide +kernel)

/-- All three tokens are ten seconds old: the warp leaves and the third stays,
although the deadline is five milliseconds and the batch has room for it. -/
theorem threeTokens_expired_remainder :
    (readings BufferCall.clock? (history BufferCall.apply (init [] 2 (by decide) (5 : ℚ) 200)
        (threeTokens 0))).Pairwise (· ≤ ·)
      ∧ ((final BufferCall.apply (init [] 2 (by decide) (5 : ℚ) 200)
          (threeTokens 0)).totalQueued : ℤ) ≤ 3
      ∧ ¬ ∀ k, ∀ e ∈ (DispatchCall.apply .threshold (final BufferCall.apply
            (init [] 2 (by decide) 5 200) (threeTokens 0)) (some 3) 10).1.queue k,
          (10 : ℚ) - e.2 < DispatchCall.threshold.deadline
            (final BufferCall.apply (init [] 2 (by decide) 5 200) (threeTokens 0)) k := by
  refine ⟨by decide +kernel, by decide +kernel, fun h => ?_⟩
  have ha := h "a" (3, 0) (by decide +kernel)
  exact absurd ha (by decide +kernel)

end Run

end AlignmentBuffer

end AdapterSlots
