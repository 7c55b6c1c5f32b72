import Mathlib.Data.List.Infix
import AdapterSlots.BufferConserve
import AdapterSlots.BufferDeadline

/-!
# The buffer stays small

With the default budget of one warp for every registered adapter, and at
most a warp of new tokens for each adapter between two dispatches, a
dispatch leaves every queue shorter than a warp.

The argument of one dispatch is `lt_warp_of_budget`: a queue shorter than
two warps hands over at most one warp, so as long as the batch has a warp
of room for every adapter still to be visited, no full queue is cut short
and no loop ends early. `backlog_of_run` carries the bound through a run: behind
the last dispatch each queue has grown by the accepted enqueues only.
-/

namespace AdapterSlots

open Lib

namespace AlignmentBuffer

variable {K : Type} [Field K] [LinearOrder K]

/-! ## One dispatch -/

/-- A queue shorter than two warps hands over at most one warp when the batch
has room for one, and less than a warp stays. -/
def TakesWarp (W : ℕ) (rule : String → ℕ → K → ℕ → Verdict) : Prop :=
  ∀ k qLen age room, 0 < qLen → qLen < 2 * W → W ≤ room →
    (qLen < W ∧ rule k qLen age room = .skip)
      ∨ ∃ n p w o, rule k qLen age room = .take n p w o ∧ n ≤ W ∧ qLen - n < W

omit [Field K] [LinearOrder K] in
/-- A queue of one to two warps has exactly one whole warp. -/
theorem wholeWarps_eq_one {W qLen room : ℕ} (hlong : W ≤ qLen) (hlt : qLen < 2 * W)
    (hroom : W ≤ room) : min (qLen / W) (room / W) * W = W := by
  have hW : 0 < W := by omega
  have hone : qLen / W = 1 := Nat.div_eq_of_lt_le (by omega) (by omega)
  rw [hone, Nat.min_eq_left (Nat.div_pos hroom hW), Nat.one_mul]

omit [Field K] in
theorem takesWarp_deadlineRule {W : ℕ} (deadline : String → K) :
    TakesWarp W (deadlineRule W deadline) := by
  intro k qLen age room hpos hlt hroom
  by_cases hlong : W ≤ qLen
  · have hone := wholeWarps_eq_one hlong hlt hroom
    have hne : W ≠ 0 := by omega
    simp only [deadlineRule, if_pos hlong, hone, if_neg hne]
    exact .inr ⟨_, _, _, _, rfl, le_rfl, by omega⟩
  · simp only [deadlineRule, if_neg hlong]
    have hmin : min qLen room = qLen := by omega
    split
    · exact .inr ⟨_, _, _, _, rfl, by omega, by omega⟩
    · exact .inl ⟨by omega, rfl⟩

theorem takesWarp_wgkpRule {W : ℕ} (eff half : ℕ) (deadline : String → K)
    (merged : List String) : TakesWarp W (wgkpRule W eff half deadline merged) := by
  intro k qLen age room hpos hlt hroom
  by_cases hlong : W ≤ qLen
  · have hchoice : (wgkpChoice W eff half deadline merged k qLen age room).1 = W := by
      rw [wgkpChoice_of_long hlong, wholeWarps_eq_one hlong hlt hroom]
    obtain ⟨p, w, o, htake⟩ := wgkpRule_take hchoice (by omega)
    exact .inr ⟨W, p, w, o, htake, le_rfl, by omega⟩
  · -- whatever rule applies, a short queue leaves as a whole or stays
    have hshort : (wgkpChoice W eff half deadline merged k qLen age room).1 ≤ W := by
      have := wgkpChoice_le W eff half deadline merged k qLen age room
      omega
    simp only [wgkpRule]
    split
    · exact .inl ⟨by omega, rfl⟩
    · exact .inr ⟨_, _, _, _, rfl, hshort, by omega⟩

theorem DispatchCall.takesWarp (c : DispatchCall K) (b : AlignmentBuffer K) :
    TakesWarp b.W (c.rule b) := by
  cases c with
  | threshold => exact takesWarp_deadlineRule _
  | erlang _ => exact takesWarp_deadlineRule _
  | cash _ _ => exact takesWarp_deadlineRule _
  | wgkp _ _ _ _ => exact takesWarp_wgkpRule _ _ _ _

/-- How many of the adapters to visit are registered. -/
def registeredAmong (b : AlignmentBuffer K) (ks : List String) : ℕ :=
  ks.countP fun k => decide (k ∈ b.queues)

omit [Field K] [LinearOrder K] in
theorem registeredAmong_cons (b : AlignmentBuffer K) (k : String) (ks : List String) :
    b.registeredAmong (k :: ks) = b.registeredAmong ks + if k ∈ b.queues then 1 else 0 := by
  by_cases hk : k ∈ b.queues <;> simp [registeredAmong, hk]

omit [Field K] [LinearOrder K] in
theorem registeredAmong_le (b : AlignmentBuffer K) {ks : List String} (hnd : ks.Nodup) :
    b.registeredAmong ks ≤ b.queues.keys.length := by
  rw [registeredAmong, List.countP_eq_length_filter]
  refine (List.subperm_of_subset (hnd.sublist List.filter_sublist) fun k hk => ?_).length_le
  exact of_decide_eq_true (List.mem_filter.mp hk).2

omit [Field K] [LinearOrder K] in
theorem length_queue_pos {b : AlignmentBuffer K} {k : String} (h : (b.queue k).length ≠ 0) :
    k ∈ b.queues :=
  mem_queues_of_lt_length (Nat.pos_of_ne_zero h)

section Plan

variable {rule : String → ℕ → K → ℕ → Verdict} {W : ℕ} {budget : ℤ} {t : K}
  {b : AlignmentBuffer K}

omit [LinearOrder K] in
/-- While every adapter still to be visited has a warp of room, every visited
queue ends shorter than a warp. The induction is on the adapters left to
visit. -/
theorem lt_warp_of_budget (hW : 0 < W) (hrule : TakesWarp W rule)
    (hlen : ∀ k, (b.queue k).length < 2 * W) : ∀ {ks : List String} {sent : ℕ}, ks.Nodup →
    ((sent + W * b.registeredAmong ks : ℕ) : ℤ) ≤ budget → ∀ k ∈ ks,
    (b.queue k).length - taken (dispatchPlan rule budget t b ks sent) k < W
  | [], _, _, _, k, hk => by cases hk
  | k₀ :: ks, sent, hnd, hbudget, k, hk => by
      obtain ⟨hnot, hnd'⟩ := List.nodup_cons.mp hnd
      have hzero : ∀ n, taken (dispatchPlan rule budget t b ks n) k₀ = 0 :=
        taken_dispatchPlan hnd' hnot
      rw [dispatchPlan]
      split
      · -- a full batch: no registered adapter is left to visit
        rename_i hfull
        have hnone : b.registeredAmong (k₀ :: ks) = 0 := by
          have hmul : W * b.registeredAmong (k₀ :: ks) = 0 := by omega
          exact (Nat.mul_eq_zero.mp hmul).resolve_left hW.ne'
        have hk' : k ∉ b.queues := by
          simpa using List.countP_eq_zero.mp hnone k hk
        rw [queue_of_not_mem hk', List.length_nil]
        omega
      · rw [registeredAmong_cons] at hbudget
        split
        · rename_i hempty
          rcases List.mem_cons.mp hk with rfl | hk
          · omega
          · refine lt_warp_of_budget hW hrule hlen hnd' (le_trans ?_ hbudget) k hk
            exact_mod_cast Nat.add_le_add_left (Nat.mul_le_mul_left W (Nat.le_add_right ..)) sent
        · rename_i hne
          rw [if_pos (length_queue_pos hne), Nat.mul_succ] at hbudget
          have hrest : ∀ n, n ≤ W → ∀ k ∈ ks, (b.queue k).length
              - taken (dispatchPlan rule budget t b ks (sent + n)) k < W := fun n hn =>
            lt_warp_of_budget hW hrule hlen hnd' (by omega)
          rcases hrule k₀ (b.queue k₀).length (b.age k₀ t) (budget - sent).toNat (by omega)
            (hlen k₀) (by omega) with ⟨hshort, hv⟩ | ⟨n, p, w, o, hv, hn, hleft⟩
          · rw [hv]
            rcases List.mem_cons.mp hk with rfl | hk
            · omega
            · exact hrest 0 (Nat.zero_le _) k hk
          · rw [hv]
            simp only [taken]
            by_cases hk₀ : k₀ = k
            · rw [if_pos hk₀, ← hk₀, hzero]
              exact hleft
            · rw [if_neg hk₀, Nat.zero_add]
              exact hrest n hn k ((List.mem_cons.mp hk).resolve_left fun h => hk₀ h.symm)

end Plan

/-- A dispatch under the default budget that visits every adapter. -/
theorem length_queue_apply_lt {c : DispatchCall K} {b : AlignmentBuffer K} (hc : c.Covers b)
    (hlen : ∀ k, (b.queue k).length < 2 * b.W) (t : K) (k : String) :
    ((c.apply b none t).1.queue k).length < b.W := by
  rw [queue_apply, List.length_drop]
  by_cases hk : k ∈ b.queues
  · have hnd := DispatchCall.nodup_visiting hc.1 b
    rw [c.plan_eq_dispatchPlan hc.1]
    refine lt_warp_of_budget b.W_pos (c.takesWarp b) hlen hnd ?_ k (hc.2 k hk)
    have hreg := Nat.mul_le_mul_left b.W (b.registeredAmong_le hnd)
    simp only [budget, Option.getD_none]
    exact_mod_cast (Nat.zero_add _).trans_le hreg
  · rw [queue_of_not_mem hk, List.length_nil]
    have := b.W_pos
    omega

/-! ## Runs -/

namespace BufferCall

/-- A tick. -/
def isDispatch : BufferCall K → Bool
  | .formBatch _ _ _ => true
  | _ => false

/-- The calls of a run without preemption whose dispatches have the default
budget and visit every adapter once. -/
def UnderDefaultBudget (b : AlignmentBuffer K) : BufferCall K → Prop
  | .formBatch c maxTokens _ => maxTokens = none ∧ c.Covers b
  | .preemptAndHold _ _ => False
  | .resumeFromShadow _ _ _ => False
  | _ => True

/-- What a call adds to the tokens accepted for `k`. -/
def acceptedFor (call : BufferCall K) (b : AlignmentBuffer K) (k : String) : ℕ :=
  match call with
  | .enqueue k' s _ => if k' = k ∧ s ∉ b.seqEnqueue then 1 else 0
  | _ => 0

end BufferCall

/-- The tokens accepted for `k` since the last dispatch. -/
def acceptedSinceDispatch (k : String) (tr : History K) : ℕ :=
  ((sinceLast BufferCall.isDispatch tr).map fun e => e.label.acceptedFor e.pre k).sum

omit [Field K] [LinearOrder K] in
theorem acceptedSinceDispatch_snoc {k : String} {tr : History K}
    {e : Event (AlignmentBuffer K) (BufferCall K) (List (String × ℕ))} :
    acceptedSinceDispatch k (tr ++ [e]) = if e.label.isDispatch then 0
      else acceptedSinceDispatch k tr + e.label.acceptedFor e.pre k := by
  rw [acceptedSinceDispatch, sinceLast_snoc]
  split
  · rfl
  · rw [List.map_append, List.sum_append]
    simp [acceptedSinceDispatch]

omit [Field K] [LinearOrder K] in
theorem acceptedSinceDispatch_le (k : String) (tr : History K) :
    acceptedSinceDispatch k tr ≤ (sinceLast BufferCall.isDispatch tr).length := by
  have hone : ∀ n ∈ (sinceLast BufferCall.isDispatch tr).map fun e => e.label.acceptedFor e.pre k,
      n ≤ 1 := by
    intro n hn
    obtain ⟨e, -, rfl⟩ := List.mem_map.mp hn
    unfold BufferCall.acceptedFor
    split
    · split
      · exact le_rfl
      · exact Nat.zero_le 1
    · exact Nat.zero_le 1
  have hsum := List.sum_le_card_nsmul _ 1 hone
  rw [List.length_map] at hsum
  exact hsum.trans_eq (Nat.mul_one _)

section Step

variable {b b' : AlignmentBuffer K} {call : BufferCall K} {batch : List (String × ℕ)}

omit [Field K] [LinearOrder K] in
theorem W_popBlocks (t : K) : ∀ (P : List Block) (b : AlignmentBuffer K),
    (P.foldl (popBlock t) b).W = b.W
  | [], _ => rfl
  | blk :: P, b => W_popBlocks t P (popBlock t b blk)

omit [Field K] [LinearOrder K] in
theorem W_enqueue (b : AlignmentBuffer K) (k : String) (s : ℕ) (t : K) :
    (b.enqueue k s t).W = b.W := by
  unfold enqueue registerAdapter
  split
  · rfl
  · split <;> rfl

omit [Field K] [LinearOrder K] in
theorem length_queue_enqueue (b : AlignmentBuffer K) (k k' : String) (s : ℕ) (t : K) :
    ((b.enqueue k s t).queue k').length
      = (b.queue k').length + (BufferCall.enqueue k s t).acceptedFor b k' := by
  by_cases hs : s ∈ b.seqEnqueue
  · simp [enqueue_of_recorded hs, BufferCall.acceptedFor, hs]
  · rw [queue_enqueue hs, BufferCall.acceptedFor]
    by_cases hk : k = k'
    · simp [hk, hs]
    · simp [hk]

/-- A call other than a dispatch adds what it accepts. -/
theorem BufferCall.Step.length_queue (hcall : call.UnderDefaultBudget b)
    (hnot : call.isDispatch = false) (h : Step b call batch b') (k : String) :
    b'.W = b.W ∧ (b'.queue k).length = (b.queue k).length + call.acceptedFor b k := by
  cases call with
  | registerAdapter k' =>
      obtain ⟨rfl, -⟩ := Prod.mk.inj h
      refine ⟨?_, by rw [queue_registerAdapter]; rfl⟩
      unfold AlignmentBuffer.registerAdapter
      split <;> rfl
  | enqueue k' s t =>
      obtain ⟨rfl, -⟩ := Prod.mk.inj h
      exact ⟨W_enqueue b k' s t, length_queue_enqueue b k' k s t⟩
  | release | resetStats =>
      obtain ⟨rfl, -⟩ := Prod.mk.inj h
      exact ⟨rfl, rfl⟩
  | formBatch => cases hnot
  | preemptAndHold | resumeFromShadow => exact hcall.elim

/-- A dispatch leaves less than a warp of queues of less than two. -/
theorem BufferCall.Step.length_queue_lt (hcall : call.UnderDefaultBudget b)
    (hdisp : call.isDispatch = true) (h : Step b call batch b')
    (hlen : ∀ k, (b.queue k).length < 2 * b.W) (k : String) :
    b'.W = b.W ∧ (b'.queue k).length < b.W := by
  cases call with
  | formBatch c m t =>
      obtain ⟨rfl, hc⟩ := hcall
      obtain rfl : (c.apply b none t).1 = b' := congrArg Prod.fst h
      refine ⟨?_, length_queue_apply_lt hc hlen t k⟩
      rw [c.apply_eq_plan]
      exact W_popBlocks t _ b
  | registerAdapter | enqueue | release | preemptAndHold | resumeFromShadow | resetStats =>
      cases hdisp

end Step

section Run

variable {adapters : List String} {W : ℕ} {hW : 0 < W} {tmaxMs sloMs : K} {tr : History K}
  {b : AlignmentBuffer K}

/-- Each queue holds less than a warp and what was accepted since the last
dispatch. -/
theorem backlog_of_run (h : Exec BufferCall.Step (init adapters W hW tmaxMs sloMs) tr b)
    (hcalls : ∀ e ∈ tr, e.label.UnderDefaultBudget e.pre)
    (hrate : ∀ tr₁, tr₁ <+: tr → ∀ k, acceptedSinceDispatch k tr₁ ≤ W) :
    b.W = W ∧ ∀ k, (b.queue k).length < W + acceptedSinceDispatch k tr := by
  induction h with
  | nil =>
      refine ⟨rfl, fun k => ?_⟩
      rw [queue_init]
      exact Nat.lt_of_lt_of_le hW (Nat.le_add_right ..)
  | @snoc tr b b' call batch hpath hstep ih =>
      obtain ⟨hWb, hlen⟩ := ih (fun e he => hcalls e (List.mem_append_left _ he))
        fun tr₁ hpre => hrate tr₁ (hpre.trans (List.prefix_append ..))
      have hcall : call.UnderDefaultBudget b := hcalls ⟨b, call, batch, b'⟩ (by simp)
      have hold := hrate tr (List.prefix_append ..)
      cases hdisp : call.isDispatch with
      | true =>
          have hlen' : ∀ k, (b.queue k).length < 2 * b.W := by
            intro k
            have := hlen k
            have := hold k
            omega
          refine ⟨(hstep.length_queue_lt hcall hdisp hlen' "").1.trans hWb, fun k => ?_⟩
          have := (hstep.length_queue_lt hcall hdisp hlen' k).2
          omega
      | false =>
          refine ⟨(hstep.length_queue hcall hdisp "").1.trans hWb, fun k => ?_⟩
          rw [acceptedSinceDispatch_snoc, hdisp, (hstep.length_queue hcall hdisp k).2]
          have := hlen k
          simp only [Bool.false_eq_true, if_false]
          omega

omit [Field K] [LinearOrder K] in
theorem totalQueued_le {n : ℕ} (h : ∀ k, (b.queue k).length ≤ n) :
    b.totalQueued ≤ b.queues.keys.length * n :=
  Dict.sumBy_le fun k q hget => by
    have := h k
    rwa [queue, Dict.getD, hget] at this

/-- **Memory bound.** With at most a warp of accepted tokens for each adapter
between two dispatches under the default budget, each dispatch leaves less
than a warp in every queue, and at no point does the buffer hold more than
`2 W - 1` tokens for each adapter. -/
theorem buffer_stays_small (h : Exec BufferCall.Step (init adapters W hW tmaxMs sloMs) tr b)
    (hcalls : ∀ e ∈ tr, e.label.UnderDefaultBudget e.pre)
    (hrate : ∀ tr₁, tr₁ <+: tr → ∀ k, acceptedSinceDispatch k tr₁ ≤ W) :
    (∀ e ∈ tr, e.label.isDispatch → (∀ k, (e.post.queue k).length < W)
        ∧ e.post.totalQueued ≤ e.post.queues.keys.length * (W - 1)
        ∧ e.post.queues.keys.length * (W - 1) ≤ e.post.queues.keys.length * W)
      ∧ b.totalQueued ≤ b.queues.keys.length * (2 * W - 1)
      ∧ ∀ e ∈ tr, e.pre.totalQueued ≤ e.pre.queues.keys.length * (2 * W - 1)
        ∧ e.post.totalQueued ≤ e.post.queues.keys.length * (2 * W - 1) := by
  have hreach : ∀ {tr₁ : History K} {b₁ : AlignmentBuffer K}, tr₁ <+: tr →
      Exec BufferCall.Step (init adapters W hW tmaxMs sloMs) tr₁ b₁ →
      (∀ k, (b₁.queue k).length < W + acceptedSinceDispatch k tr₁)
        ∧ b₁.totalQueued ≤ b₁.queues.keys.length * (2 * W - 1) := by
    intro tr₁ b₁ hpre hexec
    have hlen := (backlog_of_run hexec (fun e he => hcalls e (hpre.subset he))
      fun tr₂ hpre₂ => hrate tr₂ (hpre₂.trans hpre)).2
    refine ⟨hlen, totalQueued_le fun k => ?_⟩
    have := hlen k
    have := hrate tr₁ hpre k
    omega
  refine ⟨fun e he hdisp => ?_, (hreach (List.prefix_refl _) h).2, fun e he => ?_⟩
  · obtain ⟨tr₁, tr₂, heq⟩ := List.append_of_mem he
    have hpre : tr₁ ++ [e] <+: tr := ⟨tr₂, by rw [heq, List.append_assoc]; rfl⟩
    have hlen : ∀ k, (e.post.queue k).length < W := by
      intro k
      have := (hreach hpre (h.upto_event heq)).1 k
      rwa [acceptedSinceDispatch_snoc, if_pos hdisp, Nat.add_zero] at this
    exact ⟨hlen, totalQueued_le fun k => Nat.le_pred_of_lt (hlen k),
      Nat.mul_le_mul_left _ (Nat.pred_le W)⟩
  · obtain ⟨tr₁, tr₂, heq⟩ := List.append_of_mem he
    have hpre : tr₁ ++ [e] <+: tr := ⟨tr₂, by rw [heq, List.append_assoc]; rfl⟩
    exact ⟨(hreach ((List.prefix_append ..).trans hpre) (h.before_event heq)).2,
      (hreach hpre (h.upto_event heq)).2⟩

/-- Two adapters with two tokens each between dispatches, warp width four. -/
def twoOfEach : List (BufferCall ℚ) :=
  [.enqueue "a" 1 0, .enqueue "a" 2 0, .enqueue "b" 3 0, .enqueue "b" 4 0,
    .formBatch .threshold none 0, .enqueue "a" 5 0, .enqueue "a" 6 0, .enqueue "b" 7 0]

theorem twoOfEach_small :
    (final BufferCall.apply (init [] 4 (by decide) (5 : ℚ) 200) twoOfEach).totalQueued = 7
      ∧ (final BufferCall.apply (init [] 4 (by decide) (5 : ℚ) 200) twoOfEach).totalQueued
        ≤ (final BufferCall.apply (init [] 4 (by decide) (5 : ℚ) 200)
            twoOfEach).queues.keys.length * (2 * 4 - 1) := by
  have hrun := exec_history BufferCall.apply twoOfEach (init [] 4 (by decide) (5 : ℚ) 200)
  have hcalls : ∀ e ∈ history BufferCall.apply (init [] 4 (by decide) (5 : ℚ) 200) twoOfEach,
      e.label.UnderDefaultBudget e.pre := by
    simp [twoOfEach, history, BufferCall.UnderDefaultBudget, DispatchCall.Covers,
      DispatchCall.RankedNodup, DispatchCall.visiting, Dict.mem_def]
  have hshort : ∀ tr₁ ∈ (history BufferCall.apply (init [] 4 (by decide) (5 : ℚ) 200)
      twoOfEach).inits, (sinceLast BufferCall.isDispatch tr₁).length ≤ 4 := by decide +kernel
  exact ⟨by decide +kernel, (buffer_stays_small hrun hcalls fun tr₁ hpre k =>
    (acceptedSinceDispatch_le k tr₁).trans (hshort tr₁ ((List.mem_inits _ _).mpr hpre))).2.1⟩

end Run

end AlignmentBuffer

end AdapterSlots
