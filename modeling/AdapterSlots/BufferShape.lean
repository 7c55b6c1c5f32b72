import AdapterSlots.Lib.Runs
import AdapterSlots.BufferDispatch

/-!
# The shape of a dispatched batch

A dispatch takes one block from the head of each adapter it visits and lets
go. `DispatchCall.Shape` says what that means for the batch and for the
buffer after the call, for all four variants: the blocks come in visiting
order, each is a prefix of a queue, whole warps of a long one, they fit
into the budget, and nothing else changes.

What the rules contribute is in `mem_dispatchPlan`, `sum_dispatchPlan_le`
and `DispatchCall.dvd_of_take`; the rest of the shape holds for every rule.
-/

namespace AdapterSlots

open Lib

namespace AlignmentBuffer

variable {K : Type}

/-! ## The planned blocks -/

section Plan

variable [Field K] {rule : String → ℕ → K → ℕ → Verdict} {budget : ℤ} {t : K}
  {b : AlignmentBuffer K}

/-- A planned block is what the rule takes from a non-empty queue at some room. -/
theorem mem_dispatchPlan {blk : Block} : ∀ {ks : List String} {sent : ℕ},
    blk ∈ dispatchPlan rule budget t b ks sent →
      blk.adapter ∈ ks ∧ 0 < (b.queue blk.adapter).length
      ∧ ∃ room, 0 < room ∧ rule blk.adapter (b.queue blk.adapter).length (b.age blk.adapter t) room
          = .take blk.n blk.promoted blk.warps blk.timeouts
  | [], _, h => by cases h
  | k :: ks, sent, h => by
      have hrest : ∀ {sent}, blk ∈ dispatchPlan rule budget t b ks sent → _ := fun h =>
        (mem_dispatchPlan h).imp_left (List.mem_cons_of_mem k)
      rw [dispatchPlan] at h
      split at h
      · cases h
      · rename_i hroom
        split at h
        · exact hrest h
        · rename_i hlen
          split at h
          · cases h
          · exact hrest h
          · rename_i n p w o hv
            rcases List.mem_cons.mp h with rfl | h
            · exact ⟨List.mem_cons_self .., Nat.pos_of_ne_zero hlen, _, by omega, hv⟩
            · exact hrest h

/-- The blocks fit into the budget. -/
theorem sum_dispatchPlan_le (hrule : RuleOk rule) : ∀ (ks : List String) (sent : ℕ),
    (sent + ((dispatchPlan rule budget t b ks sent).map Block.n).sum : ℤ) ≤ max budget sent
  | [], sent => by simp [dispatchPlan]
  | k :: ks, sent => by
      rw [dispatchPlan]
      split
      · simp
      · rename_i hroom
        split
        · exact sum_dispatchPlan_le hrule ks sent
        · rename_i hlen
          split
          · simp
          · exact sum_dispatchPlan_le hrule ks sent
          · rename_i n p w o hv
            obtain ⟨-, -, hle⟩ := hrule k _ _ _ n p w o (by omega) (by omega) hv
            have hrest := sum_dispatchPlan_le hrule ks (sent + n)
            simp only [List.map_cons, List.sum_cons]
            omega

end Plan

theorem adapter_of_mem_tokens {b : AlignmentBuffer K} {blk : Block} {e : String × ℕ × Bool}
    (h : e ∈ tokens b blk) : e.1 = blk.adapter := by
  obtain ⟨_, -, rfl⟩ := List.mem_map.mp h
  rfl

theorem length_tokens {b : AlignmentBuffer K} {blk : Block}
    (h : blk.n ≤ (b.queue blk.adapter).length) : (tokens b blk).length = blk.n := by
  rw [tokens, List.length_map, List.length_take, Nat.min_eq_left h]

theorem tokens_ne_nil {b : AlignmentBuffer K} {blk : Block} (hpos : 0 < blk.n)
    (h : blk.n ≤ (b.queue blk.adapter).length) : tokens b blk ≠ [] := by
  rw [← List.length_pos_iff, length_tokens h]
  exact hpos

/-- The dispatched adapters are those of the tokens. -/
theorem mem_adapters_iff {b : AlignmentBuffer K} {P : List Block} (hpos : ∀ blk ∈ P, 0 < blk.n)
    (hle : ∀ blk ∈ P, blk.n ≤ (b.queue blk.adapter).length) {k : String} :
    k ∈ P.map Block.adapter ↔ ∃ e ∈ P.flatMap (tokens b), e.1 = k := by
  constructor
  · intro hk
    obtain ⟨blk, hblk, rfl⟩ := List.mem_map.mp hk
    obtain ⟨e, he⟩ := List.exists_mem_of_ne_nil _ (tokens_ne_nil (hpos blk hblk) (hle blk hblk))
    exact ⟨e, List.mem_flatMap.mpr ⟨blk, hblk, he⟩, adapter_of_mem_tokens he⟩
  · rintro ⟨e, he, rfl⟩
    obtain ⟨blk, hblk, he⟩ := List.mem_flatMap.mp he
    exact List.mem_map.mpr ⟨blk, hblk, (adapter_of_mem_tokens he).symm⟩

/-- The number of tokens in the blocks. -/
theorem length_flatMap_tokens {b : AlignmentBuffer K} : ∀ {P : List Block},
    (∀ blk ∈ P, blk.n ≤ (b.queue blk.adapter).length) →
    (P.flatMap (tokens b)).length = (P.map Block.n).sum
  | [], _ => rfl
  | blk :: P, h => by
      rw [List.flatMap_cons, List.length_append, length_tokens (h blk (List.mem_cons_self ..)),
        List.map_cons, List.sum_cons,
        length_flatMap_tokens fun blk' h' => h blk' (List.mem_cons_of_mem _ h')]

/-- The maximal adapter runs of a batch are its blocks. -/
theorem maximalRuns_tokens {b : AlignmentBuffer K} {P : List Block}
    (hnd : (P.map Block.adapter).Nodup) (hpos : ∀ blk ∈ P, 0 < blk.n)
    (hle : ∀ blk ∈ P, blk.n ≤ (b.queue blk.adapter).length) :
    maximalRuns Prod.fst (P.flatMap (tokens b)) = P.map (tokens b) := by
  rw [List.flatMap_def]
  refine maximalRuns_flatten ?_ ?_ ?_
  · intro run hrun
    obtain ⟨blk, hblk, rfl⟩ := List.mem_map.mp hrun
    exact tokens_ne_nil (hpos blk hblk) (hle blk hblk)
  · intro run hrun
    obtain ⟨blk, -, rfl⟩ := List.mem_map.mp hrun
    exact fun e he e' he' => (adapter_of_mem_tokens he).trans (adapter_of_mem_tokens he').symm
  · rw [List.isChain_map]
    refine (List.pairwise_map.mp hnd).isChain.imp fun blk blk' hne e he e' he' => ?_
    rw [adapter_of_mem_tokens he, adapter_of_mem_tokens he']
    exact hne

/-- Among blocks of distinct adapters, one decides what its queue loses. -/
theorem taken_of_mem : ∀ {P : List Block} {blk : Block}, (P.map Block.adapter).Nodup → blk ∈ P →
    taken P blk.adapter = blk.n
  | [], _, _, h => by cases h
  | blk' :: P, blk, hnd, h => by
      obtain ⟨hnot, hnd'⟩ := List.nodup_cons.mp hnd
      rw [taken]
      rcases List.mem_cons.mp h with rfl | h
      · rw [if_pos rfl, taken_eq_zero hnot, Nat.add_zero]
      · have hne : blk'.adapter ≠ blk.adapter := fun heq =>
          hnot (heq ▸ List.mem_map.mpr ⟨blk, h, rfl⟩)
        rw [if_neg hne, taken_of_mem hnd' h, Nat.zero_add]

/-! ## Whole warps -/

section Warps

variable [Field K] [LinearOrder K]

/-- From a queue of a warp or more the rules take whole warps. -/
theorem DispatchCall.dvd_of_take (c : DispatchCall K) (b : AlignmentBuffer K) {k : String}
    {qLen room : ℕ} {age : K} {n : ℕ} {p : Bool} {w o : ℕ} (hlong : b.W ≤ qLen)
    (hv : c.rule b k qLen age room = .take n p w o) : b.W ∣ n := by
  have hdeadline : ∀ {deadline : String → K},
      deadlineRule b.W deadline k qLen age room = .take n p w o → b.W ∣ n := by
    intro deadline h
    simp only [deadlineRule, if_pos hlong] at h
    split at h
    · cases h
    · obtain ⟨rfl, -⟩ := Verdict.take.inj h
      exact Nat.dvd_mul_left ..
  cases c with
  | threshold => exact hdeadline hv
  | erlang _ => exact hdeadline hv
  | cash _ _ => exact hdeadline hv
  | wgkp _ _ _ _ =>
      simp only [DispatchCall.rule, wgkpRule, wgkpChoice, if_pos hlong] at hv
      split at hv
      · cases hv
      · obtain ⟨rfl, -⟩ := Verdict.take.inj hv
        exact Nat.dvd_mul_left ..

/-! ## The shape -/

/-- What a call does to the buffer and what it returns, in terms of the blocks
it takes: one for each dispatched adapter. -/
structure DispatchCall.Shape (c : DispatchCall K) (b : AlignmentBuffer K) (m : Option ℤ) (t : K)
    (blocks : List Block) : Prop where
  visited : (blocks.map Block.adapter).Sublist (c.visiting b)
  distinct : (blocks.map Block.adapter).Nodup
  batch : (c.apply b m t).2 = pairs (blocks.flatMap (tokens b))
  /-- With the flags of `form_batch_wgkp`: one flag for each block. -/
  flagged : ∀ ranked tmaxK nStar merged, c = .wgkp ranked tmaxK nStar merged →
    (b.formBatchWgkp ranked tmaxK nStar merged m t).2 = blocks.flatMap (tokens b)
  length_pos : ∀ blk ∈ blocks, 0 < blk.n
  length_le : ∀ blk ∈ blocks, blk.n ≤ (b.queue blk.adapter).length
  warps : ∀ blk ∈ blocks, b.W ≤ (b.queue blk.adapter).length → b.W ∣ blk.n
  budget : ((c.apply b m t).2.length : ℤ) ≤ max (b.budget m) 0
  /-- The dispatched queues lose their blocks. -/
  queue : ∀ blk ∈ blocks,
    (c.apply b m t).1.queue blk.adapter = (b.queue blk.adapter).drop blk.n
  /-- The other queues stay, with the time of their oldest token. -/
  others : ∀ k ∉ blocks.map Block.adapter,
    (c.apply b m t).1.queue k = b.queue k ∧ (c.apply b m t).1.oldest k = b.oldest k
  registered : (c.apply b m t).1.queues.keys = b.queues.keys
  shadow : (c.apply b m t).1.shadow = b.shadow
  shadowTime : (c.apply b m t).1.shadowTime = b.shadowTime
  seqEnqueue : (c.apply b m t).1.seqEnqueue = b.seqEnqueue

theorem formBatchWgkp_eq_plan (b : AlignmentBuffer K) {ranked : List String} (hnd : ranked.Nodup)
    (tmaxK : Dict String K) (nStar : ℤ) (merged : List String) (m : Option ℤ) (t : K) :
    (b.formBatchWgkp ranked tmaxK nStar merged m t).2
      = ((DispatchCall.wgkp ranked tmaxK nStar merged).plan b m t).flatMap (tokens b) := by
  have hrule := (DispatchCall.wgkp ranked tmaxK nStar merged).ruleOk b
  have hplan := DispatchCall.nodup_plan b m t
    (show (DispatchCall.wgkp ranked tmaxK nStar merged).RankedNodup from hnd)
  calc (b.formBatchWgkp ranked tmaxK nStar merged m t).2
    _ = (visitLoop ((DispatchCall.wgkp ranked tmaxK nStar merged).rule b) (b.budget m) t ranked b
          []).2 := rfl
    _ = emitted t b ((DispatchCall.wgkp ranked tmaxK nStar merged).plan b m t) := by
        rw [visitLoop_eq_blocks hrule]
        rfl
    _ = _ := emitted_of_nodup t hplan

/-- The blocks of any call with distinct ranked adapters have this shape. -/
theorem DispatchCall.shape_plan {c : DispatchCall K} (hc : c.RankedNodup) (b : AlignmentBuffer K)
    (m : Option ℤ) (t : K) : c.Shape b m t (c.plan b m t) := by
  have hnd := c.nodup_plan b m t hc
  have hbatch : (c.apply b m t).2 = pairs ((c.plan b m t).flatMap (tokens b)) := by
    rw [c.apply_eq_plan, emitted_of_nodup t hnd]
  have htaken : ∀ blk ∈ c.plan b m t, taken (c.plan b m t) blk.adapter = blk.n :=
    fun blk hblk => taken_of_mem hnd hblk
  have hle : ∀ blk ∈ c.plan b m t, blk.n ≤ (b.queue blk.adapter).length := fun blk hblk => by
    rw [← htaken blk hblk]
    exact taken_le_length _ (c.fits_plan b m t)
  refine ⟨adapters_visitBlocks _ b 0, hnd, hbatch, ?_, ?_, hle, ?_, ?_, ?_, ?_, keys_apply c b m t,
    shadow_apply c b m t, shadowTime_apply c b m t, seqEnqueue_apply c b m t⟩
  · rintro ranked tmaxK nStar merged rfl
    exact formBatchWgkp_eq_plan b hc tmaxK nStar merged m t
  · intro blk hblk
    rw [← htaken blk hblk]
    exact taken_pos (c.fits_plan b m t) (List.mem_map.mpr ⟨blk, hblk, rfl⟩)
  · intro blk hblk hlong
    rw [c.plan_eq_dispatchPlan hc] at hblk
    obtain ⟨-, -, room, -, hv⟩ := mem_dispatchPlan hblk
    exact c.dvd_of_take b hlong hv
  · rw [hbatch, pairs, List.length_map, length_flatMap_tokens hle, c.plan_eq_dispatchPlan hc]
    simpa using sum_dispatchPlan_le (c.ruleOk b) (c.visiting b) 0
  · intro blk hblk
    rw [queue_apply, htaken blk hblk]
  · intro k hk
    rw [queue_apply, oldest_apply, if_neg hk, taken_eq_zero hk]
    exact ⟨rfl, rfl⟩

theorem dispatch_shape {c : DispatchCall K} (hc : c.RankedNodup) (b : AlignmentBuffer K)
    (m : Option ℤ) (t : K) : ∃ blocks, c.Shape b m t blocks :=
  ⟨_, c.shape_plan hc b m t⟩

/-- Three tokens of `a` and one of `b`, warp width two. -/
def threeAndOne : AlignmentBuffer ℚ :=
  ((((init ["a", "b"] 2 Nat.two_pos 5 200).enqueue "a" 1 0).enqueue "a" 2 0).enqueue "a" 3
    0).enqueue "b" 4 0

theorem threeAndOne_shape : ∃ blocks,
    (DispatchCall.wgkp ["b", "a"] .empty 1 ["b"]).Shape threeAndOne (some 3) 1 blocks :=
  have hc : (DispatchCall.wgkp ["b", "a"] (.empty : Dict String ℚ) 1 ["b"]).RankedNodup :=
    show ["b", "a"].Nodup by decide
  dispatch_shape hc threeAndOne (some 3) 1

example : (threeAndOne.formBatchWgkp ["b", "a"] .empty 1 ["b"] (some 3) 1).2
    = [("b", 4, true), ("a", 1, false), ("a", 2, false)] := by decide +kernel

end Warps

end AlignmentBuffer

end AdapterSlots
