import AdapterSlots.BufferShape

/-!
# When the visiting order matters

The ranked dispatchers share one budget between the adapters they visit.
While the budget holds every listed token, no decision of the loop depends
on what was taken before (`RoomFree`), so the blocks are a function of the
buffer, adapter by adapter (`dispatchPlan_of_room`), and another order of
the adapters only reorders the blocks.

Blocks of distinct adapters commute (`popBlocks_perm`). The buffers after
them are equal up to the insertion order of the dictionaries
(`SameState`), which is equality of the Python objects.
-/

namespace AdapterSlots

open Lib

namespace AlignmentBuffer

variable {K : Type}

/-! ## Lookups after a block -/

section Lookups

variable (b : AlignmentBuffer K) (t : K) (blk : Block) (k : String)

theorem get?_queues_popBlock : (popBlock t b blk).queues.get? k
    = if blk.adapter = k then some ((b.queue blk.adapter).drop blk.n) else b.queues.get? k :=
  Dict.get?_insert ..

theorem get?_enqueueTime_popBlock : (popBlock t b blk).enqueueTime.get? k
    = if blk.adapter = k then some (((b.queue blk.adapter).drop blk.n).head?.map Prod.snd)
      else b.enqueueTime.get? k :=
  Dict.get?_insert ..

theorem get?_lastDispatch_popBlock : (popBlock t b blk).lastDispatch.get? k
    = if blk.adapter = k then some t else b.lastDispatch.get? k :=
  Dict.get?_insert ..

end Lookups

/-! ## States that are equal as Python values -/

/-- Equal fields; the dictionaries the loop writes are compared by lookup, the
queues also in their registration order. -/
structure SameState (b b' : AlignmentBuffer K) : Prop where
  warp : b.W = b'.W
  tMax : b.tMax = b'.tMax
  ttftSlo : b.ttftSlo = b'.ttftSlo
  registered : b.queues.keys = b'.queues.keys
  queues : ∀ k, b.queues.get? k = b'.queues.get? k
  shadow : b.shadow = b'.shadow
  shadowTime : b.shadowTime = b'.shadowTime
  enqueueTime : ∀ k, b.enqueueTime.get? k = b'.enqueueTime.get? k
  lastDispatch : ∀ k, b.lastDispatch.get? k = b'.lastDispatch.get? k
  nWarpsDispatched : b.nWarpsDispatched = b'.nWarpsDispatched
  nTimeoutDispatches : b.nTimeoutDispatches = b'.nTimeoutDispatches
  nTokensEnqueued : b.nTokensEnqueued = b'.nTokensEnqueued
  nTokensDispatched : b.nTokensDispatched = b'.nTokensDispatched
  seqEnqueue : b.seqEnqueue = b'.seqEnqueue

namespace SameState

theorem rfl {b : AlignmentBuffer K} : SameState b b := by
  constructor <;> intros <;> trivial

theorem trans {b₁ b₂ b₃ : AlignmentBuffer K} (h : SameState b₁ b₂) (h' : SameState b₂ b₃) :
    SameState b₁ b₃ where
  warp := h.warp.trans h'.warp
  tMax := h.tMax.trans h'.tMax
  ttftSlo := h.ttftSlo.trans h'.ttftSlo
  registered := h.registered.trans h'.registered
  queues k := (h.queues k).trans (h'.queues k)
  shadow := h.shadow.trans h'.shadow
  shadowTime := h.shadowTime.trans h'.shadowTime
  enqueueTime k := (h.enqueueTime k).trans (h'.enqueueTime k)
  lastDispatch k := (h.lastDispatch k).trans (h'.lastDispatch k)
  nWarpsDispatched := h.nWarpsDispatched.trans h'.nWarpsDispatched
  nTimeoutDispatches := h.nTimeoutDispatches.trans h'.nTimeoutDispatches
  nTokensEnqueued := h.nTokensEnqueued.trans h'.nTokensEnqueued
  nTokensDispatched := h.nTokensDispatched.trans h'.nTokensDispatched
  seqEnqueue := h.seqEnqueue.trans h'.seqEnqueue

theorem queue {b b' : AlignmentBuffer K} (h : SameState b b') (k : String) :
    b.queue k = b'.queue k := by
  rw [AlignmentBuffer.queue, AlignmentBuffer.queue, Dict.getD, Dict.getD, h.queues k]

/-- A block is popped from both in the same way. -/
theorem popBlock {b b' : AlignmentBuffer K} (h : SameState b b') {t : K} {blk : Block}
    (hreg : blk.adapter ∈ b.queues) : SameState (popBlock t b blk) (popBlock t b' blk) := by
  have hreg' : blk.adapter ∈ b'.queues := by
    rw [Dict.mem_def, ← h.registered]
    exact hreg
  have hq := h.queue blk.adapter
  refine { h with registered := ?_, queues := ?_, enqueueTime := ?_, lastDispatch := ?_,
                  nWarpsDispatched := ?_, nTimeoutDispatches := ?_, nTokensDispatched := ?_ }
  · exact (Dict.keys_insert_of_mem hreg _).trans
      (h.registered.trans (Dict.keys_insert_of_mem hreg' _).symm)
  · intro k
    rw [get?_queues_popBlock, get?_queues_popBlock, hq, h.queues k]
  · intro k
    rw [get?_enqueueTime_popBlock, get?_enqueueTime_popBlock, hq, h.enqueueTime k]
  · intro k
    rw [get?_lastDispatch_popBlock, get?_lastDispatch_popBlock, h.lastDispatch k]
  · exact congrArg (· + blk.warps) h.nWarpsDispatched
  · exact congrArg (· + blk.timeouts) h.nTimeoutDispatches
  · exact congrArg (· + blk.n) h.nTokensDispatched

end SameState

/-! ## Blocks of distinct adapters commute -/

theorem mem_queues_popBlock {b : AlignmentBuffer K} {t : K} {blk : Block} {k : String}
    (hk : k ∈ b.queues) : k ∈ (popBlock t b blk).queues :=
  Dict.mem_insert.mpr (.inr hk)

theorem popBlocks_congr {t : K} : ∀ {P : List Block} {b b' : AlignmentBuffer K},
    SameState b b' → (∀ blk ∈ P, blk.adapter ∈ b.queues) →
    SameState (P.foldl (popBlock t) b) (P.foldl (popBlock t) b')
  | [], _, _, h, _ => h
  | blk :: P, b, b', h, hreg => by
      rw [List.foldl_cons, List.foldl_cons]
      refine popBlocks_congr (h.popBlock (hreg blk (List.mem_cons_self ..))) fun blk' hblk' => ?_
      exact mem_queues_popBlock (hreg blk' (List.mem_cons_of_mem _ hblk'))

theorem popBlock_comm {b : AlignmentBuffer K} {t : K} {x y : Block} (hne : x.adapter ≠ y.adapter)
    (hx : x.adapter ∈ b.queues) (hy : y.adapter ∈ b.queues) :
    SameState (popBlock t (popBlock t b x) y) (popBlock t (popBlock t b y) x) := by
  have hqy : (popBlock t b x).queue y.adapter = b.queue y.adapter := by
    rw [popBlock, queue_popChunk, if_neg hne]
  have hqx : (popBlock t b y).queue x.adapter = b.queue x.adapter := by
    rw [popBlock, queue_popChunk, if_neg hne.symm]
  have hkeys : ∀ {x y : Block}, x.adapter ∈ b.queues → y.adapter ∈ b.queues →
      (popBlock t (popBlock t b x) y).queues.keys = b.queues.keys := fun {x y} hx hy =>
    (Dict.keys_insert_of_mem (mem_queues_popBlock hy) _).trans (Dict.keys_insert_of_mem hx _)
  -- two writes under different keys: a lookup finds at most one of them
  have hswap : ∀ {k : String} {β : Type} (u v o : β),
      (if y.adapter = k then u else if x.adapter = k then v else o)
        = if x.adapter = k then v else if y.adapter = k then u else o := by
    intro k β u v o
    by_cases h : x.adapter = k
    · rw [if_pos h, if_pos h, if_neg fun h' => hne (h.trans h'.symm)]
    · rw [if_neg h, if_neg h]
  refine { (SameState.rfl : SameState b b) with
    registered := ?_, queues := ?_, enqueueTime := ?_, lastDispatch := ?_,
    nWarpsDispatched := ?_, nTimeoutDispatches := ?_, nTokensDispatched := ?_ }
  · exact (hkeys hx hy).trans (hkeys hy hx).symm
  · intro k
    simp only [get?_queues_popBlock, hqx, hqy]
    exact hswap ..
  · intro k
    simp only [get?_enqueueTime_popBlock, hqx, hqy]
    exact hswap ..
  · intro k
    simp only [get?_lastDispatch_popBlock]
    exact hswap ..
  · exact Nat.add_right_comm ..
  · exact Nat.add_right_comm ..
  · exact Nat.add_right_comm ..

/-- The order in which blocks of distinct adapters are popped does not matter. -/
theorem popBlocks_perm {t : K} {P P' : List Block} (hp : P.Perm P') :
    ∀ {b : AlignmentBuffer K}, (P.map Block.adapter).Nodup → (∀ blk ∈ P, blk.adapter ∈ b.queues) →
      SameState (P.foldl (popBlock t) b) (P'.foldl (popBlock t) b) := by
  induction hp with
  | nil => intro b _ _; exact SameState.rfl
  | cons x _ ih =>
      intro b hnd hreg
      exact ih (List.nodup_cons.mp hnd).2 fun blk hblk =>
        mem_queues_popBlock (hreg blk (List.mem_cons_of_mem _ hblk))
  | swap x y P =>
      intro b hnd hreg
      have hne : y.adapter ≠ x.adapter := fun h =>
        (List.nodup_cons.mp hnd).1 (h ▸ List.mem_cons_self ..)
      refine popBlocks_congr (popBlock_comm hne (hreg y (by simp)) (hreg x (by simp))) ?_
      exact fun blk hblk => mem_queues_popBlock (mem_queues_popBlock (hreg blk (by simp [hblk])))
  | trans hp₁ _ ih₁ ih₂ =>
      intro b hnd hreg
      refine (ih₁ hnd hreg).trans (ih₂ ((hp₁.map _).nodup_iff.mp hnd) fun blk hblk => ?_)
      exact hreg blk (hp₁.mem_iff.mpr hblk)

/-! ## A budget that holds every listed token -/

section Room

variable [Field K]

/-- Once a queue fits into the batch, the verdict on it does not depend on the
room, and the loop goes on. -/
def RoomFree (rule : String → ℕ → K → ℕ → Verdict) : Prop :=
  ∀ k qLen age room, 0 < qLen → qLen ≤ room →
    rule k qLen age room = rule k qLen age qLen ∧ rule k qLen age qLen ≠ .stop

/-- What the rule takes from `k` when the whole queue fits. -/
def freeBlock (rule : String → ℕ → K → ℕ → Verdict) (t : K) (b : AlignmentBuffer K) (k : String) :
    Option Block :=
  if (b.queue k).length = 0 then none
  else
    match rule k (b.queue k).length (b.age k t) (b.queue k).length with
    | .take n p w o => some ⟨k, n, p, w, o⟩
    | _ => none

/-- The tokens in the queues of the listed adapters. -/
def listedTokens (b : AlignmentBuffer K) (ks : List String) : ℕ :=
  (ks.map fun k => (b.queue k).length).sum

variable {rule : String → ℕ → K → ℕ → Verdict} {budget : ℤ} {t : K} {b : AlignmentBuffer K}

theorem filterMap_freeBlock_of_empty {ks : List String} (h : b.listedTokens ks = 0) :
    ks.filterMap (freeBlock rule t b) = [] := by
  refine List.filterMap_eq_nil_iff.mpr fun k hk => ?_
  have hlen : (b.queue k).length = 0 :=
    List.sum_eq_zero_iff.mp h _ (List.mem_map.mpr ⟨k, hk, rfl⟩)
  rw [freeBlock, if_pos hlen]

/-- The room left always holds the queues not visited yet: what was taken so
far is at most what the visited queues held. -/
theorem dispatchPlan_of_room (hfree : RoomFree rule) (hrule : RuleOk rule) :
    ∀ {ks : List String} {sent : ℕ}, (sent + b.listedTokens ks : ℤ) ≤ budget →
      dispatchPlan rule budget t b ks sent = ks.filterMap (freeBlock rule t b)
  | [], _, _ => rfl
  | k :: ks, sent, hroom => by
      have hcons : b.listedTokens (k :: ks) = (b.queue k).length + b.listedTokens ks := by
        rw [listedTokens, List.map_cons, List.sum_cons]
        rfl
      rw [dispatchPlan]
      by_cases hfull : budget ≤ sent
      · rw [if_pos hfull, filterMap_freeBlock_of_empty (by omega)]
      · rw [if_neg hfull, List.filterMap_cons, freeBlock]
        by_cases hlen : (b.queue k).length = 0
        · rw [if_pos hlen, if_pos hlen]
          exact dispatchPlan_of_room hfree hrule (by omega)
        · obtain ⟨hsame, hstop⟩ := hfree k (b.queue k).length (b.age k t) (budget - sent).toNat
            (Nat.pos_of_ne_zero hlen) (by omega)
          rw [if_neg hlen, if_neg hlen, hsame]
          cases hv : rule k (b.queue k).length (b.age k t) (b.queue k).length with
          | stop => exact absurd hv hstop
          | skip => exact dispatchPlan_of_room hfree hrule (by omega)
          | take n p w o =>
              obtain ⟨-, hle, -⟩ := hrule k _ _ _ n p w o (Nat.pos_of_ne_zero hlen)
                (Nat.pos_of_ne_zero hlen) hv
              have hrest : dispatchPlan rule budget t b ks (sent + n)
                  = ks.filterMap (freeBlock rule t b) :=
                dispatchPlan_of_room hfree hrule (by omega)
              simp only [hrest]

variable [LinearOrder K]

omit [Field K] [LinearOrder K] in
theorem min_room_eq {qLen room : ℕ} (h : qLen ≤ room) (W : ℕ) :
    min qLen room = min qLen qLen ∧ min (qLen / W) (room / W) = min (qLen / W) (qLen / W) := by
  rw [Nat.min_eq_left h, Nat.min_eq_left (Nat.div_le_div_right h), Nat.min_self, Nat.min_self]
  exact ⟨rfl, rfl⟩

omit [Field K] in
theorem roomFree_deadlineRule {W : ℕ} (hW : 0 < W) (deadline : String → K) :
    RoomFree (deadlineRule W deadline) := by
  intro k qLen age room hpos hroom
  rw [deadlineRule_of_room hW deadline k age hroom, deadlineRule_of_room hW deadline k age le_rfl]
  refine ⟨rfl, ?_⟩
  split
  · exact Verdict.noConfusion
  · split <;> exact Verdict.noConfusion

theorem roomFree_wgkpRule (W eff half : ℕ) (deadline : String → K) (merged : List String) :
    RoomFree (wgkpRule W eff half deadline merged) := by
  intro k qLen age room hpos hroom
  obtain ⟨hmin, hwarps⟩ := min_room_eq hroom W
  refine ⟨by simp only [wgkpRule, wgkpChoice, hmin, hwarps], ?_⟩
  rw [wgkpRule]
  split <;> exact Verdict.noConfusion

theorem DispatchCall.roomFree (c : DispatchCall K) (b : AlignmentBuffer K) :
    RoomFree (c.rule b) := by
  cases c with
  | threshold => exact roomFree_deadlineRule b.W_pos _
  | erlang _ => exact roomFree_deadlineRule b.W_pos _
  | cash _ _ => exact roomFree_deadlineRule b.W_pos _
  | wgkp _ _ _ _ => exact roomFree_wgkpRule _ _ _ _ _

end Room

/-! ## Permuted visiting orders -/

section Permuted

variable [Field K] [LinearOrder K]

/-- Two results of a dispatch that differ in the order of the adapter blocks. -/
structure SameButForOrder {β : Type} (r r' : AlignmentBuffer K × List (String × β)) : Prop where
  state : SameState r.1 r'.1
  /-- The tokens of each adapter, in their order. -/
  perAdapter : ∀ k, r.2.filter (fun e => decide (e.1 = k)) = r'.2.filter fun e => decide (e.1 = k)
  runs : (maximalRuns Prod.fst r.2).Perm (maximalRuns Prod.fst r'.2)

/-- The blocks of one adapter do not notice a permutation. -/
theorem filter_adapter_perm {P P' : List Block} (hp : P.Perm P')
    (hnd : (P.map Block.adapter).Nodup) (k : String) :
    P.filter (fun blk => decide (blk.adapter = k))
      = P'.filter fun blk => decide (blk.adapter = k) := by
  -- at most one block is left on each side
  have hone : ∀ {Q : List Block}, (Q.map Block.adapter).Nodup →
      (Q.filter fun blk => decide (blk.adapter = k)).Pairwise fun _ _ => False := by
    intro Q hQ
    refine List.Pairwise.imp_of_mem ?_ ((List.pairwise_map.mp hQ).filter _)
    intro x y hx hy hne
    exact hne ((of_decide_eq_true (List.mem_filter.mp hx).2).trans
      (of_decide_eq_true (List.mem_filter.mp hy).2).symm)
  exact List.Perm.eq_of_pairwise (fun _ _ _ _ h => h.elim) (hone hnd)
    (hone ((hp.map _).nodup_iff.mp hnd)) (hp.filter _)

/-- The tokens of `k` in a batch are those of the blocks of `k`. -/
theorem filter_flatMap_adapter {β : Type} {f : Block → List (String × β)}
    (hf : ∀ blk, ∀ e ∈ f blk, e.1 = blk.adapter) (k : String) : ∀ P : List Block,
    (P.flatMap f).filter (fun e => decide (e.1 = k))
      = (P.filter fun blk => decide (blk.adapter = k)).flatMap f
  | [] => rfl
  | blk :: P => by
      rw [List.flatMap_cons, List.filter_append, filter_flatMap_adapter hf k P]
      by_cases hk : blk.adapter = k
      · have hall : (f blk).filter (fun e => decide (e.1 = k)) = f blk :=
          List.filter_eq_self.mpr fun e he => decide_eq_true ((hf blk e he).trans hk)
        rw [hall, List.filter_cons_of_pos (by simpa using hk), List.flatMap_cons]
      · have hnone : (f blk).filter (fun e => decide (e.1 = k)) = [] :=
          List.filter_eq_nil_iff.mpr fun e he h =>
            hk ((hf blk e he).symm.trans (of_decide_eq_true h))
        rw [hnone, List.filter_cons_of_neg (by simpa using hk), List.nil_append]

variable {c c' : DispatchCall K} {b : AlignmentBuffer K} {m : Option ℤ} {t : K}

/-- With room for every listed token, a permuted list permutes the blocks. -/
theorem DispatchCall.plan_perm (hc : c.RankedNodup) (hc' : c'.RankedNodup)
    (hrule : c.rule b = c'.rule b) (hp : (c.visiting b).Perm (c'.visiting b))
    (hroom : (b.listedTokens (c.visiting b) : ℤ) ≤ b.budget m) :
    (c.plan b m t).Perm (c'.plan b m t) := by
  have hlisted : b.listedTokens (c'.visiting b) = b.listedTokens (c.visiting b) :=
    (hp.map _).sum_eq.symm
  have hplan : ∀ {c : DispatchCall K}, c.RankedNodup →
      (b.listedTokens (c.visiting b) : ℤ) ≤ b.budget m →
      c.plan b m t = (c.visiting b).filterMap (freeBlock (c.rule b) t b) := by
    intro c hc hroom
    rw [c.plan_eq_dispatchPlan hc]
    exact dispatchPlan_of_room (c.roomFree b) (c.ruleOk b) (by simpa using hroom)
  rw [hplan hc hroom, hplan hc' (by rw [hlisted]; exact hroom), hrule]
  exact hp.filterMap _

/-- What permuted plans lead to, for whatever `f` reads off the blocks. -/
theorem DispatchCall.sameButForOrder {β : Type} {f : Block → List (String × β)}
    (hf : ∀ blk, ∀ e ∈ f blk, e.1 = blk.adapter) (hc : c.RankedNodup)
    (hp : (c.plan b m t).Perm (c'.plan b m t))
    (hruns : maximalRuns Prod.fst ((c.plan b m t).flatMap f) = (c.plan b m t).map f)
    (hruns' : maximalRuns Prod.fst ((c'.plan b m t).flatMap f) = (c'.plan b m t).map f) :
    SameButForOrder ((c.apply b m t).1, (c.plan b m t).flatMap f)
      ((c'.apply b m t).1, (c'.plan b m t).flatMap f) := by
  have hnd := c.nodup_plan b m t hc
  refine ⟨?_, fun k => ?_, ?_⟩
  · rw [c.apply_eq_plan, c'.apply_eq_plan]
    refine popBlocks_perm hp hnd fun blk hblk => ?_
    exact mem_queues_of_fits (c.fits_plan b m t) (List.mem_map.mpr ⟨blk, hblk, rfl⟩)
  · rw [filter_flatMap_adapter hf, filter_flatMap_adapter hf, filter_adapter_perm hp hnd]
  · rw [hruns, hruns']
    exact hp.map f

/-- The runs of the batch, with and without the flags. -/
theorem DispatchCall.runs_plan (hc : c.RankedNodup) :
    maximalRuns Prod.fst ((c.plan b m t).flatMap (tokens b)) = (c.plan b m t).map (tokens b) :=
  let h := c.shape_plan hc b m t
  maximalRuns_tokens h.distinct h.length_pos h.length_le

theorem DispatchCall.runs_pairs_plan (hc : c.RankedNodup) :
    maximalRuns Prod.fst ((c.plan b m t).flatMap fun blk => pairs (tokens b blk))
      = (c.plan b m t).map fun blk => pairs (tokens b blk) := by
  have hmap : maximalRuns Prod.fst (pairs ((c.plan b m t).flatMap (tokens b)))
      = (maximalRuns Prod.fst ((c.plan b m t).flatMap (tokens b))).map pairs :=
    maximalRuns_map _
  rw [c.runs_plan hc, List.map_map, pairs, List.map_flatMap] at hmap
  exact hmap

end Permuted

section Ranked

variable [Field K] [LinearOrder K] {b : AlignmentBuffer K} {ranked ranked' : List String}

/-- With a budget for every token in the listed queues, the order of the list
decides about the order of the adapter blocks only. -/
theorem visiting_order_irrelevant (hp : ranked.Perm ranked') (hnd : ranked.Nodup)
    {m : Option ℤ} (hroom : (b.listedTokens ranked : ℤ) ≤ b.budget m) (tmaxK : Dict String K)
    (t : K) :
    SameButForOrder (b.formBatchCash ranked tmaxK m t) (b.formBatchCash ranked' tmaxK m t)
      ∧ ∀ nStar merged,
        SameButForOrder (b.formBatchWgkp ranked tmaxK nStar merged m t)
          (b.formBatchWgkp ranked' tmaxK nStar merged m t) := by
  have hnd' : ranked'.Nodup := hp.nodup_iff.mp hnd
  constructor
  · have hcash : ∀ {ks : List String}, ks.Nodup → b.formBatchCash ks tmaxK m t
        = (((DispatchCall.cash ks tmaxK).apply b m t).1,
            ((DispatchCall.cash ks tmaxK).plan b m t).flatMap fun blk => pairs (tokens b blk)) := by
      intro ks hks
      have hbatch := ((DispatchCall.cash ks tmaxK).shape_plan (show ks.Nodup from hks) b m t).batch
      rw [pairs, List.map_flatMap] at hbatch
      exact Prod.ext rfl hbatch
    rw [hcash hnd, hcash hnd']
    refine DispatchCall.sameButForOrder ?_ hnd ?_ ?_ ?_
    · intro blk e he
      obtain ⟨e', he', rfl⟩ := List.mem_map.mp he
      exact adapter_of_mem_tokens he'
    · exact DispatchCall.plan_perm hnd hnd' rfl hp hroom
    · exact DispatchCall.runs_pairs_plan hnd
    · exact DispatchCall.runs_pairs_plan hnd'
  · intro nStar merged
    have hwgkp : ∀ {ks : List String}, ks.Nodup → b.formBatchWgkp ks tmaxK nStar merged m t
        = (((DispatchCall.wgkp ks tmaxK nStar merged).apply b m t).1,
            ((DispatchCall.wgkp ks tmaxK nStar merged).plan b m t).flatMap (tokens b)) :=
      fun hks => Prod.ext rfl (formBatchWgkp_eq_plan b hks tmaxK nStar merged m t)
    rw [hwgkp hnd, hwgkp hnd']
    have heff : b.effNStar ranked nStar = b.effNStar ranked' nStar := by
      rw [effNStar, effNStar, hp.length_eq]
    refine DispatchCall.sameButForOrder (fun _ _ => adapter_of_mem_tokens) hnd ?_ ?_ ?_
    · refine DispatchCall.plan_perm hnd hnd' ?_ hp hroom
      simp only [DispatchCall.rule, heff]
      rfl
    · exact DispatchCall.runs_plan hnd
    · exact DispatchCall.runs_plan hnd'

end Ranked

/-- Four tokens are queued, and the budget is four. -/
theorem threeAndOne_either_order :
    SameButForOrder (threeAndOne.formBatchCash ["a", "b"] .empty (some 4) 1)
        (threeAndOne.formBatchCash ["b", "a"] .empty (some 4) 1)
      ∧ ∀ nStar merged,
        SameButForOrder (threeAndOne.formBatchWgkp ["a", "b"] .empty nStar merged (some 4) 1)
          (threeAndOne.formBatchWgkp ["b", "a"] .empty nStar merged (some 4) 1) :=
  visiting_order_irrelevant (List.Perm.swap "b" "a" []) (by decide) (by decide +kernel) .empty 1

/-- With room for two tokens it is the order that says which ones leave. -/
example : (threeAndOne.formBatchCash ["a", "b"] .empty (some 2) 1).2 = [("a", 1), ("a", 2)]
    ∧ (threeAndOne.formBatchCash ["b", "a"] .empty (some 2) 1).2 = [("b", 4)] := by
  decide +kernel

end AlignmentBuffer

end AdapterSlots
