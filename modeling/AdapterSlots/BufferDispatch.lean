import AdapterSlots.Buffer

/-!
# What one dispatch does

Every `form_batch` variant runs `visitLoop` with its own rule and visiting
order. The loop pops a list of blocks, one `Block` for each dispatched
adapter: `visitLoop_eq_blocks` splits a call into the blocks it takes
(`visitBlocks`), the buffer after popping them and the tokens they hold.
When no adapter is visited twice, `visitBlocks_eq_plan` reads the blocks
off the buffer before the call.

`DispatchCall` names the four variants with their arguments, so that a
statement about "any dispatch" is one statement. `apply_eq_plan` is its
specification; the per-field lemmas below it (`queue_apply`,
`oldest_apply`, ...) are what the invariants use.
-/

namespace AdapterSlots

open Lib

namespace AlignmentBuffer

variable {K : Type}

/-! ## Field lemmas -/

@[simp] theorem queue_registerAdapter (b : AlignmentBuffer K) (k k' : String) :
    (b.registerAdapter k).queue k' = b.queue k' := by
  unfold registerAdapter
  split
  · rfl
  · rename_i hk
    rw [queue, queue, Dict.getD, Dict.getD, Dict.get?_insert]
    split
    · rename_i heq
      rw [← heq, Dict.get?_eq_none.mpr hk]
      rfl
    · rfl

@[simp] theorem seqEnqueue_registerAdapter (b : AlignmentBuffer K) (k : String) :
    (b.registerAdapter k).seqEnqueue = b.seqEnqueue := by
  unfold registerAdapter
  split <;> rfl

@[simp] theorem shadowTime_registerAdapter (b : AlignmentBuffer K) (k : String) :
    (b.registerAdapter k).shadowTime = b.shadowTime := by
  unfold registerAdapter
  split <;> rfl

theorem mem_queues_registerAdapter (b : AlignmentBuffer K) {k k' : String} :
    k' ∈ (b.registerAdapter k).queues ↔ k' = k ∨ k' ∈ b.queues := by
  unfold registerAdapter
  split
  · rename_i hk
    exact ⟨Or.inr, fun h => h.elim (fun heq => heq ▸ hk) id⟩
  · exact Dict.mem_insert

theorem queue_of_not_mem {b : AlignmentBuffer K} {k : String} (h : k ∉ b.queues) :
    b.queue k = [] := by
  rw [queue, Dict.getD, Dict.get?_eq_none.mpr h]
  rfl

theorem queue_insert (b : AlignmentBuffer K) (k k' : String) (q : List (ℕ × K)) :
    ({ b with queues := b.queues.insert k q } : AlignmentBuffer K).queue k'
      = if k = k' then q else b.queue k' := by
  rw [queue, Dict.getD, Dict.get?_insert]
  split <;> rfl

theorem queue_drainSeq (b : AlignmentBuffer K) (k k' : String) (s : ℕ) :
    (b.drainSeq k s).queue k'
      = if k = k' then (b.queue k').filter fun e => decide (e.1 ≠ s) else b.queue k' := by
  unfold drainSeq
  split
  · refine (queue_insert b k k' _).trans ?_
    split
    · rename_i heq
      rw [heq]
    · rfl
  · rename_i hk
    split
    · rename_i heq
      rw [← heq, queue_of_not_mem hk]
      rfl
    · rfl

theorem queue_popChunk (b : AlignmentBuffer K) (k k' : String) (n w o : ℕ) (t : K) :
    (b.popChunk k n w o t).queue k' = if k = k' then (b.queue k).drop n else b.queue k' :=
  queue_insert b k k' _

theorem oldest_popChunk (b : AlignmentBuffer K) (k k' : String) (n w o : ℕ) (t : K) :
    (b.popChunk k n w o t).oldest k'
      = if k = k' then ((b.queue k).drop n).head?.map Prod.snd else b.oldest k' := by
  rw [oldest, popChunk, Dict.get?_insert]
  split <;> rfl

/-! ## Blocks -/

/-- One dispatched adapter: how many tokens leave its queue, and the flags
and counters that go with them. -/
structure Block where
  adapter : String
  n : ℕ
  promoted : Bool
  warps : ℕ
  timeouts : ℕ

def popBlock (t : K) (b : AlignmentBuffer K) (blk : Block) : AlignmentBuffer K :=
  b.popChunk blk.adapter blk.n blk.warps blk.timeouts t

/-- The tokens of a block, in queue order. -/
def tokens (b : AlignmentBuffer K) (blk : Block) : List (String × ℕ × Bool) :=
  ((b.queue blk.adapter).take blk.n).map fun e => (blk.adapter, e.1, blk.promoted)

/-- The tokens of the blocks, popped one after the other. -/
def emitted (t : K) : AlignmentBuffer K → List Block → List (String × ℕ × Bool)
  | _, [] => []
  | b, blk :: P => tokens b blk ++ emitted t (popBlock t b blk) P

/-- How many tokens the blocks take from the queue of `k`. -/
def taken : List Block → String → ℕ
  | [], _ => 0
  | blk :: P, k => (if blk.adapter = k then blk.n else 0) + taken P k

/-- Every block is a non-empty part of the queue it is popped from. -/
def Fits (t : K) : AlignmentBuffer K → List Block → Prop
  | _, [] => True
  | b, blk :: P =>
      0 < blk.n ∧ blk.n ≤ (b.queue blk.adapter).length ∧ Fits t (popBlock t b blk) P

theorem taken_eq_zero : ∀ {P : List Block} {k : String}, k ∉ P.map Block.adapter → taken P k = 0
  | [], _, _ => rfl
  | blk :: P, k, h => by
      rw [List.map_cons, List.mem_cons, not_or] at h
      rw [taken, if_neg fun heq => h.1 heq.symm, taken_eq_zero h.2]

theorem taken_pos {t : K} : ∀ {P : List Block} {b : AlignmentBuffer K} {k : String},
    Fits t b P → k ∈ P.map Block.adapter → 0 < taken P k
  | [], _, _, _, h => by cases h
  | blk :: P, b, k, hfit, h => by
      rw [taken]
      rcases List.mem_cons.mp h with rfl | h
      · rw [if_pos rfl]
        have := hfit.1
        omega
      · have := taken_pos hfit.2.2 h
        omega

/-- The blocks take no more from a queue than it holds. -/
theorem taken_le_length {t : K} (k : String) : ∀ {P : List Block} {b : AlignmentBuffer K},
    Fits t b P → taken P k ≤ (b.queue k).length
  | [], _, _ => Nat.zero_le _
  | blk :: P, b, hfit => by
      have hrest := taken_le_length k hfit.2.2
      rw [popBlock, queue_popChunk] at hrest
      rw [taken]
      split
      · rename_i heq
        subst heq
        rw [if_pos rfl, List.length_drop] at hrest
        have := hfit.2.1
        omega
      · rename_i hne
        rw [if_neg hne] at hrest
        omega

theorem queue_popBlocks (t : K) (k : String) : ∀ (P : List Block) (b : AlignmentBuffer K),
    (P.foldl (popBlock t) b).queue k = (b.queue k).drop (taken P k)
  | [], b => by simp [taken]
  | blk :: P, b => by
      rw [List.foldl_cons, queue_popBlocks t k P, popBlock, queue_popChunk, taken]
      split
      · rename_i heq
        rw [heq, List.drop_drop]
      · rw [Nat.zero_add]

theorem oldest_popBlocks (t : K) (k : String) : ∀ (P : List Block) (b : AlignmentBuffer K),
    (P.foldl (popBlock t) b).oldest k
      = if k ∈ P.map Block.adapter then ((b.queue k).drop (taken P k)).head?.map Prod.snd
        else b.oldest k
  | [], b => by simp
  | blk :: P, b => by
      have hq := queue_popChunk b blk.adapter k blk.n blk.warps blk.timeouts t
      rw [List.foldl_cons, oldest_popBlocks t k P, popBlock, hq, oldest_popChunk, taken,
        List.map_cons]
      by_cases heq : blk.adapter = k
      · subst heq
        by_cases hmem : blk.adapter ∈ P.map Block.adapter
        · simp [hmem, List.drop_drop]
        · simp [hmem, taken_eq_zero hmem]
      · have hne : k ≠ blk.adapter := fun h => heq h.symm
        simp [heq, hne]

theorem popBlocks_frame (t : K) : ∀ (P : List Block) (b : AlignmentBuffer K),
    (P.foldl (popBlock t) b).shadow = b.shadow
      ∧ (P.foldl (popBlock t) b).shadowTime = b.shadowTime
      ∧ (P.foldl (popBlock t) b).seqEnqueue = b.seqEnqueue
      ∧ (P.foldl (popBlock t) b).nTokensEnqueued = b.nTokensEnqueued
      ∧ (P.foldl (popBlock t) b).nTokensDispatched
          = b.nTokensDispatched + (P.map Block.n).sum
  | [], b => ⟨rfl, rfl, rfl, rfl, rfl⟩
  | blk :: P, b => by
      obtain ⟨h₁, h₂, h₃, h₄, h₅⟩ := popBlocks_frame t P (popBlock t b blk)
      refine ⟨h₁, h₂, h₃, h₄, h₅.trans ?_⟩
      rw [List.map_cons, List.sum_cons, ← Nat.add_assoc]
      rfl

/-- An adapter with a non-empty queue is registered. -/
theorem mem_queues_of_lt_length {b : AlignmentBuffer K} {k : String}
    (h : 0 < (b.queue k).length) : k ∈ b.queues := by
  by_contra hk
  rw [queue_of_not_mem hk] at h
  exact Nat.lt_irrefl 0 h

theorem keys_popBlocks (t : K) : ∀ (P : List Block) (b : AlignmentBuffer K), Fits t b P →
    (P.foldl (popBlock t) b).queues.keys = b.queues.keys
  | [], _, _ => rfl
  | blk :: P, b, hfit => by
      have hk : (popBlock t b blk).queues.keys = b.queues.keys :=
        Dict.keys_insert_of_mem
          (mem_queues_of_lt_length (Nat.lt_of_lt_of_le hfit.1 hfit.2.1)) _
      rw [List.foldl_cons, keys_popBlocks t P _ hfit.2.2, hk]

theorem mem_queues_of_fits {t : K} : ∀ {P : List Block} {b : AlignmentBuffer K} {k : String},
    Fits t b P → k ∈ P.map Block.adapter → k ∈ b.queues
  | [], _, _, _, h => by cases h
  | blk :: P, b, k, hfit, h => by
      have hblk : blk.adapter ∈ b.queues :=
        mem_queues_of_lt_length (Nat.lt_of_lt_of_le hfit.1 hfit.2.1)
      rcases List.mem_cons.mp h with rfl | h
      · exact hblk
      · rcases Dict.mem_insert.mp (mem_queues_of_fits hfit.2.2 h) with rfl | hk
        · exact hblk
        · exact hk

/-- Blocks of distinct adapters read the queues as they were before the first. -/
theorem emitted_of_nodup (t : K) : ∀ {P : List Block} {b : AlignmentBuffer K},
    (P.map Block.adapter).Nodup → emitted t b P = P.flatMap (tokens b)
  | [], _, _ => rfl
  | blk :: P, b, hnd => by
      obtain ⟨hnot, hnd'⟩ := List.nodup_cons.mp hnd
      rw [emitted, emitted_of_nodup t hnd', List.flatMap_cons]
      congr 1
      refine List.flatMap_congr fun blk' hblk' => ?_
      have hne : blk.adapter ≠ blk'.adapter := fun heq =>
        hnot (heq ▸ List.mem_map.mpr ⟨blk', hblk', rfl⟩)
      rw [tokens, tokens, popBlock, queue_popChunk, if_neg hne]

/-! ## The blocks of the loop -/

section Plan

variable [Field K]

/-- A rule takes a non-empty chunk that the queue holds and the batch has
room for. -/
def RuleOk (rule : String → ℕ → K → ℕ → Verdict) : Prop :=
  ∀ k qLen age room n p w o, 0 < qLen → 0 < room →
    rule k qLen age room = .take n p w o → 0 < n ∧ n ≤ qLen ∧ n ≤ room

/-- The blocks the loop takes; `sent` tokens are already in the batch. -/
def visitBlocks (rule : String → ℕ → K → ℕ → Verdict) (budget : ℤ) (tNow : K) :
    List String → AlignmentBuffer K → ℕ → List Block
  | [], _, _ => []
  | k :: ks, b, sent =>
      if budget ≤ sent then []
      else if (b.queue k).length = 0 then visitBlocks rule budget tNow ks b sent
      else
        match rule k (b.queue k).length (b.age k tNow) (budget - sent).toNat with
        | .stop => []
        | .skip => visitBlocks rule budget tNow ks b sent
        | .take n p w o =>
            ⟨k, n, p, w, o⟩ ::
              visitBlocks rule budget tNow ks (b.popChunk k n w o tNow) (sent + n)

variable {rule : String → ℕ → K → ℕ → Verdict} {budget : ℤ} {t : K}

theorem fits_visitBlocks (hrule : RuleOk rule) : ∀ (ks : List String) (b : AlignmentBuffer K)
    (sent : ℕ), Fits t b (visitBlocks rule budget t ks b sent)
  | [], _, _ => trivial
  | k :: ks, b, sent => by
      rw [visitBlocks]
      split
      · trivial
      · rename_i hroom
        split
        · exact fits_visitBlocks hrule ks b sent
        · rename_i hlen
          split
          · trivial
          · exact fits_visitBlocks hrule ks b sent
          · rename_i n p w o hv
            obtain ⟨hpos, hle, -⟩ := hrule k _ _ _ n p w o (by omega) (by omega) hv
            exact ⟨hpos, hle, fits_visitBlocks hrule ks _ _⟩

theorem adapters_visitBlocks : ∀ (ks : List String) (b : AlignmentBuffer K) (sent : ℕ),
    ((visitBlocks rule budget t ks b sent).map Block.adapter).Sublist ks
  | [], _, _ => List.Sublist.refl _
  | k :: ks, b, sent => by
      rw [visitBlocks]
      split
      · exact List.nil_sublist _
      · split
        · exact (adapters_visitBlocks ks b sent).cons _
        · split
          · exact List.nil_sublist _
          · exact (adapters_visitBlocks ks b sent).cons _
          · exact (adapters_visitBlocks ks _ _).cons_cons _

/-- The loop pops these blocks, one after the other, and appends their tokens. -/
theorem visitLoop_eq_blocks (hrule : RuleOk rule) : ∀ (ks : List String)
    (b : AlignmentBuffer K) (batch : List (String × ℕ × Bool)),
    visitLoop rule budget t ks b batch
      = ((visitBlocks rule budget t ks b batch.length).foldl (popBlock t) b,
          batch ++ emitted t b (visitBlocks rule budget t ks b batch.length))
  | [], b, batch => by simp [visitLoop, visitBlocks, emitted]
  | k :: ks, b, batch => by
      rw [visitLoop, visitBlocks]
      by_cases hroom : budget ≤ batch.length
      · simp [hroom, emitted]
      · rw [if_neg hroom, if_neg hroom]
        by_cases hlen : (b.queue k).length = 0
        · rw [if_pos hlen, if_pos hlen, visitLoop_eq_blocks hrule ks b batch]
        · rw [if_neg hlen, if_neg hlen]
          cases hv : rule k (b.queue k).length (b.age k t) (budget - batch.length).toNat with
          | stop => simp [emitted]
          | skip => exact visitLoop_eq_blocks hrule ks b batch
          | take n p w o =>
              obtain ⟨-, hle, -⟩ := hrule k _ _ _ n p w o (by omega) (by omega) hv
              have hlen' : (batch ++ ((b.queue k).take n).map fun e => (k, e.1, p)).length
                  = batch.length + n := by
                simp [Nat.min_eq_left hle]
              simp only
              rw [visitLoop_eq_blocks hrule ks, hlen', List.append_assoc]
              rfl

/-! ### Distinct adapters

When no adapter is visited twice, the loop's decisions can be read off the
buffer as it is before the call. -/

/-- The blocks the loop takes, from the buffer as it is before the call. -/
def dispatchPlan (rule : String → ℕ → K → ℕ → Verdict) (budget : ℤ) (tNow : K)
    (b : AlignmentBuffer K) : List String → ℕ → List Block
  | [], _ => []
  | k :: ks, sent =>
      if budget ≤ sent then []
      else if (b.queue k).length = 0 then dispatchPlan rule budget tNow b ks sent
      else
        match rule k (b.queue k).length (b.age k tNow) (budget - sent).toNat with
        | .stop => []
        | .skip => dispatchPlan rule budget tNow b ks sent
        | .take n p w o => ⟨k, n, p, w, o⟩ :: dispatchPlan rule budget tNow b ks (sent + n)

theorem age_congr {b b' : AlignmentBuffer K} {k : String} (h : b'.oldest k = b.oldest k) :
    b'.age k t = b.age k t := by
  rw [age, age, h]

/-- The plan reads the queues and head times of the adapters it visits. -/
theorem dispatchPlan_congr {b b' : AlignmentBuffer K} : ∀ {ks : List String} {sent : ℕ},
    (∀ k ∈ ks, b'.queue k = b.queue k ∧ b'.oldest k = b.oldest k) →
    dispatchPlan rule budget t b' ks sent = dispatchPlan rule budget t b ks sent
  | [], _, _ => rfl
  | k :: ks, sent, h => by
      obtain ⟨hq, ho⟩ := h k (List.mem_cons_self ..)
      have htail : ∀ sent, dispatchPlan rule budget t b' ks sent
          = dispatchPlan rule budget t b ks sent :=
        fun _ => dispatchPlan_congr fun k' hk' => h k' (List.mem_cons_of_mem _ hk')
      simp only [dispatchPlan, hq, age_congr ho, htail]

/-- A popped adapter is not visited again, so the rest of the loop still reads
what was there before the pop. -/
theorem visitBlocks_eq_plan : ∀ (ks : List String) (b : AlignmentBuffer K) (sent : ℕ),
    ks.Nodup → visitBlocks rule budget t ks b sent = dispatchPlan rule budget t b ks sent
  | [], _, _, _ => rfl
  | k :: ks, b, sent, hnd => by
      obtain ⟨hk, hnd'⟩ := List.nodup_cons.mp hnd
      have hne : ∀ k' ∈ ks, k ≠ k' := fun k' hk' heq => hk (heq ▸ hk')
      have htail : ∀ n p w o, visitBlocks rule budget t ks (b.popChunk k n w o t) p
          = dispatchPlan rule budget t b ks p := by
        intro n p w o
        rw [visitBlocks_eq_plan ks _ _ hnd']
        refine dispatchPlan_congr fun k' hk' => ⟨?_, ?_⟩
        · rw [queue_popChunk, if_neg (hne k' hk')]
        · rw [oldest_popChunk, if_neg (hne k' hk')]
      simp only [visitBlocks, dispatchPlan, htail, visitBlocks_eq_plan ks b sent hnd']

/-- Nothing is taken from an adapter that is not visited. -/
theorem taken_dispatchPlan {b : AlignmentBuffer K} {ks : List String} {k : String}
    (hnd : ks.Nodup) (hk : k ∉ ks) (sent : ℕ) :
    taken (dispatchPlan rule budget t b ks sent) k = 0 := by
  refine taken_eq_zero fun hmem => hk ?_
  rw [← visitBlocks_eq_plan ks b sent hnd] at hmem
  exact (adapters_visitBlocks ks b sent).subset hmem

end Plan

/-! ## The four variants -/

/-- One call of a `form_batch` variant, without its budget and clock. -/
inductive DispatchCall (K : Type) where
  | threshold
  | erlang (tmaxK : Dict String K)
  | cash (rankedAdapters : List String) (tmaxK : Dict String K)
  | wgkp (rankedAdapters : List String) (tmaxK : Dict String K) (nStar : ℤ)
      (mergedAdapterIds : List String)

namespace DispatchCall

/-- The ranked list of a call names no adapter twice. -/
def RankedNodup : DispatchCall K → Prop
  | .threshold => True
  | .erlang _ => True
  | .cash ranked _ => ranked.Nodup
  | .wgkp ranked _ _ _ => ranked.Nodup

/-- The adapters the loop of the call visits, in order. -/
def visiting (c : DispatchCall K) (b : AlignmentBuffer K) : List String :=
  match c with
  | .threshold => b.queues.keys
  | .erlang _ => b.queues.keys
  | .cash ranked _ => ranked
  | .wgkp ranked _ _ _ => ranked

theorem nodup_visiting {c : DispatchCall K} (h : c.RankedNodup) (b : AlignmentBuffer K) :
    (c.visiting b).Nodup := by
  cases c with
  | threshold => exact b.queues.nodup_keys
  | erlang _ => exact b.queues.nodup_keys
  | cash ranked _ => exact h
  | wgkp ranked _ _ _ => exact h

section

variable [LinearOrder K]

/-- The deadline of each queue under the call. -/
def deadline (c : DispatchCall K) (b : AlignmentBuffer K) (k : String) : K :=
  match c with
  | .threshold => min b.tMax b.ttftSlo
  | .erlang tmaxK => min (tmaxK.getD k b.ttftSlo) b.ttftSlo
  | .cash _ tmaxK => min (tmaxK.getD k b.ttftSlo) b.ttftSlo
  | .wgkp _ tmaxK _ _ => min (tmaxK.getD k b.tMax) b.ttftSlo

variable [Field K]

def rule (c : DispatchCall K) (b : AlignmentBuffer K) : String → ℕ → K → ℕ → Verdict :=
  match c with
  | .threshold => deadlineRule b.W (c.deadline b)
  | .erlang _ => deadlineRule b.W (c.deadline b)
  | .cash _ _ => deadlineRule b.W (c.deadline b)
  | .wgkp ranked _ nStar merged =>
      wgkpRule b.W (b.effNStar ranked nStar) ((b.effNStar ranked nStar + 1) / 2) (c.deadline b)
        merged

/-- Run the call; the flags of `form_batch_wgkp` are dropped. -/
def apply (c : DispatchCall K) (b : AlignmentBuffer K) (maxTokens : Option ℤ) (tNow : K) :
    AlignmentBuffer K × List (String × ℕ) :=
  match c with
  | .threshold => b.formBatch maxTokens tNow
  | .erlang tmaxK => b.formBatchErlang tmaxK maxTokens tNow
  | .cash ranked tmaxK => b.formBatchCash ranked tmaxK maxTokens tNow
  | .wgkp ranked tmaxK nStar merged =>
      let r := b.formBatchWgkp ranked tmaxK nStar merged maxTokens tNow
      (r.1, pairs r.2)

/-- The blocks the call takes. -/
def plan (c : DispatchCall K) (b : AlignmentBuffer K) (maxTokens : Option ℤ) (tNow : K) :
    List Block :=
  visitBlocks (c.rule b) (b.budget maxTokens) tNow (c.visiting b) b 0

theorem plan_eq_dispatchPlan {c : DispatchCall K} (hc : c.RankedNodup) (b : AlignmentBuffer K)
    (maxTokens : Option ℤ) (tNow : K) :
    c.plan b maxTokens tNow
      = dispatchPlan (c.rule b) (b.budget maxTokens) tNow b (c.visiting b) 0 :=
  visitBlocks_eq_plan _ b 0 (nodup_visiting hc b)

end

end DispatchCall

/-- The whole warps that fit are neither more than the queue nor than the room. -/
theorem wholeWarps_le (W qLen room : ℕ) :
    min (qLen / W) (room / W) * W ≤ min qLen room :=
  Nat.le_min.mpr
    ⟨(Nat.mul_le_mul_right _ (Nat.min_le_left ..)).trans (Nat.div_mul_le_self qLen W),
      (Nat.mul_le_mul_right _ (Nat.min_le_right ..)).trans (Nat.div_mul_le_self room W)⟩

section Apply

variable [Field K] [LinearOrder K]

omit [Field K] in
theorem ruleOk_deadlineRule (W : ℕ) (deadline : String → K) :
    RuleOk (deadlineRule W deadline) := by
  intro k qLen age room n p w o hq hr h
  have hle := wholeWarps_le W qLen room
  simp only [deadlineRule] at h
  split at h
  · split at h
    · cases h
    · simp only [Verdict.take.injEq] at h
      omega
  · split at h
    · simp only [Verdict.take.injEq] at h
      omega
    · cases h

omit [Field K] in
/-- The rule when the whole queue fits into the batch. -/
theorem deadlineRule_of_room {W qLen room : ℕ} (hW : 0 < W) (deadline : String → K) (k : String)
    (age : K) (h : qLen ≤ room) :
    deadlineRule W deadline k qLen age room
      = if W ≤ qLen then .take (qLen / W * W) false (qLen / W) 0
        else if deadline k ≤ age then .take qLen false 0 1 else .skip := by
  have hwarps : min (qLen / W) (room / W) = qLen / W := Nat.min_eq_left (Nat.div_le_div_right h)
  simp only [deadlineRule, hwarps, Nat.min_eq_left h]
  by_cases hlong : W ≤ qLen
  · rw [if_pos hlong, if_pos hlong, if_neg (Nat.mul_pos (Nat.div_pos hlong hW) hW).ne']
  · rw [if_neg hlong, if_neg hlong]

section WgkpRule

variable {W eff half : ℕ} {deadline : String → K} {merged : List String} {k : String} {qLen : ℕ}
  {age : K} {room : ℕ}

theorem wgkpChoice_of_long (hlong : W ≤ qLen) :
    (wgkpChoice W eff half deadline merged k qLen age room).1
      = min (qLen / W) (room / W) * W := by
  rw [wgkpChoice, if_pos hlong]

/-- A short queue leaves as a whole by one of four rules, or stays. -/
theorem wgkpChoice_of_short (hshort : qLen < W) :
    (wgkpChoice W eff half deadline merged k qLen age room).1
      = if eff ≤ qLen ∨ (half ≤ qLen ∧ deadline k / 2 < age) ∨ deadline k ≤ age
        then min qLen room else 0 := by
  rw [wgkpChoice, if_neg (Nat.not_le.mpr hshort)]
  by_cases heff : eff ≤ qLen
  · rw [if_pos heff, if_pos (.inl heff)]
  · rw [if_neg heff]
    by_cases hhalf : half ≤ qLen ∧ deadline k / 2 < age
    · rw [if_pos hhalf, if_pos (.inr (.inl hhalf))]
    · rw [if_neg hhalf]
      by_cases hage : deadline k ≤ age
      · rw [if_pos hage, if_pos (.inr (.inr hage))]
      · rw [if_neg hage, if_neg (not_or.mpr ⟨heff, not_or.mpr ⟨hhalf, hage⟩⟩)]

variable (W eff half deadline merged k qLen age room) in
theorem wgkpChoice_le :
    (wgkpChoice W eff half deadline merged k qLen age room).1 ≤ min qLen room := by
  rcases Nat.lt_or_ge qLen W with hshort | hlong
  · rw [wgkpChoice_of_short hshort]
    split
    · exact le_refl _
    · exact Nat.zero_le _
  · rw [wgkpChoice_of_long hlong]
    exact wholeWarps_le W qLen room

theorem wgkpRule_take {n : ℕ} (h : (wgkpChoice W eff half deadline merged k qLen age room).1 = n)
    (hn : n ≠ 0) :
    ∃ p w o, wgkpRule W eff half deadline merged k qLen age room = .take n p w o := by
  simp only [wgkpRule, h, if_neg hn]
  exact ⟨_, _, _, rfl⟩

theorem wgkpRule_skip (h : (wgkpChoice W eff half deadline merged k qLen age room).1 = 0) :
    wgkpRule W eff half deadline merged k qLen age room = .skip := by
  simp only [wgkpRule, h, if_true]

end WgkpRule

theorem ruleOk_wgkpRule (W eff half : ℕ) (deadline : String → K) (merged : List String) :
    RuleOk (wgkpRule W eff half deadline merged) := by
  intro k qLen age room n p w o hq hr h
  have hle := wgkpChoice_le W eff half deadline merged k qLen age room
  simp only [wgkpRule] at h
  split at h
  · cases h
  · simp only [Verdict.take.injEq] at h
    omega

theorem DispatchCall.ruleOk (c : DispatchCall K) (b : AlignmentBuffer K) :
    RuleOk (c.rule b) := by
  cases c with
  | threshold => exact ruleOk_deadlineRule _ _
  | erlang _ => exact ruleOk_deadlineRule _ _
  | cash _ _ => exact ruleOk_deadlineRule _ _
  | wgkp _ _ _ _ => exact ruleOk_wgkpRule _ _ _ _ _

theorem DispatchCall.apply_eq_visitLoop (c : DispatchCall K) (b : AlignmentBuffer K)
    (m : Option ℤ) (t : K) :
    c.apply b m t
      = ((visitLoop (c.rule b) (b.budget m) t (c.visiting b) b []).1,
          pairs (visitLoop (c.rule b) (b.budget m) t (c.visiting b) b []).2) := by
  cases c <;> rfl

variable (c : DispatchCall K) (b : AlignmentBuffer K) (m : Option ℤ) (t : K)

theorem DispatchCall.fits_plan : Fits t b (c.plan b m t) :=
  fits_visitBlocks (c.ruleOk b) _ b 0

/-- The specification of a dispatch: it pops the planned blocks and returns
their tokens, block after block. -/
theorem DispatchCall.apply_eq_plan :
    c.apply b m t
      = ((c.plan b m t).foldl (popBlock t) b, pairs (emitted t b (c.plan b m t))) := by
  rw [c.apply_eq_visitLoop, visitLoop_eq_blocks (c.ruleOk b) _ b []]
  rfl

theorem DispatchCall.nodup_plan {c : DispatchCall K} (hc : c.RankedNodup) :
    ((c.plan b m t).map Block.adapter).Nodup :=
  (nodup_visiting hc b).sublist (adapters_visitBlocks _ b 0)

theorem queue_apply (k : String) :
    (c.apply b m t).1.queue k = (b.queue k).drop (taken (c.plan b m t) k) := by
  rw [c.apply_eq_plan, queue_popBlocks t k _ b]

theorem oldest_apply (k : String) :
    (c.apply b m t).1.oldest k
      = if k ∈ (c.plan b m t).map Block.adapter
        then ((b.queue k).drop (taken (c.plan b m t) k)).head?.map Prod.snd
        else b.oldest k := by
  rw [c.apply_eq_plan, oldest_popBlocks t k _ b]

theorem shadow_apply : (c.apply b m t).1.shadow = b.shadow := by
  rw [c.apply_eq_plan]; exact (popBlocks_frame t _ b).1

theorem shadowTime_apply : (c.apply b m t).1.shadowTime = b.shadowTime := by
  rw [c.apply_eq_plan]; exact (popBlocks_frame t _ b).2.1

theorem seqEnqueue_apply : (c.apply b m t).1.seqEnqueue = b.seqEnqueue := by
  rw [c.apply_eq_plan]; exact (popBlocks_frame t _ b).2.2.1

theorem keys_apply : (c.apply b m t).1.queues.keys = b.queues.keys := by
  rw [c.apply_eq_plan]
  exact keys_popBlocks t _ b (c.fits_plan b m t)

end Apply

end AlignmentBuffer

end AdapterSlots
