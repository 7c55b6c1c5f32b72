import AdapterSlots.BufferShape

/-!
# The dispatch loops as the source writes them

The four `form_batch` methods each have a loop of their own. Here they are
statement by statement, with their breaks, lookups and default deadlines;
`visitLoop` with its rules is what they have in common.

`forIn_eq_visitLoop` turns a loop into `visitLoop` when each turn of its
body is the turn of the rule (`turn`). The loops of the three deadline
methods then differ in the visiting order and in the deadline of a queue
only, and `deadline_dispatchers_agree` says when these coincide.
-/

namespace AdapterSlots

open Lib

namespace AlignmentBuffer

variable {K : Type} [Field K] [LinearOrder K]

/-! ## The methods -/

def formBatchLoop (b₀ : AlignmentBuffer K) (maxTokens : Option ℤ) (tNow : K) :
    AlignmentBuffer K × List (String × ℕ) := Id.run do
  let mut b := b₀
  let mut batch := []
  let budget := b₀.budget maxTokens
  let effectiveDeadline := min b₀.tMax b₀.ttftSlo
  for adapterId in b₀.queues.keys do
    let q := b.queue adapterId
    if budget ≤ batch.length then
      break
    if q.length = 0 then
      continue
    let age := b.age adapterId tNow
    if b.W ≤ q.length then
      -- full warps only
      let nFullWarps := min (q.length / b.W) ((budget - batch.length).toNat / b.W)
      let nToDispatch := nFullWarps * b.W
      if nToDispatch ≤ 0 then
        break
      batch := batch ++ (q.take nToDispatch).map fun e => (adapterId, e.1)
      b := b.popChunk adapterId nToDispatch nFullWarps 0 tNow
    else if effectiveDeadline ≤ age then
      let nToDispatch := min q.length (budget - batch.length).toNat
      batch := batch ++ (q.take nToDispatch).map fun e => (adapterId, e.1)
      b := b.popChunk adapterId nToDispatch 0 1 tNow
  return (b, batch)

def formBatchErlangLoop (b₀ : AlignmentBuffer K) (tmaxK : Dict String K) (maxTokens : Option ℤ)
    (tNow : K) : AlignmentBuffer K × List (String × ℕ) := Id.run do
  let mut b := b₀
  let mut batch := []
  let budget := b₀.budget maxTokens
  for adapterId in b₀.queues.keys do
    let q := b.queue adapterId
    if budget ≤ batch.length then
      break
    if q.length = 0 then
      continue
    let age := b.age adapterId tNow
    if b.W ≤ q.length then
      let nFullWarps := min (q.length / b.W) ((budget - batch.length).toNat / b.W)
      let nToDispatch := nFullWarps * b.W
      if nToDispatch ≤ 0 then
        break
      batch := batch ++ (q.take nToDispatch).map fun e => (adapterId, e.1)
      b := b.popChunk adapterId nToDispatch nFullWarps 0 tNow
    else
      let perAdapterTmax := tmaxK.getD adapterId b.ttftSlo
      let effectiveDeadline := min perAdapterTmax b.ttftSlo
      if effectiveDeadline ≤ age then
        let nToDispatch := min q.length (budget - batch.length).toNat
        batch := batch ++ (q.take nToDispatch).map fun e => (adapterId, e.1)
        b := b.popChunk adapterId nToDispatch 0 1 tNow
  return (b, batch)

def formBatchCashLoop (b₀ : AlignmentBuffer K) (rankedAdapters : List String)
    (tmaxK : Dict String K) (maxTokens : Option ℤ) (tNow : K) :
    AlignmentBuffer K × List (String × ℕ) := Id.run do
  let mut b := b₀
  let mut batch := []
  let budget := b₀.budget maxTokens
  for adapterId in rankedAdapters do
    if budget ≤ batch.length then
      break
    let some q := b.queues.get? adapterId | continue
    if q.length = 0 then
      continue
    let age := b.age adapterId tNow
    if b.W ≤ q.length then
      let nFullWarps := min (q.length / b.W) ((budget - batch.length).toNat / b.W)
      let nToDispatch := nFullWarps * b.W
      if nToDispatch ≤ 0 then
        break
      batch := batch ++ (q.take nToDispatch).map fun e => (adapterId, e.1)
      b := b.popChunk adapterId nToDispatch nFullWarps 0 tNow
    else
      let perAdapterTmax := tmaxK.getD adapterId b.ttftSlo
      let effectiveDeadline := min perAdapterTmax b.ttftSlo
      if effectiveDeadline ≤ age then
        let nToDispatch := min q.length (budget - batch.length).toNat
        batch := batch ++ (q.take nToDispatch).map fun e => (adapterId, e.1)
        b := b.popChunk adapterId nToDispatch 0 1 tNow
  return (b, batch)

/-- `_n_timeout_dispatches` is counted where rule 4 applies. -/
def countTimeout (b : AlignmentBuffer K) : AlignmentBuffer K :=
  { b with nTimeoutDispatches := b.nTimeoutDispatches + 1 }

def formBatchWgkpLoop (b₀ : AlignmentBuffer K) (rankedAdapters : List String)
    (tmaxK : Dict String K) (nStar : ℤ) (mergedAdapterIds : List String) (maxTokens : Option ℤ)
    (tNow : K) : AlignmentBuffer K × List (String × ℕ × Bool) := Id.run do
  let mut b := b₀
  let mut batch := []
  let budget := b₀.budget maxTokens
  let effNStar := b₀.effNStar rankedAdapters nStar
  let effHalfNStar := (effNStar + 1) / 2
  for adapterId in rankedAdapters do
    if budget ≤ batch.length then
      break
    let some q := b.queues.get? adapterId | continue
    if q.length = 0 then
      continue
    let age := b.age adapterId tNow
    let perAdapterTmax := tmaxK.getD adapterId b.tMax
    let effectiveDeadline := min perAdapterTmax b.ttftSlo
    let mut dispatchN := 0
    let mut isPromoted := false
    if b.W ≤ q.length then
      let nFullWarps := min (q.length / b.W) ((budget - batch.length).toNat / b.W)
      dispatchN := nFullWarps * b.W
      isPromoted := decide (adapterId ∈ mergedAdapterIds) && decide (0 < dispatchN)
    else if effNStar ≤ q.length then
      dispatchN := min q.length (budget - batch.length).toNat
      isPromoted := decide (adapterId ∈ mergedAdapterIds) && decide (0 < dispatchN)
    else if effHalfNStar ≤ q.length ∧ effectiveDeadline / 2 < age then
      dispatchN := min q.length (budget - batch.length).toNat
      isPromoted := false
    else if effectiveDeadline ≤ age then
      dispatchN := min q.length (budget - batch.length).toNat
      isPromoted := false
      b := b.countTimeout
    if dispatchN ≤ 0 then
      continue
    batch := batch ++ (q.take dispatchN).map fun e => (adapterId, e.1, isPromoted)
    b := b.popChunk adapterId dispatchN (if isPromoted then dispatchN / max b.W 1 else 0) 0 tNow
  return (b, batch)

/-! ## Turns -/

/-- One turn of `visitLoop`, as the outcome of a loop body. The batch of the
body holds what `f` reads off the tokens. -/
def turn {β : Type} (f : String × ℕ × Bool → β) (rule : String → ℕ → K → ℕ → Verdict) (budget : ℤ)
    (tNow : K) (k : String) (b : AlignmentBuffer K) (batch : List (String × ℕ × Bool)) :
    ForInStep (AlignmentBuffer K × List β) :=
  if budget ≤ batch.length then .done (b, batch.map f)
  else if (b.queue k).length = 0 then .yield (b, batch.map f)
  else
    match rule k (b.queue k).length (b.age k tNow) (budget - batch.length).toNat with
    | .stop => .done (b, batch.map f)
    | .skip => .yield (b, batch.map f)
    | .take n promoted warps timeouts =>
        .yield (b.popChunk k n warps timeouts tNow,
          (batch ++ ((b.queue k).take n).map fun e => (k, e.1, promoted)).map f)

/-- What no dispatch changes and every loop reads. -/
def SameParams (b b' : AlignmentBuffer K) : Prop :=
  b'.W = b.W ∧ b'.tMax = b.tMax ∧ b'.ttftSlo = b.ttftSlo

section Turns

omit [LinearOrder K]

variable {β : Type} {f : String × ℕ × Bool → β} {rule : String → ℕ → K → ℕ → Verdict} {budget : ℤ}
  {t : K} {b : AlignmentBuffer K}

/-- A loop whose body makes the turns of the rule is `visitLoop`. -/
theorem forIn_eq_visitLoop
    {body : String → AlignmentBuffer K × List β → Id (ForInStep (AlignmentBuffer K × List β))}
    (hbody : ∀ k b' batch, b.SameParams b' →
      body k (b', batch.map f) = turn f rule budget t k b' batch) :
    ∀ (ks : List String) (b' : AlignmentBuffer K) (batch : List (String × ℕ × Bool)),
      b.SameParams b' →
      forIn ks (b', batch.map f) body
        = ((visitLoop rule budget t ks b' batch).1,
            (visitLoop rule budget t ks b' batch).2.map f)
  | [], _, _, _ => rfl
  | k :: ks, b', batch, hsame => by
      rw [List.forIn_cons, hbody k b' batch hsame, visitLoop, turn]
      split
      · rfl
      · split
        · exact forIn_eq_visitLoop hbody ks b' batch hsame
        · cases rule k (b'.queue k).length (b'.age k t) (budget - batch.length).toNat with
          | stop => rfl
          | skip => exact forIn_eq_visitLoop hbody ks b' batch hsame
          | take n p w o => exact forIn_eq_visitLoop hbody ks _ _ hsame

/-- The same for a body that keeps the tokens as they are. -/
theorem forIn_eq_visitLoop_flagged
    {body : String → AlignmentBuffer K × List (String × ℕ × Bool) →
      Id (ForInStep (AlignmentBuffer K × List (String × ℕ × Bool)))}
    (hbody : ∀ k b' batch, b.SameParams b' →
      body k (b', batch) = turn id rule budget t k b' batch) (ks : List String) :
    forIn ks (b, []) body = visitLoop rule budget t ks b [] := by
  have hbody' : ∀ k b' batch, b.SameParams b' →
      body k (b', batch.map id) = turn id rule budget t k b' batch := fun k b' batch hsame => by
    rw [List.map_id]
    exact hbody k b' batch hsame
  have hloop := forIn_eq_visitLoop hbody' ks b [] ⟨rfl, rfl, rfl⟩
  simp only [List.map_id] at hloop
  exact hloop

end Turns

/-! ## The loops are `visitLoop` -/

section Loops

variable (b : AlignmentBuffer K) (m : Option ℤ) (t : K)

omit [Field K] [LinearOrder K] in
/-- The tokens of one chunk, without the flag. -/
theorem map_pairs_append (batch : List (String × ℕ × Bool)) (k : String) (q : List (ℕ × K))
    (promoted : Bool) :
    (batch ++ q.map fun e => (k, e.1, promoted)).map (fun e => (e.1, e.2.1))
      = batch.map (fun e => (e.1, e.2.1)) ++ q.map fun e => (k, e.1) := by
  rw [List.map_append, List.map_map]
  rfl

/-- The turn of the deadline rule, in the words of the three loops. -/
theorem turn_deadlineRule (W : ℕ) (deadline : String → K) (budget : ℤ) (k : String)
    (batch : List (String × ℕ × Bool)) :
    turn (fun e => (e.1, e.2.1)) (deadlineRule W deadline) budget t k b batch
      = if budget ≤ batch.length then .done (b, pairs batch)
        else if (b.queue k).length = 0 then .yield (b, pairs batch)
        else if W ≤ (b.queue k).length then
          let nFullWarps := min ((b.queue k).length / W) ((budget - batch.length).toNat / W)
          if nFullWarps * W ≤ 0 then .done (b, pairs batch)
          else .yield (b.popChunk k (nFullWarps * W) nFullWarps 0 t,
            pairs batch ++ ((b.queue k).take (nFullWarps * W)).map fun e => (k, e.1))
        else if deadline k ≤ b.age k t then
          let n := min (b.queue k).length (budget - batch.length).toNat
          .yield (b.popChunk k n 0 1 t, pairs batch ++ ((b.queue k).take n).map fun e => (k, e.1))
        else .yield (b, pairs batch) := by
  simp only [turn, deadlineRule, map_pairs_append, Nat.le_zero, pairs]
  by_cases hlong : W ≤ (b.queue k).length
  · simp only [if_pos hlong]
    by_cases hnone : min ((b.queue k).length / W) ((budget - batch.length).toNat / W) * W = 0
    · simp only [if_pos hnone]
    · simp only [if_neg hnone]
  · simp only [if_neg hlong]
    by_cases hage : deadline k ≤ b.age k t
    · simp only [if_pos hage]
    · simp only [if_neg hage]

theorem formBatchLoop_eq : b.formBatchLoop m t = b.formBatch m t := by
  refine forIn_eq_visitLoop (b := b) ?_ b.queues.keys b [] ⟨rfl, rfl, rfl⟩
  rintro k b' batch ⟨hW, -, -⟩
  rw [turn_deadlineRule]
  simp only [hW, List.length_map, pairs]
  rfl

theorem formBatchErlangLoop_eq (tmaxK : Dict String K) :
    b.formBatchErlangLoop tmaxK m t = b.formBatchErlang tmaxK m t := by
  refine forIn_eq_visitLoop (b := b) ?_ b.queues.keys b [] ⟨rfl, rfl, rfl⟩
  rintro k b' batch ⟨hW, -, hslo⟩
  rw [turn_deadlineRule]
  simp only [hW, hslo, List.length_map, pairs]
  rfl

theorem formBatchCashLoop_eq (ranked : List String) (tmaxK : Dict String K) :
    b.formBatchCashLoop ranked tmaxK m t = b.formBatchCash ranked tmaxK m t := by
  refine forIn_eq_visitLoop (b := b) ?_ ranked b [] ⟨rfl, rfl, rfl⟩
  rintro k b' batch ⟨hW, -, hslo⟩
  rw [turn_deadlineRule]
  simp only [hW, hslo, List.length_map, pairs]
  -- an unregistered adapter is passed over like one with an empty queue
  cases hq : b'.queues.get? k with
  | none =>
      have hempty : b'.queue k = [] := queue_of_not_mem (Dict.get?_eq_none.mp hq)
      simp only [hempty, List.length_nil, if_true]
      rfl
  | some q =>
      have hqueue : b'.queue k = q := by rw [queue, Dict.getD, hq, Option.getD_some]
      simp only [hqueue]
      rfl

theorem formBatchWgkpLoop_eq (ranked : List String) (tmaxK : Dict String K) (nStar : ℤ)
    (merged : List String) :
    b.formBatchWgkpLoop ranked tmaxK nStar merged m t
      = b.formBatchWgkp ranked tmaxK nStar merged m t := by
  refine forIn_eq_visitLoop_flagged ?_ ranked
  rintro k b' batch ⟨hW, htmax, hslo⟩
  simp only [hW, htmax, hslo, turn, List.map_id]
  by_cases hfull : b.budget m ≤ batch.length
  · simp only [if_pos hfull]
    rfl
  simp only [if_neg hfull]
  cases hq : b'.queues.get? k with
  | none =>
      have hempty : b'.queue k = [] := queue_of_not_mem (Dict.get?_eq_none.mp hq)
      simp only [hempty, List.length_nil, if_true]
      rfl
  | some q =>
      have hqueue : b'.queue k = q := by rw [queue, Dict.getD, hq, Option.getD_some]
      simp only [hqueue]
      by_cases hlen : q.length = 0
      · simp only [if_pos hlen]
        rfl
      -- a queue shorter than a warp always leaves with a token in hand
      have hmin : ¬ min q.length (b.budget m - batch.length).toNat = 0 := by omega
      simp only [if_neg hlen, wgkpRule, wgkpChoice, Nat.le_zero, hmin, if_false]
      split
      · by_cases hwarps : min (q.length / b.W) ((b.budget m - batch.length).toNat / b.W) * b.W = 0
        · simp only [if_pos hwarps]
          rfl
        · simp only [if_neg hwarps]
          rfl
      · split
        · rfl
        · split
          · rfl
          · split <;> rfl

end Loops

/-! ## The deadline methods agree -/

omit [LinearOrder K] in
/-- The loop asks the rule about the visited adapters only. -/
theorem visitLoop_congr {rule rule' : String → ℕ → K → ℕ → Verdict} {budget : ℤ} {t : K} :
    ∀ {ks : List String}, (∀ k ∈ ks, rule k = rule' k) →
      ∀ (b : AlignmentBuffer K) (batch : List (String × ℕ × Bool)),
        visitLoop rule budget t ks b batch = visitLoop rule' budget t ks b batch
  | [], _, _, _ => rfl
  | k :: ks, h, b, batch => by
      have htail : ∀ b' batch',
          visitLoop rule budget t ks b' batch' = visitLoop rule' budget t ks b' batch' :=
        visitLoop_congr fun k' hk' => h k' (List.mem_cons_of_mem _ hk')
      simp only [visitLoop, h k (List.mem_cons_self ..), htail]

omit [Field K] in
theorem deadlineRule_congr {W : ℕ} {deadline deadline' : String → K} {k : String}
    (h : deadline k = deadline' k) : deadlineRule W deadline k = deadlineRule W deadline' k := by
  funext qLen age room
  simp only [deadlineRule, h]

variable (b : AlignmentBuffer K) (m : Option ℤ) (t : K)

/-- With `T_max` as every registered adapter's deadline, the per-adapter
deadlines are the global one. -/
theorem formBatchErlang_eq_formBatch {tmaxK : Dict String K}
    (h : ∀ k ∈ b.queues, tmaxK.get? k = some b.tMax) :
    b.formBatchErlang tmaxK m t = b.formBatch m t := by
  have hrule : ∀ k ∈ b.queues.keys,
      deadlineRule b.W (fun k => min (tmaxK.getD k b.ttftSlo) b.ttftSlo) k
        = deadlineRule b.W (fun _ => min b.tMax b.ttftSlo) k := by
    intro k hk
    refine deadlineRule_congr ?_
    rw [Dict.getD, h k hk, Option.getD_some]
  simp only [formBatchErlang, formBatch, visitLoop_congr hrule]

/-- The three deadline methods, run on one buffer at one clock reading. -/
theorem deadline_dispatchers_agree :
    (∀ tmaxK, (∀ k ∈ b.queues, tmaxK.get? k = some b.tMax) →
        b.formBatchErlangLoop tmaxK m t = b.formBatchLoop m t
          ∧ b.formBatchCashLoop b.queues.keys tmaxK m t = b.formBatchLoop m t)
      ∧ ∀ tmaxK, b.formBatchErlangLoop tmaxK m t
          = b.formBatchCashLoop b.queues.keys tmaxK m t := by
  have hcash : ∀ tmaxK, b.formBatchErlangLoop tmaxK m t
      = b.formBatchCashLoop b.queues.keys tmaxK m t := by
    intro tmaxK
    rw [formBatchErlangLoop_eq, formBatchCashLoop_eq]
    rfl
  refine ⟨fun tmaxK h => ?_, hcash⟩
  have herlang : b.formBatchErlangLoop tmaxK m t = b.formBatchLoop m t := by
    rw [formBatchErlangLoop_eq, formBatchLoop_eq, formBatchErlang_eq_formBatch b m t h]
  exact ⟨herlang, (hcash tmaxK).symm.trans herlang⟩

/-- `T_max` is 5 ms there. -/
theorem threeAndOne_agree :
    (threeAndOne.formBatchErlangLoop (.ofKeys ["a", "b"] (5 / 1000)) (some 3) 1
        = threeAndOne.formBatchLoop (some 3) 1
      ∧ threeAndOne.formBatchCashLoop threeAndOne.queues.keys (.ofKeys ["a", "b"] (5 / 1000))
          (some 3) 1 = threeAndOne.formBatchLoop (some 3) 1)
      ∧ (threeAndOne.formBatchLoop (some 3) 1).2 = [("a", 1), ("a", 2), ("b", 4)] := by
  refine ⟨(deadline_dispatchers_agree threeAndOne (some 3) 1).1 _ fun k hk => ?_, ?_⟩
  · have hkeys : k ∈ ["a", "b"] := hk
    rcases List.mem_pair.mp hkeys with rfl | rfl <;> decide +kernel
  · decide +kernel

end AlignmentBuffer

end AdapterSlots
