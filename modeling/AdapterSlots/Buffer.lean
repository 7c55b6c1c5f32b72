import Mathlib.Algebra.Field.Rat
import Mathlib.Algebra.Order.Field.Basic
import Mathlib.Algebra.Order.Ring.Unbundled.Rat
import Mathlib.Data.Int.Order.Basic
import Mathlib.Data.String.Basic
import AdapterSlots.Lib.Dict

/-!
# The alignment buffer

`buffer.py`: the per-adapter decode-token queues `Q_k`, the shadow queues
`Q_k'` of preempted tokens, the enqueue records, and the four `form_batch`
variants.

Times are elements of an ordered field `K`; every reading of
`time.perf_counter()` is an argument of the function that takes it. The
four dispatch loops share their shape - visit adapters in some order,
stop when the batch is full, skip empty queues, pop a chunk from the head
of the queue - and differ in the rule that decides about one queue. The
shape is `visitLoop`, the rules are `deadlineRule` (`form_batch`,
`form_batch_erlang`, `form_batch_cash`) and `wgkpRule`.
-/

namespace AdapterSlots

open Lib

/-! The numerals 2, 10 and 1000 of the source are read in `K`. Their instances have names,
so that all modules read them as the same term. -/

instance atLeastTwo_two : Nat.AtLeastTwo 2 := ⟨Nat.le_refl 2⟩

instance atLeastTwo_ten : Nat.AtLeastTwo 10 := ⟨by decide⟩

instance atLeastTwo_thousand : Nat.AtLeastTwo 1000 := ⟨by decide⟩

/-- `AlignmentBuffer`. A queue entry is `(seq_id, enqueue_time)`. The warp
width is positive: the loops divide by it. -/
structure AlignmentBuffer (K : Type) where
  W : ℕ
  W_pos : 0 < W
  tMax : K
  ttftSlo : K
  queues : Dict String (List (ℕ × K))
  shadow : Dict String (List ℕ)
  shadowTime : Dict ℕ K
  /-- Time of the oldest token currently in each queue. -/
  enqueueTime : Dict String (Option K)
  lastDispatch : Dict String K
  nWarpsDispatched : ℕ
  nTimeoutDispatches : ℕ
  nTokensEnqueued : ℕ
  nTokensDispatched : ℕ
  seqEnqueue : Dict ℕ K

/-- What a dispatch rule decides about one non-empty queue: leave the loop,
go on to the next adapter, or pop `n` tokens from the head. -/
inductive Verdict where
  | stop
  | skip
  | take (n : ℕ) (promoted : Bool) (warps timeouts : ℕ)
deriving DecidableEq, Repr

/-- Python's `round(w / k)`: to the nearest integer, ties to even. -/
def roundDiv (w k : ℕ) : ℕ :=
  if 2 * (w % k) < k then w / k
  else if k < 2 * (w % k) then w / k + 1
  else if w / k % 2 = 0 then w / k else w / k + 1

namespace AlignmentBuffer

variable {K : Type}

def init [Field K] (adapters : List String) (W : ℕ) (hW : 0 < W) (tmaxMs ttftSloMs : K) :
    AlignmentBuffer K where
  W := W
  W_pos := hW
  tMax := tmaxMs / 1000
  ttftSlo := ttftSloMs / 1000
  queues := .ofKeys adapters []
  shadow := .ofKeys adapters []
  shadowTime := .empty
  enqueueTime := .ofKeys adapters none
  lastDispatch := .empty
  nWarpsDispatched := 0
  nTimeoutDispatches := 0
  nTokensEnqueued := 0
  nTokensDispatched := 0
  seqEnqueue := .empty

/-! ## Reading the state -/

def queue (b : AlignmentBuffer K) (k : String) : List (ℕ × K) := b.queues.getD k []

def held (b : AlignmentBuffer K) (k : String) : List ℕ := b.shadow.getD k []

/-- `enqueue_time.get(k)`, `none` for an unregistered adapter as well. -/
def oldest (b : AlignmentBuffer K) (k : String) : Option K := (b.enqueueTime.get? k).join

/-- `max_tokens if max_tokens is not None else (self.W * len(self.queues))`. -/
def budget (b : AlignmentBuffer K) (maxTokens : Option ℤ) : ℤ :=
  maxTokens.getD (b.W * b.queues.keys.length)

def isBuffered (b : AlignmentBuffer K) (s : ℕ) : Bool := decide (s ∈ b.seqEnqueue)

def pendingCount (b : AlignmentBuffer K) : Dict String ℕ :=
  b.queues.mapValues fun _ q => q.length

/-! ## Enqueue and release -/

def registerAdapter (b : AlignmentBuffer K) (k : String) : AlignmentBuffer K :=
  if k ∈ b.queues then b
  else { b with
    queues := b.queues.insert k []
    shadow := b.shadow.insert k []
    enqueueTime := b.enqueueTime.insert k none }

/-- The body of `enqueue` for a registered adapter. -/
def appendToken (b : AlignmentBuffer K) (k : String) (s : ℕ) (t : K) : AlignmentBuffer K :=
  { b with
    queues := b.queues.insert k (b.queue k ++ [(s, t)])
    enqueueTime := if b.oldest k = none then b.enqueueTime.insert k (some t) else b.enqueueTime
    nTokensEnqueued := b.nTokensEnqueued + 1
    seqEnqueue := b.seqEnqueue.insert s t }

/-- A sequence with an enqueue record is left as it is. -/
def enqueue (b : AlignmentBuffer K) (k : String) (s : ℕ) (t : K) : AlignmentBuffer K :=
  if s ∈ b.seqEnqueue then b else (b.registerAdapter k).appendToken k s t

def release (b : AlignmentBuffer K) (s : ℕ) : AlignmentBuffer K :=
  { b with seqEnqueue := b.seqEnqueue.erase s }

/-! ## Dispatch -/

section Dispatch

/-- The update every dispatch branch makes: pop `n` tokens, record the
dispatch, and let `enqueue_time` follow the new head. -/
def popChunk (b : AlignmentBuffer K) (k : String) (n warps timeouts : ℕ) (tNow : K) :
    AlignmentBuffer K :=
  { b with
    queues := b.queues.insert k ((b.queue k).drop n)
    lastDispatch := b.lastDispatch.insert k tNow
    enqueueTime := b.enqueueTime.insert k (((b.queue k).drop n).head?.map Prod.snd)
    nWarpsDispatched := b.nWarpsDispatched + warps
    nTimeoutDispatches := b.nTimeoutDispatches + timeouts
    nTokensDispatched := b.nTokensDispatched + n }

/-- `{adapter_id, seq_id}` pairs of a batch of triples. -/
def pairs (batch : List (String × ℕ × Bool)) : List (String × ℕ) :=
  batch.map fun e => (e.1, e.2.1)

variable [Field K] [LinearOrder K]

/-- `(t_now - enq_t) if enq_t is not None else 0.0`. -/
def age (b : AlignmentBuffer K) (k : String) (tNow : K) : K :=
  match b.oldest k with
  | none => 0
  | some t => tNow - t

/-- The loop of the `form_batch` variants over the adapters to visit. The
rule sees the adapter, its queue length, its age and the room left in the
batch. -/
def visitLoop (rule : String → ℕ → K → ℕ → Verdict) (budget : ℤ) (tNow : K) :
    List String → AlignmentBuffer K → List (String × ℕ × Bool) →
      AlignmentBuffer K × List (String × ℕ × Bool)
  | [], b, batch => (b, batch)
  | k :: ks, b, batch =>
      if budget ≤ batch.length then (b, batch)
      else if (b.queue k).length = 0 then visitLoop rule budget tNow ks b batch
      else
        match rule k (b.queue k).length (b.age k tNow) (budget - batch.length).toNat with
        | .stop => (b, batch)
        | .skip => visitLoop rule budget tNow ks b batch
        | .take n promoted warps timeouts =>
            visitLoop rule budget tNow ks (b.popChunk k n warps timeouts tNow)
              (batch ++ ((b.queue k).take n).map fun e => (k, e.1, promoted))

/-- Whole warps from a queue of at least `W` tokens; a shorter queue leaves
once its age reaches the deadline. When not even one warp fits into the
batch, the loop ends. -/
def deadlineRule (W : ℕ) (deadline : String → K) (k : String) (qLen : ℕ) (age : K)
    (room : ℕ) : Verdict :=
  if W ≤ qLen then
    let nFullWarps := min (qLen / W) (room / W)
    let nToDispatch := nFullWarps * W
    if nToDispatch = 0 then .stop else .take nToDispatch false nFullWarps 0
  else if deadline k ≤ age then .take (min qLen room) false 0 1
  else .skip

/-- `(dispatch_n, is_promoted)` and the timeout count of the first of the five
rules that applies. Only rules 1 and 2 promote. -/
def wgkpChoice (W effNStar effHalfNStar : ℕ) (deadline : String → K) (merged : List String)
    (k : String) (qLen : ℕ) (age : K) (room : ℕ) : ℕ × Bool × ℕ :=
  if W ≤ qLen then
    let dispatchN := min (qLen / W) (room / W) * W
    (dispatchN, decide (k ∈ merged) && decide (0 < dispatchN), 0)
  else if effNStar ≤ qLen then
    let dispatchN := min qLen room
    (dispatchN, decide (k ∈ merged) && decide (0 < dispatchN), 0)
  else if effHalfNStar ≤ qLen ∧ deadline k / 2 < age then (min qLen room, false, 0)
  else if deadline k ≤ age then (min qLen room, false, 1)
  else (0, false, 0)

def wgkpRule (W effNStar effHalfNStar : ℕ) (deadline : String → K) (merged : List String)
    (k : String) (qLen : ℕ) (age : K) (room : ℕ) : Verdict :=
  let choice := wgkpChoice W effNStar effHalfNStar deadline merged k qLen age room
  if choice.1 = 0 then .skip
  else .take choice.1 choice.2.1 (if choice.2.1 then choice.1 / max W 1 else 0) choice.2.2

def formBatch (b : AlignmentBuffer K) (maxTokens : Option ℤ) (tNow : K) :
    AlignmentBuffer K × List (String × ℕ) :=
  let r := visitLoop (deadlineRule b.W fun _ => min b.tMax b.ttftSlo) (b.budget maxTokens) tNow
    b.queues.keys b []
  (r.1, pairs r.2)

def formBatchErlang (b : AlignmentBuffer K) (tmaxK : Dict String K) (maxTokens : Option ℤ)
    (tNow : K) : AlignmentBuffer K × List (String × ℕ) :=
  let r := visitLoop (deadlineRule b.W fun k => min (tmaxK.getD k b.ttftSlo) b.ttftSlo)
    (b.budget maxTokens) tNow b.queues.keys b []
  (r.1, pairs r.2)

def formBatchCash (b : AlignmentBuffer K) (rankedAdapters : List String) (tmaxK : Dict String K)
    (maxTokens : Option ℤ) (tNow : K) : AlignmentBuffer K × List (String × ℕ) :=
  let r := visitLoop (deadlineRule b.W fun k => min (tmaxK.getD k b.ttftSlo) b.ttftSlo)
    (b.budget maxTokens) tNow rankedAdapters b []
  (r.1, pairs r.2)

/-- `max(1, min(n_star, round(W / K)))` for `K` ranked adapters, `K ≥ 1`. -/
def effNStar (b : AlignmentBuffer K) (rankedAdapters : List String) (nStar : ℤ) : ℕ :=
  (max 1 (min nStar (roundDiv b.W (max rankedAdapters.length 1) : ℕ))).toNat

def formBatchWgkp (b : AlignmentBuffer K) (rankedAdapters : List String) (tmaxK : Dict String K)
    (nStar : ℤ) (mergedAdapterIds : List String) (maxTokens : Option ℤ) (tNow : K) :
    AlignmentBuffer K × List (String × ℕ × Bool) :=
  let eff := b.effNStar rankedAdapters nStar
  visitLoop (wgkpRule b.W eff ((eff + 1) / 2) (fun k => min (tmaxK.getD k b.tMax) b.ttftSlo)
    mergedAdapterIds) (b.budget maxTokens) tNow rankedAdapters b []

end Dispatch

/-! ## Shadow queues -/

/-- The entries of `Q_k` that stay when `s` is held. -/
def withoutSeq (q : List (ℕ × K)) (s : ℕ) : List (ℕ × K) := q.eraseP fun e => decide (e.1 = s)

/-- Move the record of `s` with its time `t` to the shadow side. -/
def hold (b : AlignmentBuffer K) (k : String) (s : ℕ) (t : K) : AlignmentBuffer K :=
  { b with
    shadow := b.shadow.insert k (b.held k ++ [s])
    shadowTime := b.shadowTime.insert s t
    seqEnqueue := b.seqEnqueue.erase s }

/-- Replace `Q_k` and let `enqueue_time` follow its head. -/
def setQueue (b : AlignmentBuffer K) (k : String) (q : List (ℕ × K)) : AlignmentBuffer K :=
  { b with
    queues := b.queues.insert k q
    enqueueTime := b.enqueueTime.insert k (q.head?.map Prod.snd) }

/-- `self._shadow.setdefault(adapter_id, deque())`. -/
def ensureShadow (b : AlignmentBuffer K) (k : String) : AlignmentBuffer K :=
  { b with shadow := b.shadow.setDefault k [] }

/-- The loop over `Q_k`: move the first entry of `s` to the shadow queue.
Also without such an entry `enqueue_time` is reset to the head. -/
def holdEntry (b : AlignmentBuffer K) (k : String) (s : ℕ) : AlignmentBuffer K :=
  match (b.queue k).find? fun e => decide (e.1 = s) with
  | none => b.setQueue k (b.queue k)
  | some e => (b.hold k s e.2).setQueue k (withoutSeq (b.queue k) s)

def preemptAndHold (b : AlignmentBuffer K) (k : String) (s : ℕ) : AlignmentBuffer K :=
  if k ∉ b.queues then b
  else if s ∈ b.held k then b.ensureShadow k
  else (b.ensureShadow k).holdEntry k s

/-- Take `s` out of `Q_k'`. -/
def unhold (b : AlignmentBuffer K) (k : String) (s : ℕ) : AlignmentBuffer K :=
  { b with
    shadow := b.shadow.insert k ((b.held k).erase s)
    shadowTime := b.shadowTime.erase s }

/-- Put `s` at the head of `Q_k` with time `t`. -/
def pushHead [LinearOrder K] (b : AlignmentBuffer K) (k : String) (s : ℕ) (t : K) :
    AlignmentBuffer K :=
  { b with
    queues := b.queues.insert k ((s, t) :: b.queue k)
    enqueueTime := b.enqueueTime.insert k
      (some (match b.oldest k with | none => t | some t₀ => min t₀ t))
    seqEnqueue := b.seqEnqueue.insert s t }

/-- Return `s` to the head of `Q_k` with the time it was held with; `tNow`
stands in when no time was kept. -/
def resumeFromShadow [LinearOrder K] (b : AlignmentBuffer K) (k : String) (s : ℕ) (tNow : K) :
    AlignmentBuffer K :=
  if s ∈ b.held k then
    ((b.unhold k s).registerAdapter k).pushHead k s (b.shadowTime.getD s tNow)
  else b

/-! ## The scheduler's edit of the queues -/

/-- Take every entry of `s` out of `Q_k`; `enqueue_time` changes only when the
queue becomes empty. -/
def drainSeq (b : AlignmentBuffer K) (k : String) (s : ℕ) : AlignmentBuffer K :=
  if k ∈ b.queues then
    let q := (b.queue k).filter fun e => decide (e.1 ≠ s)
    { b with
      queues := b.queues.insert k q
      enqueueTime := if q.isEmpty then b.enqueueTime.insert k none else b.enqueueTime }
  else b

/-- `_drain_buffer_remaining` on `(adapter_id, seq_id)` pairs: the groups that
were not dispatched leave their queues. -/
def drainRemaining (b : AlignmentBuffer K) (groups : List (String × ℕ))
    (dispatchedIds : List ℕ) : AlignmentBuffer K :=
  (groups.filter fun g => decide (g.2 ∉ dispatchedIds)).foldl (fun b g => b.drainSeq g.1 g.2) b

def resetStats (b : AlignmentBuffer K) : AlignmentBuffer K :=
  { b with
    nWarpsDispatched := 0
    nTimeoutDispatches := 0
    nTokensEnqueued := 0
    nTokensDispatched := 0 }

end AlignmentBuffer

end AdapterSlots
