import Mathlib.Algebra.BigOperators.Group.List.Lemmas
import Mathlib.Algebra.BigOperators.Ring.Finset
import Mathlib.Algebra.Order.BigOperators.Group.List
import AdapterSlots.Gwar
import AdapterSlots.SchedulerHolding
import AdapterSlots.MergeRequests
import AdapterSlots.WgkpDispatcher

/-!
# The promotion fraction of a run

A wgkp tick hands the batch of `form_batch_wgkp` to the `WGKPDispatcher`, which
counts the promoted tokens; the batch log reports the fraction promoted so
far. In a run that offers what waits, the promoted tokens are those of resident
adapters in runs that meet the threshold of their dispatch. So the fraction is
a GWAR: that of the residents' part of each batch, at the threshold the batch
was formed with (`promotion_fraction_is_resident_gwar`).
-/

namespace AdapterSlots

open Lib AlignmentBuffer

/-! ## The counters of the dispatcher -/

namespace WGKPDispatcher

def promotedTokens (l : List (String × ℕ × Bool)) : ℕ := l.countP fun e => e.2.2

theorem promotedTokens_of_uniform {l : List (String × ℕ × Bool)} {p : Bool}
    (h : ∀ e ∈ l, e.2.2 = p) : promotedTokens l = if p then l.length else 0 := by
  cases p with
  | true => exact List.countP_eq_length.mpr h
  | false => exact List.countP_eq_zero.mpr fun e he => by simp [h e he]

/-- The loop counts the tokens of the promoted runs. -/
theorem segmentLoop_counts : ∀ (l : List (String × ℕ × Bool)) (d : WGKPDispatcher)
    (segments : List SegmentDescriptor) (i : ℕ),
    (∀ run ∈ maximalRuns Prod.fst l, ¬ Mixed run) → (segmentLoop d segments i l).1
      = { d with totalPromotedTokens := d.totalPromotedTokens + promotedTokens l }
  | [], d, segments, i, _ => by
      rw [segmentLoop]
      rfl
  | (a, s, p) :: rest, d, segments, i, hnone => by
      have hshorter := List.length_dropWhile_le (fun e : String × ℕ × Bool => decide (e.1 = a)) rest
      rw [maximalRuns_cons] at hnone
      have huniform : ∀ e ∈ rest.takeWhile fun e => decide (e.1 = a), e.2.2 = p := fun e he =>
        not_not.mp fun hne => hnone _ (List.mem_cons_self ..) (mixed_cons.mpr ⟨e, he, hne⟩)
      have htake := takeRun_of_uniform huniform (i + 1)
      have hcount : promotedTokens ((a, s, p) :: rest)
          = (if p then (rest.takeWhile fun e => decide (e.1 = a)).length + 1 else 0)
            + promotedTokens (rest.dropWhile fun e => decide (e.1 = a)) := by
        have hrun : ∀ e ∈ (a, s, p) :: rest.takeWhile fun e => decide (e.1 = a), e.2.2 = p := by
          intro e he
          rcases List.mem_cons.mp he with rfl | he
          · rfl
          · exact huniform e he
        have hsum := promotedTokens_of_uniform hrun
        rw [List.length_cons] at hsum
        rw [← hsum, promotedTokens, promotedTokens, promotedTokens, ← List.countP_append,
          List.cons_append, List.takeWhile_append_dropWhile]
      rw [segmentLoop]
      split
      · rename_i h
        rw [htake] at h
        cases h
      · rename_i ids rest' h
        rw [htake] at h
        obtain ⟨rfl, rfl⟩ := Prod.mk.inj (Except.ok.inj h)
        rw [segmentLoop_counts (rest.dropWhile fun e => decide (e.1 = a)) _ _ _
          fun run hrun => hnone run (List.mem_cons_of_mem _ hrun), hcount]
        cases p with
        | true => simp [Nat.add_assoc]
        | false => simp
termination_by l => l.length

/-- What a batch adds to the counters. -/
theorem segmentAndPromote_counts (d : WGKPDispatcher) {l : List (String × ℕ × Bool)}
    (hnone : ∀ run ∈ maximalRuns Prod.fst l, ¬ Mixed run) :
    (d.segmentAndPromote l).1.totalTokens = d.totalTokens + l.length
      ∧ (d.segmentAndPromote l).1.totalPromotedTokens
        = d.totalPromotedTokens + promotedTokens l := by
  unfold segmentAndPromote
  split
  · rename_i hnil
    subst hnil
    exact ⟨rfl, rfl⟩
  · rw [segmentLoop_counts l _ _ _ hnone]
    exact ⟨rfl, rfl⟩

/-- The dispatcher after the batches, from the state of the constructor. -/
def afterBatches (batches : List (List (String × ℕ × Bool))) : WGKPDispatcher :=
  batches.foldl (fun d l => (d.segmentAndPromote l).1) ⟨0, 0, 0⟩

theorem afterBatches_counts {batches : List (List (String × ℕ × Bool))}
    (hnone : ∀ l ∈ batches, ∀ run ∈ maximalRuns Prod.fst l, ¬ Mixed run) :
    (afterBatches batches).totalTokens = (batches.map List.length).sum
      ∧ (afterBatches batches).totalPromotedTokens = (batches.map promotedTokens).sum := by
  unfold afterBatches
  induction batches using List.reverseRecOn with
  | nil => exact ⟨rfl, rfl⟩
  | append_singleton bs l ih =>
      obtain ⟨htokens, hpromoted⟩ := ih fun l' hl' => hnone l' (List.mem_append_left _ hl')
      obtain ⟨htokens', hpromoted'⟩ := segmentAndPromote_counts
        (bs.foldl (fun d l => (d.segmentAndPromote l).1) ⟨0, 0, 0⟩) (hnone l (by simp))
      rw [List.foldl_append, List.map_append, List.map_append, List.sum_append, List.sum_append,
        ← htokens, ← hpromoted]
      exact ⟨by simpa using htokens', by simpa using hpromoted'⟩

variable {K : Type} [Field K]

/-- `promotion_fraction`. -/
def promotionFraction (d : WGKPDispatcher) : K :=
  if d.totalTokens = 0 then 0 else (d.totalPromotedTokens : K) / d.totalTokens

end WGKPDispatcher

/-! ## One dispatch -/

open WGKPDispatcher

variable {K : Type} [Field K] [LinearOrder K]

/-- Rules 1 and 2 take the flag from residency alone. -/
theorem wgkpRule_flag {W eff half : ℕ} {deadline : String → K} {merged : List String}
    {k : String} {qLen room : ℕ} {age : K} {n w o : ℕ} {p : Bool}
    (hlong : W ≤ qLen ∨ eff ≤ qLen)
    (h : wgkpRule W eff half deadline merged k qLen age room = .take n p w o) :
    p = decide (k ∈ merged) := by
  simp only [wgkpRule] at h
  split at h
  · cases h
  · rename_i hpos
    obtain ⟨-, rfl, -⟩ := Verdict.take.inj h
    unfold wgkpChoice at hpos ⊢
    split at hpos
    · rename_i hW
      rw [if_pos hW]
      simpa using fun _ => Nat.pos_of_ne_zero hpos
    · rename_i hW
      have heff := hlong.resolve_left hW
      rw [if_pos heff] at hpos
      rw [if_neg hW, if_pos heff]
      simpa using fun _ => Nat.pos_of_ne_zero hpos

/-- With room for the whole buffer the promoted blocks are the resident ones that meet the
threshold. -/
theorem promoted_iff {b : AlignmentBuffer K} {ranked : List String} {tmaxK : Dict String K}
    {nStar : ℤ} {merged : List String} {m : Option ℤ} {t : K}
    (hcovers : (DispatchCall.wgkp ranked tmaxK nStar merged).Covers b)
    (hroom : (b.totalQueued : ℤ) ≤ b.budget m) {blk : Block}
    (hblk : blk ∈ (DispatchCall.wgkp ranked tmaxK nStar merged).plan b m t) :
    blk.promoted = true ↔ blk.adapter ∈ merged ∧ b.effNStar ranked nStar ≤ blk.n := by
  have hshape := DispatchCall.shape_plan hcovers.1 b m t
  have hflush := flushed_of_covers (t := t) hcovers hroom blk.adapter
  rw [taken_of_mem (DispatchCall.nodup_plan b m t hcovers.1) hblk] at hflush
  have hpos := hshape.length_pos blk hblk
  have hmem := hblk
  rw [DispatchCall.plan_eq_dispatchPlan hcovers.1] at hmem
  obtain ⟨-, -, room, -, hv⟩ := mem_dispatchPlan hmem
  constructor
  · intro hpromoted
    rw [hpromoted] at hv
    obtain ⟨hmerged, heff⟩ := wgkpRule_promoted hv
    refine ⟨hmerged, ?_⟩
    rcases Nat.lt_or_ge (b.queue blk.adapter).length b.W with hshort | hlong
    · rcases hflush.short hshort with hall | ⟨hzero, -⟩
      · exact (heff hshort).trans hall.ge
      · omega
    · have hwarp := Nat.le_of_dvd hpos (hshape.warps blk hblk hlong)
      exact (effNStar_le_warp b ranked nStar).trans hwarp
  · rintro ⟨hmerged, heff⟩
    rw [wgkpRule_flag (.inr (heff.trans (hshape.length_le blk hblk))) hv]
    exact decide_eq_true hmerged

/-- The tokens of the resident adapters. -/
def residentPart (merged : List String) (l : List (String × ℕ × Bool)) :
    List (String × ℕ × Bool) :=
  l.filter fun e => decide (e.1 ∈ merged)

omit [Field K] [LinearOrder K] in
theorem residentPart_tokens (b : AlignmentBuffer K) (merged : List String) (blocks : List Block) :
    residentPart merged (blocks.flatMap (tokens b))
      = (blocks.filter fun blk => decide (blk.adapter ∈ merged)).flatMap (tokens b) := by
  induction blocks with
  | nil => rfl
  | cons blk blocks ih =>
      have hsame : ∀ e ∈ tokens b blk, decide (e.1 ∈ merged) = decide (blk.adapter ∈ merged) := by
        intro e he
        rw [adapter_of_mem_tokens he]
      rw [List.flatMap_cons, residentPart, List.filter_append, List.filter_congr hsame]
      rw [residentPart] at ih
      rw [ih, List.filter_cons]
      by_cases hin : blk.adapter ∈ merged
      · simp [hin]
      · simp [hin]

/-- The promoted tokens of such a dispatch are those of the resident adapters in runs that
meet the threshold. -/
theorem promotedTokens_eq {b : AlignmentBuffer K} {ranked : List String} {tmaxK : Dict String K}
    {nStar : ℤ} {merged : List String} {m : Option ℤ} {t : K}
    (hcovers : (DispatchCall.wgkp ranked tmaxK nStar merged).Covers b)
    (hroom : (b.totalQueued : ℤ) ≤ b.budget m) :
    promotedTokens (b.formBatchWgkp ranked tmaxK nStar merged m t).2
      = inLongRuns Prod.fst (b.effNStar ranked nStar)
        (residentPart merged (b.formBatchWgkp ranked tmaxK nStar merged m t).2) := by
  have hshape := DispatchCall.shape_plan hcovers.1 b m t
  have hnd : (((DispatchCall.wgkp ranked tmaxK nStar merged).plan b m t).filter
      fun blk => decide (blk.adapter ∈ merged)).map Block.adapter |>.Nodup :=
    hshape.distinct.sublist (List.filter_sublist.map _)
  rw [formBatchWgkp_eq_plan b hcovers.1, residentPart_tokens, inLongRuns,
    maximalRuns_tokens hnd (fun blk h => hshape.length_pos blk (List.mem_filter.mp h).1)
      (fun blk h => hshape.length_le blk (List.mem_filter.mp h).1),
    promotedTokens, List.countP_flatMap, List.map_map]
  have hall : ∀ blk ∈ (DispatchCall.wgkp ranked tmaxK nStar merged).plan b m t,
      promotedTokens (tokens b blk) = if blk.adapter ∈ merged then
        longPart (b.effNStar ranked nStar) (tokens b blk).length else 0 := by
    intro blk hblk
    have hlen := length_tokens (hshape.length_le blk hblk)
    have hflag : ∀ e ∈ tokens b blk, e.2.2 = blk.promoted := by
      intro e he
      obtain ⟨_, -, rfl⟩ := List.mem_map.mp he
      rfl
    have hiff := promoted_iff hcovers hroom hblk
    rw [promotedTokens_of_uniform hflag, hlen, longPart]
    by_cases hp : blk.promoted = true
    · obtain ⟨hmerged, hlong⟩ := hiff.mp hp
      rw [if_pos hp, if_pos hmerged, if_pos (Int.ofNat_le.mpr hlong)]
    · rw [if_neg hp]
      by_cases hmerged : blk.adapter ∈ merged
      · rw [if_pos hmerged, if_neg fun hle => hp (hiff.mpr ⟨hmerged, Int.ofNat_le.mp hle⟩)]
      · rw [if_neg hmerged]
  show ((DispatchCall.wgkp ranked tmaxK nStar merged).plan b m t |>.map
    fun blk => promotedTokens (tokens b blk)).sum = _
  rw [List.map_congr_left hall, List.sum_map_ite]
  simp [Function.comp_def]

/-- No run of such a batch is mixed. -/
theorem not_mixed_of_formBatchWgkp (b : AlignmentBuffer K) {ranked : List String}
    (hnd : ranked.Nodup) (tmaxK : Dict String K) (nStar : ℤ) (merged : List String)
    (m : Option ℤ) (t : K) : ∀ run ∈ maximalRuns Prod.fst
      (b.formBatchWgkp ranked tmaxK nStar merged m t).2, ¬ Mixed run := by
  have hc : (DispatchCall.wgkp ranked tmaxK nStar merged).RankedNodup := hnd
  have hshape := DispatchCall.shape_plan hc b m t
  intro run hrun
  rw [formBatchWgkp_eq_plan b hnd,
    maximalRuns_tokens hshape.distinct hshape.length_pos hshape.length_le] at hrun
  obtain ⟨blk, -, rfl⟩ := List.mem_map.mp hrun
  rintro ⟨e, he, e', he', hne⟩
  obtain ⟨_, -, rfl⟩ := List.mem_map.mp he
  obtain ⟨_, -, rfl⟩ := List.mem_map.mp he'
  exact hne rfl

/-! ## The dispatches of a run -/

/-- What a wgkp tick hands to the dispatcher: the threshold and the residents it was
formed with, and the batch. -/
structure Handed where
  effNStar : ℕ
  merged : List String
  batch : List (String × ℕ × Bool)

namespace AlignmentAwareScheduler

/-- `raw_batch`. -/
def rawBatch (s₁ : AlignmentAwareScheduler K) (i : TickInput K) : DispatchCall K → Option Handed
  | .wgkp ranked tmaxK nStar merged => some
      { effNStar := s₁.buffer.effNStar ranked nStar
        merged
        batch := (s₁.buffer.formBatchWgkp ranked tmaxK nStar merged
          (some i.sel.decodeGroups.length) i.clock.formBatch).2 }
  | _ => none

def handed (cfg : Config K) (env : Env K)
    (e : Event (AlignmentAwareScheduler K) (TickInput K) (List SequenceGroup)) : Option Handed :=
  if e.label.sel.decodeGroups = [] then none
  else (e.pre.countCall.prepareTick cfg env e.label).toOption.bind
    fun r => r.1.rawBatch e.label r.2

/-- What the decode ticks of a run hand over. -/
def rawBatches (cfg : Config K) (env : Env K) (tr : TickHistory K) : List Handed :=
  tr.filterMap (handed cfg env)

section Runs

variable {adapterOf : ℕ → String} {cfg : Config K} {env : Env K} {s : AlignmentAwareScheduler K}
  {tr : TickHistory K} [IsStrictOrderedRing K]

omit [IsStrictOrderedRing K] in
/-- In an attended run no batch is refused, and the promoted tokens of each are those of
its residents in long runs. -/
theorem handed_of_run (h : AttendedRun adapterOf cfg env tr s) {r : Handed}
    (hr : r ∈ rawBatches cfg env tr) :
    (∀ run ∈ maximalRuns Prod.fst r.batch, ¬ Mixed run) ∧ 1 ≤ r.effNStar
      ∧ promotedTokens r.batch
        = inLongRuns Prod.fst r.effNStar (residentPart r.merged r.batch) := by
  obtain ⟨a, ha, hraw⟩ := List.mem_filterMap.mp hr
  obtain ⟨tr₁, tr₂, rfl⟩ := List.append_of_mem ha
  by_cases hsome : a.label.sel.decodeGroups = []
  · rw [handed, if_pos hsome] at hraw
    cases hraw
  rw [handed, if_neg hsome] at hraw
  cases hprep : a.pre.countCall.prepareTick cfg env a.label with
  | error err =>
      rw [hprep] at hraw
      cases hraw
  | ok p =>
    obtain ⟨s₁, call⟩ := p
    rw [hprep] at hraw
    cases call with
    | threshold => cases hraw
    | erlang => cases hraw
    | cash => cases hraw
    | wgkp ranked tmaxK nStar merged =>
      obtain rfl := Option.some.inj hraw
      have hroom := h.upto.roomy hsome hprep
      refine ⟨not_mixed_of_formBatchWgkp _ hroom.covers.1 _ _ _ _ _, ?_, ?_⟩
      · show 1 ≤ s₁.buffer.effNStar ranked nStar
        unfold effNStar
        omega
      · exact promotedTokens_eq hroom.covers (Int.ofNat_le.mpr hroom.budget)

/-- The tokens in long runs, as a GWAR. -/
theorem length_mul_computeGwar {t : ℤ} (ht : 1 ≤ t) (l : List (String × ℕ × Bool)) :
    (l.length : K) * computeGwar (l.map Prod.fst) t = inLongRuns Prod.fst t l := by
  have hruns : inLongRuns (fun a => a) t (l.map Prod.fst) = inLongRuns Prod.fst t l := by
    rw [inLongRuns, inLongRuns, maximalRuns_map, List.map_map]
    simp [Function.comp_def]
  rw [computeGwar_eq ht, longFraction, hruns, List.length_map]
  rcases eq_or_ne l [] with rfl | hne
  · simp [inLongRuns]
  · have hpos : (l.length : K) ≠ 0 := by
      exact_mod_cast (List.length_pos_of_ne_nil hne).ne'
    rw [mul_div_cancel₀ _ hpos]

/-- **What the promotion fraction reports.** In an attended run `segment_and_promote`
refuses no batch, and the fraction is that of the tokens of adapters resident at their
dispatch which stand in runs of the threshold: the GWAR of the residents' part of each
batch at its threshold, weighted by the length of that part. -/
theorem promotion_fraction_is_resident_gwar (h : AttendedRun adapterOf cfg env tr s) :
    (∀ r ∈ rawBatches cfg env tr, ∀ d : WGKPDispatcher,
        ∃ segments, (d.segmentAndPromote r.batch).2 = .ok segments)
      ∧ (promotionFraction (afterBatches ((rawBatches cfg env tr).map Handed.batch)) : K)
        = ((rawBatches cfg env tr).map fun r =>
            ((residentPart r.merged r.batch).length : K)
              * computeGwar ((residentPart r.merged r.batch).map Prod.fst) r.effNStar).sum
          / ((rawBatches cfg env tr).map fun r => (r.batch.length : K)).sum := by
  have hnone : ∀ l ∈ (rawBatches cfg env tr).map Handed.batch,
      ∀ run ∈ maximalRuns Prod.fst l, ¬ Mixed run := by
    intro l hl
    obtain ⟨r, hr, rfl⟩ := List.mem_map.mp hl
    exact (handed_of_run h hr).1
  refine ⟨fun r hr d => ?_, ?_⟩
  · rcases d.segmentAndPromote_spec r.batch with ⟨⟨run, hrun, hmixed⟩, -⟩ | ⟨-, hok⟩
    · exact absurd hmixed ((handed_of_run h hr).1 run hrun)
    · exact ⟨_, hok⟩
  · obtain ⟨htokens, hpromoted⟩ := afterBatches_counts hnone
    have hsum : ((rawBatches cfg env tr).map fun r =>
        ((residentPart r.merged r.batch).length : K)
          * computeGwar ((residentPart r.merged r.batch).map Prod.fst) r.effNStar)
        = (rawBatches cfg env tr).map fun r => (promotedTokens r.batch : K) := by
      refine List.map_congr_left fun r hr => ?_
      obtain ⟨-, hone, hpart⟩ := handed_of_run h hr
      rw [length_mul_computeGwar (by exact_mod_cast hone), hpart]
    have hcast : ∀ f : Handed → ℕ, ((rawBatches cfg env tr).map fun r => (f r : K)).sum
        = (((rawBatches cfg env tr).map f).sum : ℕ) := by
      intro f
      rw [Nat.cast_list_sum, List.map_map]
      rfl
    rw [hsum, hcast, hcast, promotionFraction, htokens, hpromoted, List.map_map, List.map_map]
    show (if ((rawBatches cfg env tr).map fun r => r.batch.length).sum = 0 then (0 : K)
      else ((rawBatches cfg env tr).map fun r => promotedTokens r.batch).sum
        / ((rawBatches cfg env tr).map fun r => r.batch.length).sum) = _
    split
    · rename_i hzero
      rw [hzero, Nat.cast_zero, div_zero]
    · rfl

/-- The event hands over one promoted token. -/
def handsOne (e : Event (AlignmentAwareScheduler ℚ) (TickInput ℚ) (List SequenceGroup)) : Bool :=
  decide ((handed Engine.eagerConfig sampleEnv e).map Handed.batch = some [("a", 1, true)])

/-- The one token of the tick is promoted. -/
theorem eagerTick_ledger :
    ∃ tr s, AttendedRun (fun _ => "a") Engine.eagerConfig sampleEnv tr s
      ∧ (rawBatches Engine.eagerConfig sampleEnv tr).map Handed.batch = [[("a", 1, true)]]
      ∧ (promotionFraction (afterBatches ((rawBatches Engine.eagerConfig sampleEnv tr).map
          Handed.batch)) : ℚ)
        = ((rawBatches Engine.eagerConfig sampleEnv tr).map fun r =>
            ((residentPart r.merged r.batch).length : ℚ)
              * computeGwar ((residentPart r.merged r.batch).map Prod.fst) r.effNStar).sum
          / ((rawBatches Engine.eagerConfig sampleEnv tr).map fun r =>
            (r.batch.length : ℚ)).sum := by
  obtain ⟨tr, s, hexec, hlabels, hseen⟩ := exists_run Engine.eagerConfig sampleEnv
    [Engine.eagerTick] (fun e => (decide (Attended e.pre e.label), handsOne e))
    (l := [(true, true)]) (by decide +kernel)
  have hlen : tr.length = 1 := by simpa using congrArg List.length hlabels
  obtain ⟨e, rfl⟩ := List.length_eq_one_iff.mp hlen
  have hlabel : e.label = Engine.eagerTick := List.singleton_inj.mp hlabels
  obtain ⟨hatt, hone⟩ := Prod.mk.inj (List.singleton_inj.mp hseen)
  have hrun : AttendedRun (fun _ => "a") Engine.eagerConfig sampleEnv [e] s := by
    refine ⟨hexec, fun e' he => ?_, fun e' he => ?_, ?_⟩
    · rw [List.mem_singleton.mp he, hlabel]
      unfold TickInput.FixedAdapter
      decide
    · rw [List.mem_singleton.mp he]
      exact of_decide_eq_true hatt
    · rw [clockReadings, List.flatMap_cons, hlabel]
      decide +kernel
  refine ⟨[e], s, hrun, ?_, (promotion_fraction_is_resident_gwar hrun).2⟩
  rw [rawBatches, List.map_filterMap, List.filterMap_cons, of_decide_eq_true hone]
  rfl

end Runs

end AlignmentAwareScheduler

end AdapterSlots
