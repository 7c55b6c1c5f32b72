import AdapterSlots.BufferShape

/-!
# Promoted segments

`form_batch_wgkp` flags the tokens it dispatches, and `wgkp_dispatcher.py`
cuts the flagged batch into one `SegmentDescriptor` for each adapter run.

`promoted_run_meets_threshold` says which runs carry the flag. The threshold
is `n_star` capped at one adapter's share of a warp, and it is compared with
the queue, so a run may stay below it when the remaining budget cuts it.
`segmentAndPromote` raises on a run with mixed flags;
`segmentAndPromote_spec` describes it by the maximal runs of the batch.
-/

namespace AdapterSlots

open Lib AlignmentBuffer

/-! ## The flag -/

section Flag

variable {K : Type} [Field K] [LinearOrder K]

theorem roundDiv_le {w k : ℕ} (hw : 0 < w) (hk : 0 < k) : roundDiv w k ≤ w := by
  have hdiv : w / k ≤ w := Nat.div_le_self w k
  have hup : w % k ≠ 0 → 1 < k → w / k + 1 ≤ w := by
    intro hmod hk'
    have hsplit := Nat.div_add_mod w k
    have hmul : 2 * (w / k) ≤ k * (w / k) := Nat.mul_le_mul_right _ hk'
    omega
  unfold roundDiv
  split
  · exact hdiv
  · rename_i hbelow
    have hk' : 1 < k := by
      by_contra hle
      have hone : k = 1 := by omega
      subst hone
      omega
    have hmod : w % k ≠ 0 := by omega
    split
    · exact hup hmod hk'
    · split
      · exact hdiv
      · exact hup hmod hk'

omit [Field K] [LinearOrder K] in
/-- The capped threshold is never more than a warp. -/
theorem effNStar_le_warp (b : AlignmentBuffer K) (ranked : List String) (nStar : ℤ) :
    b.effNStar ranked nStar ≤ b.W := by
  have hW := b.W_pos
  have hround : roundDiv b.W (max ranked.length 1) ≤ b.W := roundDiv_le hW (by omega)
  unfold effNStar
  omega

/-- Only rules 1 and 2 promote, and only resident adapters. -/
theorem wgkpChoice_promoted {W eff half : ℕ} {deadline : String → K} {merged : List String}
    {k : String} {qLen room : ℕ} {age : K}
    (h : (wgkpChoice W eff half deadline merged k qLen age room).2.1 = true) :
    k ∈ merged ∧ (qLen < W → eff ≤ qLen) := by
  unfold wgkpChoice at h
  split at h
  · rename_i hlong
    exact ⟨of_decide_eq_true (Bool.and_eq_true_iff.mp h).1,
      fun hlt => absurd hlong (Nat.not_le.mpr hlt)⟩
  · split at h
    · rename_i heff
      exact ⟨of_decide_eq_true (Bool.and_eq_true_iff.mp h).1, fun _ => heff⟩
    · split at h
      · cases h
      · split at h <;> cases h

theorem wgkpRule_promoted {W eff half : ℕ} {deadline : String → K} {merged : List String}
    {k : String} {qLen room : ℕ} {age : K} {n w o : ℕ}
    (h : wgkpRule W eff half deadline merged k qLen age room = .take n true w o) :
    k ∈ merged ∧ (qLen < W → eff ≤ qLen) := by
  simp only [wgkpRule] at h
  split at h
  · cases h
  · exact wgkpChoice_promoted (Verdict.take.inj h).2.1

/-- The runs of promoted tokens in a dispatched batch. -/
theorem promoted_run_meets_threshold (b : AlignmentBuffer K) {ranked : List String}
    (hnd : ranked.Nodup) (tmaxK : Dict String K) (nStar : ℤ) (merged : List String)
    (m : Option ℤ) (t : K) :
    ∀ run ∈ maximalRuns Prod.fst (b.formBatchWgkp ranked tmaxK nStar merged m t).2,
      ∀ k s, (k, s, true) ∈ run →
        k ∈ merged ∧ (∀ e ∈ run, e.1 = k ∧ e.2.2 = true)
          ∧ max 1 (min nStar (roundDiv b.W (max ranked.length 1) : ℕ)) ≤ (b.queue k).length
          ∧ (b.W ≤ (b.queue k).length ∨ run.length = (b.queue k).length →
              max 1 (min nStar (roundDiv b.W (max ranked.length 1) : ℕ)) ≤ run.length) := by
  intro run hrun k s hs
  have hc : (DispatchCall.wgkp ranked tmaxK nStar merged).RankedNodup := hnd
  have hshape := DispatchCall.shape_plan hc b m t
  rw [formBatchWgkp_eq_plan b hnd,
    maximalRuns_tokens hshape.distinct hshape.length_pos hshape.length_le] at hrun
  obtain ⟨blk, hblk, rfl⟩ := List.mem_map.mp hrun
  obtain ⟨e, -, heq⟩ := List.mem_map.mp hs
  simp only [Prod.mk.injEq] at heq
  obtain ⟨rfl, -, hflag⟩ := heq
  have hlen := length_tokens (hshape.length_le blk hblk)
  have hblk' := hblk
  rw [DispatchCall.plan_eq_dispatchPlan hc] at hblk'
  obtain ⟨-, hpos, room, hroom, hv⟩ := mem_dispatchPlan hblk'
  rw [hflag] at hv
  obtain ⟨hmerged, heff⟩ := wgkpRule_promoted hv
  have hcap := effNStar_le_warp b ranked nStar
  have hthreshold : (b.effNStar ranked nStar : ℤ)
      = max 1 (min nStar (roundDiv b.W (max ranked.length 1) : ℕ)) := by
    unfold effNStar
    omega
  rw [← hthreshold]
  refine ⟨hmerged, fun e he => ⟨adapter_of_mem_tokens he, ?_⟩, ?_, fun hwhole => ?_⟩
  · obtain ⟨e, -, rfl⟩ := List.mem_map.mp he
    exact hflag
  · omega
  · rw [hlen] at hwhole ⊢
    rcases Nat.lt_or_ge (b.queue blk.adapter).length b.W with hshort | hlong
    · have := heff hshort
      omega
    · have hwarp := Nat.le_of_dvd (hshape.length_pos blk hblk) (hshape.warps blk hblk hlong)
      omega

/-- With two ranked adapters and a warp of two, the threshold is one token. -/
theorem threeAndOne_promoted :
    [("b", 4, true)] ∈ maximalRuns Prod.fst
        (threeAndOne.formBatchWgkp ["b", "a"] .empty 8 ["b"] (some 3) 1).2
      ∧ ∀ run ∈ maximalRuns Prod.fst
          (threeAndOne.formBatchWgkp ["b", "a"] .empty 8 ["b"] (some 3) 1).2,
        ∀ k s, (k, s, true) ∈ run →
          k ∈ ["b"] ∧ (∀ e ∈ run, e.1 = k ∧ e.2.2 = true)
            ∧ max 1 (min 8 (roundDiv threeAndOne.W (max ["b", "a"].length 1) : ℕ))
                ≤ ((threeAndOne.queue k).length : ℤ)
            ∧ (threeAndOne.W ≤ (threeAndOne.queue k).length
                  ∨ run.length = (threeAndOne.queue k).length →
                max 1 (min 8 (roundDiv threeAndOne.W (max ["b", "a"].length 1) : ℕ))
                  ≤ (run.length : ℤ)) :=
  ⟨by decide +kernel,
    promoted_run_meets_threshold threeAndOne (by decide) .empty 8 ["b"] (some 3) 1⟩

/-- A run of one token is promoted although `n_star` is eight. -/
theorem threeAndOne_below_nStar :
    ¬ ∀ run ∈ maximalRuns Prod.fst
        (threeAndOne.formBatchWgkp ["b", "a"] .empty 8 ["b"] (some 3) 1).2,
      ∀ k s, (k, s, true) ∈ run → k ∈ ["b"] ∧ (8 : ℤ) ≤ run.length := by
  intro h
  have hrun := (h [("b", 4, true)] (by decide +kernel) "b" 4 (by decide)).2
  exact absurd hrun (by decide)

end Flag

/-! ## Segmentation -/

/-- A contiguous same-adapter segment of a dispatched batch. -/
structure SegmentDescriptor where
  adapterId : String
  seqIds : List ℕ
  isPromoted : Bool
  segmentSize : ℕ
deriving DecidableEq

/-- The constructor with `__post_init__`: a size of zero means the number of ids. -/
def SegmentDescriptor.new (adapterId : String) (seqIds : List ℕ) (isPromoted : Bool)
    (segmentSize : ℕ) : SegmentDescriptor :=
  ⟨adapterId, seqIds, isPromoted, if segmentSize = 0 then seqIds.length else segmentSize⟩

/-- The tokens a segment stands for. -/
def SegmentDescriptor.tokens (g : SegmentDescriptor) : List (String × ℕ × Bool) :=
  g.seqIds.map fun s => (g.adapterId, s, g.isPromoted)

structure WGKPDispatcher where
  totalBatches : ℕ
  totalPromotedTokens : ℕ
  totalTokens : ℕ

namespace WGKPDispatcher

/-- Python's `str` of a flag. -/
def pyBool (p : Bool) : String := if p then "True" else "False"

/-- The text of the `ValueError`. -/
def atomicityViolation (adapter : String) (j : ℕ) (expected got : Bool) : String :=
  "WGKP atomicity violation: adapter '" ++ adapter
    ++ "' segment has mixed is_promoted values at index " ++ toString j
    ++ ". Expected all " ++ pyBool expected ++ ", got " ++ pyBool got ++ "."

/-- The inner loop from index `j` on: the ids of the run of `adapter`, and the
part of the batch behind it. -/
def takeRun (adapter : String) (promo : Bool) :
    ℕ → List (String × ℕ × Bool) → Except String (List ℕ × List (String × ℕ × Bool))
  | _, [] => .ok ([], [])
  | j, (nextAdapter, nextSeq, nextPromo) :: rest =>
      if nextAdapter ≠ adapter then .ok ([], (nextAdapter, nextSeq, nextPromo) :: rest)
      else if nextPromo ≠ promo then .error (atomicityViolation adapter j promo nextPromo)
      else (takeRun adapter promo (j + 1) rest).map fun r => (nextSeq :: r.1, r.2)

theorem length_takeRun {adapter : String} {promo : Bool} {ids : List ℕ}
    {rest' : List (String × ℕ × Bool)} : ∀ {j : ℕ} {rest : List (String × ℕ × Bool)},
    takeRun adapter promo j rest = .ok (ids, rest') → rest'.length ≤ rest.length
  | _, [], h => by
      obtain ⟨-, rfl⟩ := Prod.mk.inj (Except.ok.inj h)
      exact Nat.le_refl _
  | j, e :: rest, h => by
      rw [takeRun] at h
      split at h
      · obtain ⟨-, rfl⟩ := Prod.mk.inj (Except.ok.inj h)
        exact Nat.le_refl _
      · split at h
        · cases h
        · cases hrest : takeRun adapter promo (j + 1) rest with
          | error err => rw [hrest] at h; cases h
          | ok r =>
              rw [hrest] at h
              obtain ⟨-, rfl⟩ := Prod.mk.inj (Except.ok.inj h)
              have := length_takeRun hrest
              exact this.trans (Nat.le_succ _)

/-- The outer loop from index `i` on. -/
def segmentLoop (d : WGKPDispatcher) (segments : List SegmentDescriptor) (i : ℕ) :
    List (String × ℕ × Bool) → WGKPDispatcher × Except String (List SegmentDescriptor)
  | [] => (d, .ok segments)
  | (currentAdapter, currentSeq, currentPromo) :: rest =>
      match _ : takeRun currentAdapter currentPromo (i + 1) rest with
      | .error e => (d, .error e)
      | .ok (ids, rest') =>
          let segSeqIds := currentSeq :: ids
          let seg := SegmentDescriptor.new currentAdapter segSeqIds currentPromo segSeqIds.length
          let d' := if currentPromo then
            { d with totalPromotedTokens := d.totalPromotedTokens + segSeqIds.length } else d
          segmentLoop d' (segments ++ [seg]) (i + segSeqIds.length) rest'
termination_by rest => rest.length
decreasing_by
  rename_i h
  have := length_takeRun h
  simp only [List.length_cons]
  omega

def segmentAndPromote (d : WGKPDispatcher) (rawBatch : List (String × ℕ × Bool)) :
    WGKPDispatcher × Except String (List SegmentDescriptor) :=
  if rawBatch = [] then (d, .ok [])
  else
    segmentLoop { d with
      totalBatches := d.totalBatches + 1
      totalTokens := d.totalTokens + rawBatch.length } [] 0 rawBatch

/-! ### Runs -/

/-- A run whose tokens would need two different kernels. -/
def Mixed (run : List (String × ℕ × Bool)) : Prop := ∃ e ∈ run, ∃ e' ∈ run, e.2.2 ≠ e'.2.2

/-- The descriptor of a run. -/
def describe : List (String × ℕ × Bool) → SegmentDescriptor
  | [] => .new "" [] false 0
  | (adapter, s, promo) :: rest =>
      .new adapter (s :: rest.map fun e => e.2.1) promo (rest.length + 1)

theorem takeRun_of_uniform {adapter : String} {promo : Bool} : ∀ {rest : List (String × ℕ × Bool)},
    (∀ e ∈ rest.takeWhile fun e => decide (e.1 = adapter), e.2.2 = promo) → ∀ j,
    takeRun adapter promo j rest
      = .ok ((rest.takeWhile fun e => decide (e.1 = adapter)).map fun e => e.2.1,
          rest.dropWhile fun e => decide (e.1 = adapter))
  | [], _, _ => rfl
  | (a, s, p) :: rest, h, j => by
      rw [takeRun]
      by_cases ha : a = adapter
      · rw [List.takeWhile_cons_of_pos (by simpa using ha)] at h ⊢
        rw [List.dropWhile_cons_of_pos (by simpa using ha)]
        have hp : p = promo := h _ (List.mem_cons_self ..)
        have hrest := takeRun_of_uniform (fun e he => h e (List.mem_cons_of_mem _ he)) (j + 1)
        rw [if_neg (not_not.mpr ha), if_neg (not_not.mpr hp), hrest]
        rfl
      · rw [List.takeWhile_cons_of_neg (by simpa using ha),
          List.dropWhile_cons_of_neg (by simpa using ha), if_pos ha]
        rfl

theorem takeRun_of_mixed {adapter : String} {promo : Bool} : ∀ {rest : List (String × ℕ × Bool)},
    (∃ e ∈ rest.takeWhile fun e => decide (e.1 = adapter), e.2.2 ≠ promo) → ∀ j,
    ∃ err, takeRun adapter promo j rest = .error err
  | [], h, _ => by
      obtain ⟨e, he, -⟩ := h
      cases he
  | (a, s, p) :: rest, ⟨e, he, hne⟩, j => by
      rw [takeRun]
      by_cases ha : a = adapter
      · rw [List.takeWhile_cons_of_pos (by simpa using ha)] at he
        rw [if_neg (not_not.mpr ha)]
        by_cases hp : p = promo
        · rcases List.mem_cons.mp he with rfl | he
          · exact absurd hp hne
          · obtain ⟨err, hrest⟩ := takeRun_of_mixed ⟨e, he, hne⟩ (j + 1)
            rw [if_neg (not_not.mpr hp), hrest]
            exact ⟨err, rfl⟩
        · rw [if_pos hp]
          exact ⟨_, rfl⟩
      · rw [List.takeWhile_cons_of_neg (by simpa using ha)] at he
        cases he

/-- A run is mixed when a token disagrees with its first one. -/
theorem mixed_cons {a : String} {s : ℕ} {p : Bool} {run : List (String × ℕ × Bool)} :
    Mixed ((a, s, p) :: run) ↔ ∃ e ∈ run, e.2.2 ≠ p := by
  constructor
  · rintro ⟨e, he, e', he', hne⟩
    by_contra hall
    have hsame : ∀ x ∈ (a, s, p) :: run, x.2.2 = p := by
      intro x hx
      rcases List.mem_cons.mp hx with rfl | hx
      · rfl
      · by_contra hp
        exact hall ⟨x, hx, hp⟩
    exact hne ((hsame e he).trans (hsame e' he').symm)
  · rintro ⟨e, he, hne⟩
    exact ⟨e, List.mem_cons_of_mem _ he, (a, s, p), List.mem_cons_self .., hne⟩

/-- One turn of the outer loop deals with the first maximal run. -/
theorem segmentLoop_spec : ∀ (l : List (String × ℕ × Bool)) (d : WGKPDispatcher)
    (segments : List SegmentDescriptor) (i : ℕ),
    ((∃ run ∈ maximalRuns Prod.fst l, Mixed run)
        ∧ ∃ err, (segmentLoop d segments i l).2 = .error err)
      ∨ ((∀ run ∈ maximalRuns Prod.fst l, ¬ Mixed run)
          ∧ (segmentLoop d segments i l).2
            = .ok (segments ++ (maximalRuns Prod.fst l).map describe))
  | [], d, segments, i => by
      right
      rw [segmentLoop, maximalRuns_nil, List.map_nil, List.append_nil]
      exact ⟨fun run hrun => (List.not_mem_nil hrun).elim, rfl⟩
  | (a, s, p) :: rest, d, segments, i => by
      have hshorter := List.length_dropWhile_le (fun e : String × ℕ × Bool => decide (e.1 = a)) rest
      rw [segmentLoop, maximalRuns_cons]
      by_cases hmixed : ∃ e ∈ rest.takeWhile fun e => decide (e.1 = a), e.2.2 ≠ p
      · obtain ⟨err, htake⟩ := takeRun_of_mixed hmixed (i + 1)
        refine .inl ⟨⟨_, List.mem_cons_self .., mixed_cons.mpr hmixed⟩, err, ?_⟩
        split
        · rename_i err' h
          rw [htake] at h
          rw [Except.error.inj h]
        · rename_i h
          rw [htake] at h
          cases h
      · have huniform : ∀ e ∈ rest.takeWhile fun e => decide (e.1 = a), e.2.2 = p :=
          fun e he => not_not.mp fun hne => hmixed ⟨e, he, hne⟩
        have htake := takeRun_of_uniform huniform (i + 1)
        split
        · rename_i h
          rw [htake] at h
          cases h
        · rename_i ids rest' h
          rw [htake] at h
          obtain ⟨rfl, rfl⟩ := Prod.mk.inj (Except.ok.inj h)
          rcases segmentLoop_spec (rest.dropWhile fun e => decide (e.1 = a)) _ _ _ with
            ⟨⟨run, hrun, hmix⟩, herr⟩ | ⟨hnone, hok⟩
          · exact .inl ⟨⟨run, List.mem_cons_of_mem _ hrun, hmix⟩, herr⟩
          · refine .inr ⟨?_, ?_⟩
            · intro run hrun
              rcases List.mem_cons.mp hrun with rfl | hrun
              · exact fun h => hmixed (mixed_cons.mp h)
              · exact hnone run hrun
            · rw [hok, List.append_assoc, List.map_cons, describe, List.length_cons,
                List.length_map]
              rfl
termination_by l => l.length

/-- `segment_and_promote` in terms of the maximal adapter runs. -/
theorem segmentAndPromote_spec (d : WGKPDispatcher) (rawBatch : List (String × ℕ × Bool)) :
    ((∃ run ∈ maximalRuns Prod.fst rawBatch, Mixed run)
        ∧ ∃ err, (d.segmentAndPromote rawBatch).2 = .error err)
      ∨ ((∀ run ∈ maximalRuns Prod.fst rawBatch, ¬ Mixed run)
          ∧ (d.segmentAndPromote rawBatch).2
            = .ok ((maximalRuns Prod.fst rawBatch).map describe)) := by
  unfold segmentAndPromote
  split
  · rename_i hnil
    subst hnil
    exact .inr ⟨fun run hrun => (List.not_mem_nil hrun).elim, rfl⟩
  · exact segmentLoop_spec rawBatch _ [] 0

/-! ### The descriptors -/

theorem segmentSize_describe (run : List (String × ℕ × Bool)) :
    (describe run).segmentSize = (describe run).seqIds.length := by
  cases run with
  | nil => rfl
  | cons e rest => simp [describe, SegmentDescriptor.new]

/-- The descriptor of a run of one adapter and one flag stands for its tokens. -/
theorem tokens_describe {run : List (String × ℕ × Bool)} (hkey : ∀ e ∈ run, ∀ e' ∈ run, e.1 = e'.1)
    (hflag : ¬ Mixed run) : (describe run).tokens = run := by
  cases run with
  | nil => rfl
  | cons e rest =>
      obtain ⟨a, s, p⟩ := e
      have hsame : ∀ e ∈ rest, (a, e.2.1, p) = e := by
        intro e he
        have hadapter : a = e.1 :=
          hkey (a, s, p) (List.mem_cons_self ..) e (List.mem_cons_of_mem _ he)
        have hpromo : e.2.2 = p := not_not.mp fun hne => hflag (mixed_cons.mpr ⟨e, he, hne⟩)
        rw [hadapter, ← hpromo]
      calc (describe ((a, s, p) :: rest)).tokens
        _ = (a, s, p) :: rest.map fun e => (a, e.2.1, p) := by
            rw [describe, SegmentDescriptor.new, SegmentDescriptor.tokens, List.map_cons,
              List.map_map]
            rfl
        _ = (a, s, p) :: rest := by rw [List.map_congr_left hsame, List.map_id']

theorem adapterId_describe {run : List (String × ℕ × Bool)} {e : String × ℕ × Bool}
    (hkey : ∀ e ∈ run, ∀ e' ∈ run, e.1 = e'.1) (he : e ∈ run) :
    (describe run).adapterId = e.1 := by
  cases run with
  | nil => cases he
  | cons e₀ rest => exact hkey e₀ (List.mem_cons_self ..) e he

/-- No error: the segments stand for the batch, run by run. -/
theorem flatMap_tokens_describe {rawBatch : List (String × ℕ × Bool)}
    (h : ∀ run ∈ maximalRuns Prod.fst rawBatch, ¬ Mixed run) :
    ((maximalRuns Prod.fst rawBatch).map describe).flatMap SegmentDescriptor.tokens = rawBatch := by
  have hsame : ∀ run ∈ maximalRuns Prod.fst rawBatch, (describe run).tokens = run := fun run hrun =>
    tokens_describe (fun _ he _ he' => key_eq_of_mem_run hrun he he') (h run hrun)
  rw [List.flatMap_map, List.flatMap_def, List.map_congr_left hsame, List.map_id',
    flatten_maximalRuns]

theorem chain_describe (rawBatch : List (String × ℕ × Bool)) :
    ((maximalRuns Prod.fst rawBatch).map describe).IsChain
      fun g g' => g.adapterId ≠ g'.adapterId := by
  rw [List.isChain_map]
  refine (chain_maximalRuns rawBatch).imp_of_mem_imp fun run run' hrun hrun' hdiff => ?_
  obtain ⟨e, he⟩ := List.exists_mem_of_ne_nil run (ne_nil_of_mem_maximalRuns hrun)
  obtain ⟨e', he'⟩ := List.exists_mem_of_ne_nil run' (ne_nil_of_mem_maximalRuns hrun')
  rw [adapterId_describe (fun _ he _ he' => key_eq_of_mem_run hrun he he') he,
    adapterId_describe (fun _ he _ he' => key_eq_of_mem_run hrun' he he') he']
  exact hdiff e he e' he'

/-! ### The buffer's own batches -/

section Composition

variable {K : Type} [Field K] [LinearOrder K]

omit [Field K] [LinearOrder K] in
/-- A batch of blocks of distinct adapters has one segment for each block. -/
theorem segmentAndPromote_blocks (d : WGKPDispatcher) {b : AlignmentBuffer K} {P : List Block}
    (hnd : (P.map Block.adapter).Nodup) (hpos : ∀ blk ∈ P, 0 < blk.n)
    (hle : ∀ blk ∈ P, blk.n ≤ (b.queue blk.adapter).length) :
    ∃ segs, (d.segmentAndPromote (P.flatMap (tokens b))).2 = .ok segs
      ∧ segs.map SegmentDescriptor.adapterId = P.map Block.adapter := by
  have hruns := maximalRuns_tokens hnd hpos hle
  rcases d.segmentAndPromote_spec (P.flatMap (tokens b)) with ⟨⟨run, hrun, hmixed⟩, -⟩ | ⟨-, hok⟩
  · -- the tokens of a block carry one flag
    rw [hruns] at hrun
    obtain ⟨blk, -, rfl⟩ := List.mem_map.mp hrun
    obtain ⟨e, he, e', he', hne⟩ := hmixed
    obtain ⟨_, -, rfl⟩ := List.mem_map.mp he
    obtain ⟨_, -, rfl⟩ := List.mem_map.mp he'
    exact absurd rfl hne
  · refine ⟨_, hok, ?_⟩
    rw [hruns, List.map_map, List.map_map]
    refine List.map_congr_left fun blk hblk => ?_
    obtain ⟨e, he⟩ := List.exists_mem_of_ne_nil _ (tokens_ne_nil (hpos blk hblk) (hle blk hblk))
    have hkey : ∀ e ∈ tokens b blk, ∀ e' ∈ tokens b blk, e.1 = e'.1 := fun e he e' he' =>
      (adapter_of_mem_tokens he).trans (adapter_of_mem_tokens he').symm
    exact (adapterId_describe hkey he).trans (adapter_of_mem_tokens he)

/-- The segmentation of any batch, and of a batch of `form_batch_wgkp`. -/
theorem segmentation_faithful :
    (∀ (d : WGKPDispatcher) (rawBatch : List (String × ℕ × Bool)),
      ((∃ err, (d.segmentAndPromote rawBatch).2 = .error err)
          ↔ ∃ run ∈ maximalRuns Prod.fst rawBatch, Mixed run)
        ∧ ∀ segs, (d.segmentAndPromote rawBatch).2 = .ok segs →
            segs.flatMap SegmentDescriptor.tokens = rawBatch
              ∧ (segs.IsChain fun g g' => g.adapterId ≠ g'.adapterId)
              ∧ ∀ g ∈ segs, g.segmentSize = g.seqIds.length)
      ∧ ∀ (d : WGKPDispatcher) (b : AlignmentBuffer K) (ranked : List String)
          (tmaxK : Dict String K) (nStar : ℤ) (merged : List String) (m : Option ℤ) (t : K),
        ranked.Nodup →
        ∃ segs, (d.segmentAndPromote (b.formBatchWgkp ranked tmaxK nStar merged m t).2).2 = .ok segs
          ∧ (segs.map SegmentDescriptor.adapterId).Nodup
          ∧ ∀ k, k ∈ segs.map SegmentDescriptor.adapterId
              ↔ ∃ e ∈ (b.formBatchWgkp ranked tmaxK nStar merged m t).2, e.1 = k := by
  refine ⟨fun d rawBatch => ?_, fun d b ranked tmaxK nStar merged m t hnd => ?_⟩
  · rcases d.segmentAndPromote_spec rawBatch with ⟨hmixed, err, herr⟩ | ⟨hnone, hok⟩
    · refine ⟨iff_of_true ⟨err, herr⟩ hmixed, fun segs hsegs => ?_⟩
      rw [herr] at hsegs
      cases hsegs
    · refine ⟨iff_of_false ?_ ?_, fun segs hsegs => ?_⟩
      · rintro ⟨err, herr⟩
        rw [hok] at herr
        cases herr
      · rintro ⟨run, hrun, hmixed⟩
        exact hnone run hrun hmixed
      · rw [hok] at hsegs
        obtain rfl := Except.ok.inj hsegs
        refine ⟨flatMap_tokens_describe hnone, chain_describe rawBatch, fun g hg => ?_⟩
        obtain ⟨run, -, rfl⟩ := List.mem_map.mp hg
        exact segmentSize_describe run
  · have hc : (DispatchCall.wgkp ranked tmaxK nStar merged).RankedNodup := hnd
    have hshape := DispatchCall.shape_plan hc b m t
    obtain ⟨segs, hsegs, hadapters⟩ :=
      d.segmentAndPromote_blocks hshape.distinct hshape.length_pos hshape.length_le
    rw [formBatchWgkp_eq_plan b hnd]
    refine ⟨segs, hsegs, hadapters ▸ hshape.distinct, fun k => ?_⟩
    rw [hadapters]
    exact mem_adapters_iff hshape.length_pos hshape.length_le

end Composition

/-- The batch of `threeAndOne` in two segments. -/
theorem threeAndOne_segments :
    ∃ segs, ((⟨0, 0, 0⟩ : WGKPDispatcher).segmentAndPromote
        (threeAndOne.formBatchWgkp ["b", "a"] .empty 8 ["b"] (some 3) 1).2).2 = .ok segs
      ∧ (segs.map SegmentDescriptor.adapterId).Nodup
      ∧ ∀ k, k ∈ segs.map SegmentDescriptor.adapterId
          ↔ ∃ e ∈ (threeAndOne.formBatchWgkp ["b", "a"] .empty 8 ["b"] (some 3) 1).2, e.1 = k :=
  segmentation_faithful.2 ⟨0, 0, 0⟩ threeAndOne ["b", "a"] .empty 8 ["b"] (some 3) 1 (by decide)

end WGKPDispatcher

end AdapterSlots
