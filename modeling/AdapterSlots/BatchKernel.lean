import AdapterSlots.SchedulerOrder
import AdapterSlots.TiledSlices

/-!
# From the batch to the kernel

The decode path builds a segment table for every batch it is given and does not
count the adapter runs first, as the prefill path does. Whether the runs fit the
segment slots is up to the scheduler, which orders the batch.

A batch joins the sorted groups with the dispatched ones, so an adapter heads two
runs only when it has groups on both sides: it is *returning*
(`Emitted.length_runs_le`). `batch_gets_own_loras` takes this through to the
launches. When vLLM's LoRA slots are enough for the adapters of a batch, with a
second slot for each returning one, every row of the batch gets the LoRA of its
own group. A drain is not ordered and is left out.
-/

namespace AdapterSlots

open Lib AlignmentBuffer

/-! ## The rows of a batch -/

/-- `token_lora_indices` of a decode step: the sequences of a group next to each other,
in the slot of its adapter, and then the rows that fill up a captured batch size,
which have no adapter. -/
def batchRows (slot : String → ℤ) (seqs : SequenceGroup → ℕ) (pad : ℕ)
    (out : List SequenceGroup) : List ℤ :=
  copies (fun g => slot g.adapterId) seqs out ++ List.replicate pad (-1)

theorem countRuns_cons_cons (a b : ℤ) (l : List ℤ) :
    countRuns (a :: b :: l) = countRuns (b :: l) + if a = b then 0 else 1 := by
  unfold countRuns
  rw [List.tail_cons, List.zip_cons_cons, List.countP_cons, List.tail_cons]
  by_cases h : a = b <;> simp [h, Nat.add_assoc]

/-- The host test counts the runs. -/
theorem countRuns_eq_length_runs : ∀ (a : ℤ) (l : List ℤ),
    countRuns (a :: l) = (runs (a :: l)).length
  | _, [] => rfl
  | a, b :: l => by
      rw [countRuns_cons_cons, countRuns_eq_length_runs b l, runs_cons_cons]
      by_cases h : a = b
      · rw [if_pos h, if_neg (not_not.mpr h), Nat.add_zero]
      · rw [if_neg h, if_pos h, List.length_cons]

theorem countRuns_le_of_length_runs {l : List ℤ} {n : ℕ} (h : (runs l).length ≤ n + 1) :
    countRuns l ≤ n + 1 := by
  cases l with
  | nil => exact Nat.le_add_left 1 n
  | cons a l => exact (countRuns_eq_length_runs a l).trans_le h

theorem length_runs_replicate_le_one (a : ℤ) (n : ℕ) : (runs (List.replicate n a)).length ≤ 1 := by
  have h := length_runs_replicate_le a [] [] n
  rwa [List.append_nil] at h

/-- The rows have at most one run more than the adapters of the groups. -/
theorem countRuns_batchRows_le (slot : String → ℤ) (seqs : SequenceGroup → ℕ) (pad : ℕ)
    (out : List SequenceGroup) :
    countRuns (batchRows slot seqs pad out)
      ≤ (runs (out.map SequenceGroup.adapterId)).length + 1 := by
  refine countRuns_le_of_length_runs ?_
  have hrows : (runs (copies (fun g : SequenceGroup => slot g.adapterId) seqs out)).length
      ≤ (runs (out.map fun g => slot g.adapterId)).length := length_runs_copies_le [] out
  have hslots : (runs (out.map fun g => slot g.adapterId)).length
      ≤ (runs (out.map SequenceGroup.adapterId)).length := by
    have h := length_runs_map_le slot (out.map SequenceGroup.adapterId)
    rwa [List.map_map] at h
  have hpad := length_runs_replicate_le_one (-1) pad
  have hjoin := length_runs_append_le
    (copies (fun g : SequenceGroup => slot g.adapterId) seqs out) (List.replicate pad (-1))
  unfold batchRows
  omega

/-- The rows of a group carry the slot of its adapter. -/
theorem tokenLora_batchRows (slot : String → ℤ) {seqs : SequenceGroup → ℕ} (pad : ℕ)
    (before after : List SequenceGroup) {g : SequenceGroup} {q : ℕ} (hq : q < seqs g) :
    tokenLora (batchRows slot seqs pad (before ++ g :: after)) ((before.map seqs).sum + q)
      = slot g.adapterId := by
  have hlen : (copies (fun g : SequenceGroup => slot g.adapterId) seqs before).length
      = (before.map seqs).sum := length_copies before
  have hrep : q < (List.replicate (seqs g) (slot g.adapterId)).length := by
    rwa [List.length_replicate]
  rw [batchRows, copies_append, copies_cons, List.append_assoc, List.append_assoc, tokenLora,
    ← hlen, List.getD_eq_getElem?_getD, List.getElem?_append_right (Nat.le_add_right ..),
    Nat.add_sub_cancel_left, List.getElem?_append_left hrep, List.getElem?_replicate_of_lt hq,
    Option.getD_some]

theorem row_lt_length (slot : String → ℤ) {seqs : SequenceGroup → ℕ} (pad : ℕ)
    (before after : List SequenceGroup) {g : SequenceGroup} {q : ℕ} (hq : q < seqs g) :
    (before.map seqs).sum + q < (batchRows slot seqs pad (before ++ g :: after)).length := by
  rw [batchRows, copies_append, copies_cons, List.length_append, List.length_append,
    List.length_append, length_copies, List.length_replicate]
  omega

namespace AlignmentAwareScheduler

variable {K : Type} [Field K] [LinearOrder K]

/-! ## Returning adapters -/

/-- The adapters with an aligned group in the batch and a group that the dispatch lets
go, seen from the state at the dispatch. -/
def returningAt (s : AlignmentAwareScheduler K) (i : TickInput K) (call : DispatchCall K) :
    Finset String :=
  ((s.postAlignmentGroups i).map SequenceGroup.adapterId).toFinset
    ∩ (s.dispatchedAdapters i call).toFinset

/-- The same, seen from the state before the tick. -/
def returning (cfg : Config K) (env : Env K) (s : AlignmentAwareScheduler K) (i : TickInput K) :
    Finset String :=
  match s.countCall.prepareTick cfg env i with
  | .ok (s₁, call) => s₁.returningAt i call
  | .error _ => ∅

/-- The tick releases first-time groups early. -/
def Drains (cfg : Config K) (env : Env K) (s : AlignmentAwareScheduler K) (i : TickInput K) :
    Prop :=
  match s.countCall.prepareTick cfg env i with
  | .ok (s₁, call) => s₁.drainedGroups cfg i call ≠ []
  | .error _ => False

instance (cfg : Config K) (env : Env K) (s : AlignmentAwareScheduler K) (i : TickInput K) :
    Decidable (Drains cfg env s i) := by
  unfold Drains
  split <;> infer_instance

section Runs

variable {adapterOf : ℕ → String} {cfg : Config K} {env : Env K}
  {s s' s₁ : AlignmentAwareScheduler K} {i : TickInput K} {call : DispatchCall K}
  {out : List SequenceGroup}

/-- Without a drain the batch has one run for each adapter and one more for each
returning one, at most. -/
theorem Emitted.length_runs_le (h : Waiting adapterOf s) (hfix : i.FixedAdapter adapterOf)
    (hranked : call.RankedNodup) (hemit : Emitted cfg s i call s' out)
    (hdrain : s.drainedGroups cfg i call = []) :
    (runs (decodeAdapters out)).length
      ≤ (decodeAdapters out).toFinset.card + (s.returningAt i call).card := by
  have hparts : decodeAdapters out
      = (sortByAdapter (s.postAlignmentGroups i)).map SequenceGroup.adapterId
        ++ (s.alignedGroups i call).map SequenceGroup.adapterId := by
    rw [decodeAdapters, hemit.filter_isDecode, decodePart, hdrain, List.append_nil,
      List.map_append]
  have hsorted : Contiguous ((sortByAdapter (s.postAlignmentGroups i)).map
      SequenceGroup.adapterId) := contiguous_map_sortByKey _ _
  have hblocks : Contiguous ((s.alignedGroups i call).map SequenceGroup.adapterId) := by
    rw [map_adapterId_alignedGroups h hfix hranked]
    exact contiguous_copies (DispatchCall.nodup_plan _ _ _ hranked)
  have hleft : ((sortByAdapter (s.postAlignmentGroups i)).map SequenceGroup.adapterId).toFinset
      = ((s.postAlignmentGroups i).map SequenceGroup.adapterId).toFinset :=
    List.toFinset_eq_of_perm _ _ ((sortByKey_perm _ _).map _)
  have hright : ((s.alignedGroups i call).map SequenceGroup.adapterId).toFinset
      = (s.dispatchedAdapters i call).toFinset := by
    ext k
    rw [List.mem_toFinset, List.mem_toFinset]
    exact mem_dispatchedAdapters h hfix hranked
  have hjoin := length_runs_append_le
    ((sortByAdapter (s.postAlignmentGroups i)).map SequenceGroup.adapterId)
    ((s.alignedGroups i call).map SequenceGroup.adapterId)
  rw [contiguous_iff_length_runs.mp hsorted, contiguous_iff_length_runs.mp hblocks, hleft,
    hright, ← Finset.card_union_add_card_inter] at hjoin
  rw [hparts, List.toFinset_append, hleft, hright]
  exact hjoin

theorem Waiting.length_runs_le (h : Waiting adapterOf s) (hfix : i.FixedAdapter adapterOf)
    (htick : Tick cfg env s i out s') (hdrain : ¬ Drains cfg env s i) :
    (runs (decodeAdapters out)).length
      ≤ (decodeAdapters out).toFinset.card + (s.returning cfg env i).card := by
  rcases schedule_cases htick with ⟨hnone, -, rfl⟩ | ⟨-, s₁, call, hprep, hspec, hemit⟩
  · have hempty : decodeAdapters i.sel.scheduled = [] := congrArg (List.map _) hnone
    rw [hempty]
    exact Nat.zero_le _
  · unfold Drains at hdrain
    unfold returning
    rw [hprep] at hdrain ⊢
    exact hemit.length_runs_le (h.prepared hfix hspec) hfix hspec.ranked (not_not.mp hdrain)

/-- Without a prefill selected, the batch has decode groups only. -/
theorem filter_isDecode_of_tick (htick : Tick cfg env s i out s')
    (hdec : i.sel.prefillGroups = []) : out.filter SequenceGroup.isDecode = out := by
  rcases schedule_cases htick with ⟨hnone, -, rfl⟩ | ⟨-, s₁, call, -, -, hemit⟩
  · refine List.filter_eq_self.mpr fun g hg => ?_
    by_contra hnot
    have hmem : g ∈ i.sel.prefillGroups :=
      mem_prefillGroups.mpr ⟨hg, Bool.eq_false_of_not_eq_true hnot⟩
    rw [hdec] at hmem
    cases hmem
  · rw [hemit.filter_isDecode, hemit.out_eq, hdec, List.nil_append]

end Runs

/-! ## Down to the launches -/

variable {R : Type} [CommRing R]

open SegmentedPunicaWrapper in
/-- **From the batch to the kernel.** In every run, take a tick without a prefill that
drains nothing, and let vLLM's LoRA slots be as many as the adapters of its batch and the
returning ones among them. The segment slots are one more. Then every
sequence of every group of the batch gets the LoRA in the slot of the group's adapter, and
no other: from the slices one by one, from mode 2 on, and from the packed launches of
mode 3, however vLLM fills the slots and in every order of the programs. -/
theorem batch_gets_own_loras {adapterOf : ℕ → String} {cfg : Config K} {env : Env K}
    {s : AlignmentAwareScheduler K} {tr : TickHistory K}
    (h : Exec (Tick cfg env) (init cfg) tr s)
    (hfix : ∀ e ∈ tr, e.label.FixedAdapter adapterOf)
    {e : Event (AlignmentAwareScheduler K) (TickInput K) (List SequenceGroup)} (he : e ∈ tr)
    (hdec : e.label.sel.prefillGroups = []) (hdrain : ¬ Drains cfg env e.pre e.label)
    {loraSlots : ℕ} (hslots : (e.out.map SequenceGroup.adapterId).toFinset.card
      + (e.pre.returning cfg env e.label).card ≤ loraSlots)
    (gemm : SegGemmConfig) (hmode : 2 ≤ gemm.mode) (w : SegmentedPunicaWrapper)
    (mapping : LoRAMapping) (hprefill : mapping.isPrefill = false) (slot : String → ℤ)
    (seqs : SequenceGroup → ℕ) (pad : ℕ) (order : List ℕ) :
    let idx := batchRows slot seqs pad e.out
    let u := w.updateMetadata gemm mapping (loraSlots + 1) idx order
    idx.length ≤ tileMapTokens → order.Perm (List.range idx.length) →
    ∀ {ns nOut r kIn : ℕ} (hr : 0 < r) (_ : ns ≤ 3) (y garbage : ℕ × ℕ → R) (x : ℕ → ℕ → R)
      (A B : Weights R) (scale : R) (shrink₂ : ℕ → List (ℕ × ℕ × ℕ))
      (expand₂ : ℕ → List (ℕ × ℕ)) (shrink₃ expand₃ : List (ℕ × ℕ × ℕ)),
    (∀ s < ns, (shrink₂ s).Perm (u.shrinkDecodeGrid r)) →
    (∀ s < ns, (expand₂ s).Perm (u.expandDecodeGrid r nOut)) →
    shrink₃.Perm (u.shrinkGrid ns r) → expand₃.Perm (u.expandGrid ns nOut r) →
    ∀ before g after, e.out = before ++ g :: after → ∀ q < seqs g, ∀ s < ns, ∀ j < nOut,
      let row := (before.map seqs).sum + q
      let own := slotTerm x A B scale r kIn (slot g.adapterId) row s j
      u.addLoraSliced gemm y x A B scale ns nOut r kIn shrink₂ expand₂ (row, s * nOut + j)
          = y (row, s * nOut + j) + own
        ∧ addLoraPackedNslice y x A B scale ns nOut r kIn u.seg u.tiles (u.blocks gemm hr)
            garbage shrink₃ expand₃ (row, s * nOut + j)
          = y (row, s * nOut + j) + own := by
  intro idx u hn hperm ns nOut r kIn hr hns y garbage x A B scale shrink₂ expand₂ shrink₃ expand₃
    hshrink₂ hexpand₂ hshrink₃ hexpand₃ before g after hout q hq s hs j hj row own
  obtain ⟨-, hall⟩ := waiting_of_run h hfix
  have htick := h.step_of_mem e he
  -- all groups of the batch are decode groups, so its runs are those of its rows
  have hdecode : decodeAdapters e.out = e.out.map SequenceGroup.adapterId := by
    rw [decodeAdapters, filter_isDecode_of_tick htick hdec]
  have hbatch := (hall e he).1.length_runs_le (hfix e he) htick hdrain
  rw [hdecode] at hbatch
  have hruns : countRuns idx ≤ loraSlots + 1 :=
    (countRuns_batchRows_le slot seqs pad e.out).trans (Nat.succ_le_succ (hbatch.trans hslots))
  have hready : DecodeReady gemm u (loraSlots + 1) idx :=
    decodeReady hmode hprefill (Nat.succ_pos _) hn hruns hperm
  have hidx : idx = batchRows slot seqs pad (before ++ g :: after) := by rw [← hout]
  have hrow : row < idx.length := hidx ▸ row_lt_length slot pad before after hq
  have hown : loraTerm x A B scale r kIn idx row s j = own := by
    rw [loraTerm_eq, hidx, tokenLora_batchRows slot pad before after hq]
  rw [← hown]
  refine ⟨?_, hready.packed hr hrow hns hshrink₃ hexpand₃ y garbage hs hj⟩
  rw [hready.addLoraSliced hr hrow y hj ns hshrink₂ hexpand₂, if_pos hs]

/-- The batch of two runs of `a` around one of `b`, in three LoRA slots: the sequence of `b`
gets the LoRA of slot 1. -/
theorem lateArrival_own_loras :
    ∃ tr s, ∃ e ∈ tr,
      Exec (Tick (Config.default .threshold) sampleEnv) (init (Config.default .threshold)) tr s
      ∧ e.out = [sampleGroup 1 "a" false, sampleGroup 2 "b" false, sampleGroup 3 "a" false]
      ∧ let gemm : SegGemmConfig := ⟨3, true, 2, Nat.two_pos⟩
        let idx := batchRows (fun k => if k = "a" then 0 else 1) (fun _ => 1) 1 e.out
        let u := SegmentedPunicaWrapper.updateMetadata gemm SegmentedPunicaWrapper.fresh
          ⟨[7, 9, 7, 0], false⟩ (3 + 1) idx [2, 0, 3, 1]
        let A : Weights ℤ := fun s a q k => s + a + q + k
        let B : Weights ℤ := fun s a j q => s * a + j + q
        addLoraPackedNslice (fun c => (c.1 : ℤ)) (fun i k => (i + k : ℕ)) A B 5 2 2 1 3 u.seg
            u.tiles (u.blocks gemm Nat.one_pos) (fun _ => 7) (u.shrinkGrid 2 1)
            (u.expandGrid 2 2 1).reverse (1, 1 * 2 + 1)
          = 1 + slotTerm (fun i k => ((i + k : ℕ) : ℤ)) A B 5 1 3 1 1 1 1 := by
  obtain ⟨tr, s, hexec, hlabels, htests⟩ := exists_run (Config.default .threshold) sampleEnv
    lateArrival (fun e => decide (e.label.sel.prefillGroups = []
      ∧ ¬ Drains (Config.default .threshold) sampleEnv e.pre e.label
      ∧ (e.out.map SequenceGroup.adapterId).toFinset.card
        + (e.pre.returning (Config.default .threshold) sampleEnv e.label).card ≤ 3
      ∧ e.out = [sampleGroup 1 "a" false, sampleGroup 2 "b" false, sampleGroup 3 "a" false]))
    (l := [false, false, false, true]) (by decide +kernel)
  have hfix : ∀ e ∈ tr, e.label.FixedAdapter fun x => if x = 2 then "b" else "a" := by
    have hall : ∀ i ∈ lateArrival, i.FixedAdapter fun x => if x = 2 then "b" else "a" := by
      unfold TickInput.FixedAdapter
      decide
    exact fun e he => hall e.label (hlabels ▸ List.mem_map.mpr ⟨e, he, rfl⟩)
  have hmem : true ∈ tr.map _ := htests ▸ (by decide : true ∈ [false, false, false, true])
  obtain ⟨e, he, htest⟩ := List.mem_map.mp hmem
  obtain ⟨hdec, hdrain, hslots, hout⟩ := of_decide_eq_true htest
  refine ⟨tr, s, e, he, hexec, hout, ?_⟩
  intro gemm idx u A B
  have hidx : idx = [0, 1, 0, -1] := by
    show batchRows _ _ _ e.out = _
    rw [hout]
    decide
  have hlen : idx.length ≤ tileMapTokens := by
    rw [hidx]
    decide
  have hperm : List.Perm [2, 0, 3, 1] (List.range idx.length) := by
    rw [hidx]
    decide
  exact (batch_gets_own_loras hexec hfix he hdec hdrain hslots gemm (by decide)
    SegmentedPunicaWrapper.fresh ⟨[7, 9, 7, 0], false⟩ rfl (fun k => if k = "a" then 0 else 1)
    (fun _ => 1) 1 [2, 0, 3, 1] hlen hperm Nat.one_pos (show 2 ≤ 3 by decide)
    (fun c => (c.1 : ℤ)) (fun _ => 7) (fun i k => ((i + k : ℕ) : ℤ)) A B 5
    (fun _ => u.shrinkDecodeGrid 1) (fun _ => u.expandDecodeGrid 1 2) (u.shrinkGrid 2 1)
    (u.expandGrid 2 2 1).reverse (fun _ _ => List.Perm.refl _) (fun _ _ => List.Perm.refl _)
    (List.Perm.refl _) (List.reverse_perm _) [sampleGroup 1 "a" false] (sampleGroup 2 "b" false)
    [sampleGroup 3 "a" false] hout 0 Nat.one_pos 1 (by decide) 1 (by decide)).2

end AlignmentAwareScheduler

end AdapterSlots
