import Mathlib.Data.Nat.Count
import Mathlib.Data.List.Perm.Basic
import Mathlib.Logic.Function.Basic
import AdapterSlots.Lib.Levels

/-!
# Adapter segments

`SegmentedPunicaWrapper._refresh_segments`: the segment table of a batch,
one slot for each maximal run of one adapter, recomputed from
`token_lora_indices` by a cumulative sum, a clamp to the last slot and
three scatters.

The scatter of the adapter indices writes one slot several times, in an
order the device is free to choose; `order` is that order. With no more
runs than slots all writes to a slot agree. With more runs the last slot
collects tokens of different adapters, and whatever write lands last, the
table is wrong for some of them: `segments_apply_iff`.
-/

namespace AdapterSlots

open Lib

/-- `token_lora_indices[i]`; `-1` stands for no adapter. -/
def tokenLora (idx : List ℤ) (i : ℕ) : ℤ := idx.getD i (-1)

/-- `is_start[i]`: the first token, and every token of another adapter than the
one before it. -/
def isStart (idx : List ℤ) (i : ℕ) : Prop := i = 0 ∨ tokenLora idx i ≠ tokenLora idx (i - 1)

instance (idx : List ℤ) : DecidablePred (isStart idx) := fun i =>
  inferInstanceAs (Decidable (i = 0 ∨ tokenLora idx i ≠ tokenLora idx (i - 1)))

/-- `torch.cumsum(is_start.long(), 0) - 1`. -/
def runOf (idx : List ℤ) (i : ℕ) : ℕ := Nat.count (isStart idx) (i + 1) - 1

/-- The run of a token, clamped to the last slot. -/
def segId (nLoras : ℕ) (idx : List ℤ) (i : ℕ) : ℕ := min (runOf idx i) (nLoras - 1)

/-- `_seg_start`, `_seg_len` and `_seg_lora`, by slot. -/
structure SegTable where
  start : ℕ → ℕ
  len : ℕ → ℕ
  lora : ℕ → ℤ

/-- `scatter_`: the writes of the positions in `order`, one after the other. -/
def scatter (seg : ℕ → ℕ) (src : ℕ → ℤ) (order : List ℕ) (table : ℕ → ℤ) : ℕ → ℤ :=
  order.foldl (fun t i => Function.update t (seg i) (src i)) table

/-- `scatter_add_` of ones counts the tokens of a slot, `scatter_reduce_` with
`amin` takes the least of their positions, and slots without a token keep
their initial values `0`, `0` and `-1`. -/
def refreshSegments (nLoras : ℕ) (idx : List ℤ) (order : List ℕ) : SegTable where
  start s := ((List.range idx.length).filter fun i => decide (segId nLoras idx i = s)).min?.getD 0
  len s := Nat.count (segId nLoras idx · = s) idx.length
  lora s :=
    if Nat.count (segId nLoras idx · = s) idx.length = 0 then -1
    else scatter (segId nLoras idx) (tokenLora idx) order (fun _ => -1) s

/-- The test of the prefill branch of `update_metadata`:
`1 + sum(1 for a, b in zip(ids, ids[1:]) if a != b)`. -/
def countRuns (ids : List ℤ) : ℕ :=
  1 + (ids.zip ids.tail).countP fun p => decide (p.1 ≠ p.2)

namespace SegTable

/-- Position `i` lies in slot `s`. -/
def Covers (T : SegTable) (s i : ℕ) : Prop := T.start s ≤ i ∧ i < T.start s + T.len s

instance (T : SegTable) (s i : ℕ) : Decidable (T.Covers s i) :=
  inferInstanceAs (Decidable (_ ∧ _))

/-- Every token with an adapter lies in exactly one slot, which carries its
adapter; tokens without one lie only in slots without one. -/
def Applies (T : SegTable) (nLoras : ℕ) (idx : List ℤ) : Prop :=
  ∀ i < idx.length,
    (0 ≤ tokenLora idx i → ∃ s < nLoras, T.Covers s i ∧ T.lora s = tokenLora idx i
        ∧ ∀ s' < nLoras, T.Covers s' i → s' = s)
      ∧ (tokenLora idx i = -1 → ∀ s < nLoras, T.Covers s i → T.lora s = -1)

end SegTable

/-! ## Runs -/

section Runs

variable {idx : List ℤ}

theorem runOf_zero (idx : List ℤ) : runOf idx 0 = 0 := by
  have h : isStart idx 0 := Or.inl rfl
  simp [runOf, Nat.count_succ, h]

/-- A run goes on until the adapter changes. -/
theorem runOf_succ (idx : List ℤ) (i : ℕ) :
    runOf idx (i + 1)
      = runOf idx i + if tokenLora idx (i + 1) = tokenLora idx i then 0 else 1 := by
  have hpos : 0 < Nat.count (isStart idx) (i + 1) := by
    have h0 : isStart idx 0 := Or.inl rfl
    have hmono : Nat.count (isStart idx) 1 ≤ Nat.count (isStart idx) (i + 1) :=
      Nat.count_monotone _ (by omega)
    have hone : Nat.count (isStart idx) 1 = 1 := by simp [Nat.count_succ, h0]
    omega
  have hstart : isStart idx (i + 1) ↔ tokenLora idx (i + 1) ≠ tokenLora idx i := by
    simp [isStart]
  rw [runOf, Nat.count_succ, runOf]
  by_cases heq : tokenLora idx (i + 1) = tokenLora idx i
  · rw [if_pos heq, if_neg fun h => hstart.mp h heq]
    omega
  · rw [if_neg heq, if_pos (hstart.mpr heq)]
    omega

theorem monotone_runOf (idx : List ℤ) : Monotone (runOf idx) :=
  monotone_nat_of_le_succ fun i => by
    rw [runOf_succ]
    exact Nat.le_add_right ..

/-- Tokens of one run have one adapter. -/
theorem tokenLora_eq_of_runOf_eq : ∀ {i d : ℕ}, runOf idx i = runOf idx (i + d) →
    tokenLora idx i = tokenLora idx (i + d)
  | _, 0, _ => rfl
  | i, d + 1, h => by
      have hle := monotone_runOf idx (Nat.le_add_right i d)
      have hsucc := runOf_succ idx (i + d)
      rw [← Nat.add_assoc] at h ⊢
      by_cases heq : tokenLora idx (i + d + 1) = tokenLora idx (i + d)
      · rw [heq]
        rw [if_pos heq] at hsucc
        exact tokenLora_eq_of_runOf_eq (by omega)
      · rw [if_neg heq] at hsucc
        omega

theorem monotone_segId (nLoras : ℕ) (idx : List ℤ) : Monotone (segId nLoras idx) :=
  fun _ _ h => min_le_min_right _ (monotone_runOf idx h)

theorem runOf_cons (a : ℤ) (l : List ℤ) : ∀ i,
    runOf (a :: l) (i + 1) = (if tokenLora l 0 = a then 0 else 1) + runOf l i
  | 0 => by
      rw [runOf_succ, runOf_zero, runOf_zero, Nat.zero_add, Nat.add_zero]
      rfl
  | i + 1 => by
      rw [runOf_succ, runOf_cons a l i, runOf_succ, Nat.add_assoc]
      rfl

/-- The number of runs is one more than the run of the last token. -/
theorem countRuns_eq : ∀ (idx : List ℤ) (n : ℕ), idx.length = n + 1 →
    countRuns idx = runOf idx n + 1
  | [], n, h => by cases h
  | [a], n, h => by
      obtain rfl : n = 0 := by simpa using h.symm
      rw [runOf_zero]
      rfl
  | a :: b :: l, n, h => by
      obtain ⟨m, rfl⟩ : ∃ m, n = m + 1 := ⟨l.length, by simpa using h.symm⟩
      have ih := countRuns_eq (b :: l) m (by simpa using h)
      have hsplit : countRuns (a :: b :: l) = (if b = a then 0 else 1) + countRuns (b :: l) := by
        by_cases hab : b = a
        · simp [countRuns, hab]
        · have hab' : a ≠ b := fun heq => hab heq.symm
          simp [countRuns, hab, hab']
          omega
      rw [hsplit, ih, runOf_cons]
      show _ = (if b = a then 0 else 1) + runOf (b :: l) m + 1
      omega

end Runs

/-! ## The table -/

section Table

theorem scatter_of_not_mem {seg : ℕ → ℕ} {src : ℕ → ℤ} {s : ℕ} : ∀ {order : List ℕ} {t : ℕ → ℤ},
    (∀ i ∈ order, seg i ≠ s) → scatter seg src order t s = t s
  | [], _, _ => rfl
  | i :: order, t, h => by
      have hi : s ≠ seg i := (h i (List.mem_cons_self ..)).symm
      have ih : scatter seg src order (Function.update t (seg i) (src i)) s
          = Function.update t (seg i) (src i) s :=
        scatter_of_not_mem fun j hj => h j (List.mem_cons_of_mem _ hj)
      rw [Function.update_of_ne hi] at ih
      exact ih

/-- A slot that is written to holds the source of one of its writes. -/
theorem scatter_of_mem {seg : ℕ → ℕ} {src : ℕ → ℤ} {s : ℕ} : ∀ {order : List ℕ} (t : ℕ → ℤ),
    (∃ i ∈ order, seg i = s) → ∃ i ∈ order, seg i = s ∧ scatter seg src order t s = src i
  | [], _, h => by
      obtain ⟨i, hi, -⟩ := h
      cases hi
  | i :: order, t, h => by
      by_cases hrest : ∃ j ∈ order, seg j = s
      · obtain ⟨j, hj, hs, heq⟩ := scatter_of_mem (Function.update t (seg i) (src i)) hrest
        exact ⟨j, List.mem_cons_of_mem _ hj, hs, heq⟩
      · -- the write of `i` is the last one to the slot
        push Not at hrest
        obtain ⟨j, hj, hs⟩ := h
        rcases List.mem_cons.mp hj with rfl | hj
        · refine ⟨j, List.mem_cons_self .., hs, ?_⟩
          have hlast : scatter seg src order (Function.update t (seg j) (src j)) s
              = Function.update t (seg j) (src j) s := scatter_of_not_mem hrest
          rw [← hs, Function.update_self] at hlast
          rw [← hs]
          exact hlast
        · exact absurd hs (hrest j hj)

variable {nLoras : ℕ} {idx : List ℤ} {order : List ℕ}

/-- A slot covers the positions whose clamped run it is. -/
theorem covers_iff {s i : ℕ} :
    (refreshSegments nLoras idx order).Covers s i ↔ i < idx.length ∧ segId nLoras idx i = s := by
  rw [← mem_level_iff (monotone_segId nLoras idx)]
  unfold SegTable.Covers refreshSegments
  rcases Nat.eq_zero_or_pos (Nat.count (segId nLoras idx · = s) idx.length) with hzero | hpos
  · simp only [hzero]
    exact iff_of_false (by omega) (by omega)
  · simp only [min?_level (monotone_segId nLoras idx) hpos, Option.getD_some]

theorem lora_of_covers (hperm : order.Perm (List.range idx.length)) {s i : ℕ}
    (h : (refreshSegments nLoras idx order).Covers s i) :
    ∃ j < idx.length, segId nLoras idx j = s
      ∧ (refreshSegments nLoras idx order).lora s = tokenLora idx j := by
  have hlen : Nat.count (segId nLoras idx · = s) idx.length ≠ 0 := by
    intro hzero
    have hcov := (mem_level_iff (monotone_segId nLoras idx)).mpr (covers_iff.mp h)
    omega
  obtain ⟨hi, hs⟩ := covers_iff.mp h
  obtain ⟨j, hj, hjs, heq⟩ : ∃ j ∈ order, segId nLoras idx j = s
      ∧ scatter (segId nLoras idx) (tokenLora idx) order (fun _ => -1) s = tokenLora idx j :=
    scatter_of_mem _ ⟨i, hperm.mem_iff.mpr (List.mem_range.mpr hi), hs⟩
  exact ⟨j, List.mem_range.mp (hperm.mem_iff.mp hj), hjs, (if_neg hlen).trans heq⟩

/-- With no more runs than slots the clamp does nothing. -/
theorem segId_eq_runOf (hruns : countRuns idx ≤ nLoras) {i : ℕ} (hi : i < idx.length) :
    segId nLoras idx i = runOf idx i := by
  obtain ⟨n, hn⟩ : ∃ n, idx.length = n + 1 := ⟨idx.length - 1, by omega⟩
  have hlast := countRuns_eq idx n hn
  have hmono := monotone_runOf idx (show i ≤ n by omega)
  exact Nat.min_eq_left (by omega)

theorem tokenLora_eq_of_segId_eq (hruns : countRuns idx ≤ nLoras) {i j : ℕ}
    (hi : i < idx.length) (hj : j < idx.length)
    (h : segId nLoras idx i = segId nLoras idx j) : tokenLora idx i = tokenLora idx j := by
  rw [segId_eq_runOf hruns hi, segId_eq_runOf hruns hj] at h
  rcases Nat.le_total i j with hle | hle
  · obtain ⟨d, rfl⟩ := Nat.exists_eq_add_of_le hle
    exact tokenLora_eq_of_runOf_eq h
  · obtain ⟨d, rfl⟩ := Nat.exists_eq_add_of_le hle
    exact (tokenLora_eq_of_runOf_eq h.symm).symm

/-- With enough slots every slot carries the adapter of the tokens it covers. -/
theorem lora_eq_of_covers (hruns : countRuns idx ≤ nLoras)
    (hperm : order.Perm (List.range idx.length)) {s i : ℕ}
    (h : (refreshSegments nLoras idx order).Covers s i) :
    (refreshSegments nLoras idx order).lora s = tokenLora idx i := by
  obtain ⟨hi, hs⟩ := covers_iff.mp h
  obtain ⟨j, hj, hjs, heq⟩ := lora_of_covers hperm h
  rw [heq]
  exact tokenLora_eq_of_segId_eq hruns hj hi (hjs.trans hs.symm)

theorem segId_lt (hpos : 0 < nLoras) (i : ℕ) : segId nLoras idx i < nLoras := by
  have : segId nLoras idx i ≤ nLoras - 1 := Nat.min_le_right ..
  omega

/-- Where the runs pass a given number, one token ends run `L` and the next
begins run `L + 1`. -/
theorem exists_run_step {L : ℕ} : ∀ {m : ℕ}, L < runOf idx m →
    ∃ j < m, runOf idx j = L ∧ runOf idx (j + 1) = L + 1
  | 0, h => by
      rw [runOf_zero] at h
      exact absurd h (Nat.not_lt_zero L)
  | m + 1, h => by
      by_cases hm : L < runOf idx m
      · obtain ⟨j, hj, hstep⟩ := exists_run_step hm
        exact ⟨j, by omega, hstep⟩
      · have hsucc := runOf_succ idx m
        refine ⟨m, Nat.lt_succ_self m, ?_⟩
        split at hsucc <;> omega

/-- A table that applies gives a covered token's slot the token's adapter. -/
theorem SegTable.Applies.lora_eq {T : SegTable} (h : T.Applies nLoras idx)
    (hidx : ∀ v ∈ idx, -1 ≤ v) {s i : ℕ} (hi : i < idx.length) (hs : s < nLoras)
    (hcov : T.Covers s i) : T.lora s = tokenLora idx i := by
  have hmem : tokenLora idx i ∈ idx := by
    have hget : tokenLora idx i = idx[i] := by simp [tokenLora, hi]
    exact hget ▸ List.getElem_mem hi
  have hge := hidx _ hmem
  obtain ⟨hadapter, hnone⟩ := h i hi
  by_cases h0 : 0 ≤ tokenLora idx i
  · obtain ⟨s', -, -, hlora, huniq⟩ := hadapter h0
    rw [huniq s hs hcov, hlora]
  · have h1 : tokenLora idx i = -1 := by omega
    rw [hnone h1 s hs hcov, h1]

/-- **Segments.** Whatever the order of the scatter, the table applies every
token's own adapter if and only if there are no more runs than slots. -/
theorem segments_apply_iff (hpos : 0 < nLoras) (hidx : ∀ v ∈ idx, -1 ≤ v)
    (hperm : order.Perm (List.range idx.length)) :
    (refreshSegments nLoras idx order).Applies nLoras idx ↔ countRuns idx ≤ nLoras := by
  constructor
  · intro h
    by_contra hruns
    obtain ⟨n, hn⟩ : ∃ n, idx.length = n + 1 := by
      cases idx with
      | nil => exact absurd (show countRuns [] ≤ nLoras from hpos) hruns
      | cons a l => exact ⟨l.length, rfl⟩
    have hlast := countRuns_eq idx n hn
    obtain ⟨j, hj, hrun, hrun'⟩ : ∃ j < n, runOf idx j = nLoras - 1
        ∧ runOf idx (j + 1) = nLoras - 1 + 1 := exists_run_step (by omega)
    -- the last token of run `nLoras - 1` and the first of the next share the last slot
    have hcov : ∀ i, i < idx.length → nLoras - 1 ≤ runOf idx i →
        (refreshSegments nLoras idx order).Covers (nLoras - 1) i := fun i hi hle =>
      covers_iff.mpr ⟨hi, Nat.min_eq_right hle⟩
    have h₁ := h.lora_eq hidx (by omega) (by omega) (hcov j (by omega) (by omega))
    have h₂ := h.lora_eq hidx (by omega) (by omega) (hcov (j + 1) (by omega) (by omega))
    have hsucc := runOf_succ idx j
    rw [if_pos (h₂.symm.trans h₁)] at hsucc
    omega
  · intro hruns i hi
    have hcov : (refreshSegments nLoras idx order).Covers (segId nLoras idx i) i :=
      covers_iff.mpr ⟨hi, rfl⟩
    refine ⟨fun _ => ?_, fun hnone s _ hs => ?_⟩
    · exact ⟨segId nLoras idx i, segId_lt hpos i, hcov, lora_eq_of_covers hruns hperm hcov,
        fun s' _ hs' => (covers_iff.mp hs').2.symm⟩
    · rw [lora_eq_of_covers hruns hperm hs, hnone]

end Table

/-- One adapter twice with a token without adapter between, in four slots. -/
theorem separated_runs_fit :
    (refreshSegments 4 [0, 0, -1, 0] [3, 1, 2, 0]).Applies 4 [0, 0, -1, 0] :=
  (segments_apply_iff (by decide) (by decide) (by decide)).mpr (by decide)

/-- One LoRA slot, hence two segment slots, and three runs: the token without
adapter lies in a slot that carries adapter 0. -/
theorem three_runs_in_two_slots :
    ¬ (refreshSegments (1 + 1) [0, -1, 0] [0, 1, 2]).Applies (1 + 1) [0, -1, 0] := by
  intro h
  have hlora := (h 1 (by decide)).2 (by decide) 1 (by decide) (by decide)
  exact absurd hlora (by decide)

end AdapterSlots
