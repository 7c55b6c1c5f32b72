import Mathlib.Algebra.Order.Field.Basic
import Mathlib.Algebra.Field.Rat
import Mathlib.Algebra.Order.Ring.Rat
import AdapterSlots.Lib.Dict
import AdapterSlots.Lib.LongRuns

/-!
# The generalised warp alignment ratio

`GWAR(n*)` is the fraction of the tokens of a batch that stand in runs of at
least `n*` tokens of one adapter. It is written down three times:
`compute_gwar` and `compute_gwar_curve` of `gwar.py`, and `gwar` of the
benchmarks. All three scan the batch by index, with a loop for a run inside
a loop over the runs; `scanSegments_eq` says that such a scan is a fold over
the maximal runs.

They differ in the thresholds below one, which every run meets. There
`compute_gwar` alone answers 0.
-/

namespace AdapterSlots

open Lib

variable {A : Type} [DecidableEq A]

/-! ## The scan -/

/-- The inner loop: the index behind the run of `a`. The list is the batch from index
`j` on. -/
def runEnd (a : A) : List A → ℕ → ℕ
  | [], j => j
  | b :: ids, j => if b = a then runEnd a ids (j + 1) else j

/-- The outer loop from index `i` on; `body` takes the length of a segment. Every turn
advances, so a batch takes at most one turn for each token. -/
def scanSegments {β : Type} (body : β → ℕ → β) (adapterIds : List A) : ℕ → ℕ → β → β
  | 0, _, acc => acc
  | turns + 1, i, acc =>
      match adapterIds.drop i with
      | [] => acc
      | a :: rest =>
          let j := runEnd a rest (i + 1)
          scanSegments body adapterIds turns j (body acc (j - i))

/-- `if seg_len >= threshold: promoted_tokens += seg_len`. -/
def addLong (threshold : ℤ) (promoted segLen : ℕ) : ℕ :=
  if threshold ≤ segLen then promoted + segLen else promoted

section Definitions

variable {K : Type} [Field K]

def computeGwar (adapterIds : List A) (threshold : ℤ) : K :=
  let n := adapterIds.length
  if n = 0 ∨ threshold ≤ 0 then 0
  else if threshold = 1 then 1
  else (scanSegments (addLong threshold) adapterIds n 0 0 : ℕ) / n

def computeGwarCurve (adapterIds : List A) (thresholds : List ℤ) : Dict ℤ K :=
  let n := adapterIds.length
  if n = 0 then .ofKeys thresholds 0
  else
    let segLengths := scanSegments (fun l segLen => l ++ [segLen]) adapterIds n 0 []
    let value (thr : ℤ) : K :=
      if thr ≤ 0 then 1
      else if thr = 1 then 1
      else ((segLengths.filter fun (s : ℕ) => decide (thr ≤ s)).sum : ℕ) / n
    Dict.empty.insertAll (thresholds.map fun thr => (thr, value thr))

/-- `gwar` of the benchmarks. -/
def benchGwar (adapterIds : List A) (threshold : ℤ) : K :=
  let n := adapterIds.length
  let promoted := scanSegments (addLong threshold) adapterIds n 0 0
  if n ≠ 0 then (promoted : K) / n else 0

end Definitions

/-! ### Runs -/

omit [DecidableEq A] in
theorem drop_takeWhile (p : A → Bool) (l : List A) :
    l.drop (l.takeWhile p).length = l.dropWhile p := by
  have hjoin := List.takeWhile_append_dropWhile (p := p) (l := l)
  calc l.drop (l.takeWhile p).length
    _ = (l.takeWhile p ++ l.dropWhile p).drop (l.takeWhile p).length := by rw [hjoin]
    _ = l.dropWhile p := List.drop_left

theorem runEnd_eq (a : A) : ∀ (ids : List A) (j : ℕ),
    runEnd a ids j = j + (ids.takeWhile fun b => decide (b = a)).length
  | [], _ => rfl
  | b :: ids, j => by
      rw [runEnd, List.takeWhile_cons]
      by_cases hb : b = a
      · rw [if_pos hb, if_pos (decide_eq_true hb), runEnd_eq a ids, List.length_cons]
        omega
      · rw [if_neg hb, if_neg (by simpa using hb), List.length_nil, Nat.add_zero]

/-- The scan from `i` on runs over the maximal runs from `i` on. -/
theorem scanSegments_drop {β : Type} (body : β → ℕ → β) (ids : List A) :
    ∀ (turns i : ℕ) (acc : β), (ids.drop i).length ≤ turns →
      scanSegments body ids turns i acc
        = ((maximalRuns (fun a => a) (ids.drop i)).map List.length).foldl body acc
  | 0, i, acc, h => by
      rw [List.length_eq_zero_iff.mp (Nat.le_zero.mp h)]
      rfl
  | turns + 1, i, acc, h => by
      cases hdrop : ids.drop i with
      | nil =>
          rw [scanSegments, hdrop]
          rfl
      | cons a rest =>
          rw [hdrop, List.length_cons] at h
          have hrest : ids.drop (i + 1 + (rest.takeWhile fun b => decide (b = a)).length)
              = rest.dropWhile fun b => decide (b = a) := by
            rw [← List.drop_drop, ← List.drop_drop, hdrop, List.drop_one, List.tail_cons]
            exact drop_takeWhile _ rest
          have hle := List.length_dropWhile_le (fun b => decide (b = a)) rest
          have ih := scanSegments_drop body ids turns
            (i + 1 + (rest.takeWhile fun b => decide (b = a)).length)
            (body acc ((rest.takeWhile fun b => decide (b = a)).length + 1))
            (by rw [hrest]; omega)
          rw [hrest] at ih
          have hlen : runEnd a rest (i + 1) - i
              = (rest.takeWhile fun b => decide (b = a)).length + 1 := by
            rw [runEnd_eq]
            omega
          rw [scanSegments, hdrop]
          simp only [hlen]
          rw [runEnd_eq, ih, maximalRuns_cons, List.map_cons, List.foldl_cons, List.length_cons]

/-- A scan folds over the lengths of the maximal runs. -/
theorem scanSegments_eq {β : Type} (body : β → ℕ → β) (ids : List A) (acc : β) :
    scanSegments body ids ids.length 0 acc
      = ((maximalRuns (fun a => a) ids).map List.length).foldl body acc :=
  scanSegments_drop body ids ids.length 0 acc (Nat.le_refl _)

theorem foldl_addLong (t : ℤ) : ∀ (l : List ℕ) (acc : ℕ),
    l.foldl (addLong t) acc = acc + (l.map (longPart t)).sum
  | [], _ => rfl
  | s :: l, acc => by
      rw [List.foldl_cons, foldl_addLong t l, List.map_cons, List.sum_cons, addLong, longPart]
      split <;> omega

/-- The counting scan. -/
theorem scanSegments_addLong (t : ℤ) (ids : List A) :
    scanSegments (addLong t) ids ids.length 0 0 = inLongRuns (fun a => a) t ids := by
  rw [scanSegments_eq, foldl_addLong, Nat.zero_add, List.map_map]
  rfl

/-- The list of segment lengths. -/
theorem scanSegments_snoc (ids : List A) :
    scanSegments (fun l segLen => l ++ [segLen]) ids ids.length 0 []
      = (maximalRuns (fun a => a) ids).map List.length := by
  rw [scanSegments_eq]
  generalize (maximalRuns (fun a => a) ids).map List.length = lengths
  suffices h : ∀ acc : List ℕ, lengths.foldl (fun l s => l ++ [s]) acc = acc ++ lengths from h []
  induction lengths with
  | nil => exact fun acc => (List.append_nil acc).symm
  | cons s l ih =>
      intro acc
      rw [List.foldl_cons, ih, List.append_assoc, List.singleton_append]

omit [DecidableEq A] in
theorem sum_filter_longPart (t : ℤ) : ∀ l : List ℕ,
    (l.filter fun (s : ℕ) => decide (t ≤ s)).sum = (l.map (longPart t)).sum
  | [] => rfl
  | s :: l => by
      rw [List.map_cons, List.sum_cons, ← sum_filter_longPart t l, List.filter_cons, longPart]
      by_cases hs : t ≤ s
      · rw [if_pos (decide_eq_true hs), if_pos hs, List.sum_cons]
      · rw [if_neg (by simpa using hs), if_neg hs, Nat.zero_add]

section Values

variable {K : Type} [Field K] {ids : List A} {t : ℤ}

/-- The fraction of the tokens that stand in runs of `t`. -/
def longFraction (t : ℤ) (ids : List A) : K :=
  (inLongRuns (fun a => a) t ids : K) / ids.length

variable [LinearOrder K] [IsStrictOrderedRing K]

theorem longFraction_of_le_one (ht : t ≤ 1) (hne : ids ≠ []) : (longFraction t ids : K) = 1 := by
  have hpos := List.length_pos_of_ne_nil hne
  rw [longFraction, inLongRuns_of_le_one ht]
  exact div_self (Nat.cast_ne_zero.mpr hpos.ne')

omit [LinearOrder K] [IsStrictOrderedRing K] in
theorem longFraction_nil : (longFraction t ([] : List A) : K) = 0 := by
  rw [longFraction, List.length_nil, Nat.cast_zero, div_zero]

omit [LinearOrder K] [IsStrictOrderedRing K] in
theorem computeGwar_nil : (computeGwar ([] : List A) t : K) = 0 := rfl

/-- A positive threshold is met by the runs it names. -/
theorem computeGwar_eq (ht : 1 ≤ t) : (computeGwar ids t : K) = longFraction t ids := by
  rcases eq_or_ne ids [] with rfl | hne
  · rw [longFraction_nil, computeGwar_nil]
  · unfold computeGwar
    have hlen : ids.length ≠ 0 := (List.length_pos_of_ne_nil hne).ne'
    simp only [hlen, false_or]
    rw [if_neg (by omega)]
    split
    · rename_i hone
      exact (longFraction_of_le_one hone.le hne).symm
    · rw [scanSegments_addLong]
      rfl

omit [LinearOrder K] [IsStrictOrderedRing K] in
/-- The special case for thresholds below one. -/
theorem computeGwar_of_le_zero (ids : List A) (ht : t ≤ 0) : (computeGwar ids t : K) = 0 :=
  if_pos (.inr ht)

omit [LinearOrder K] [IsStrictOrderedRing K] in
theorem benchGwar_eq : (benchGwar ids t : K) = longFraction t ids := by
  unfold benchGwar
  simp only [scanSegments_addLong]
  rcases eq_or_ne ids [] with rfl | hne
  · rw [longFraction_nil]
    rfl
  · exact if_pos (List.length_pos_of_ne_nil hne).ne'

theorem computeGwarCurve_get? {thresholds : List ℤ} (ht : t ∈ thresholds) :
    (computeGwarCurve ids thresholds : Dict ℤ K).get? t = some (longFraction t ids) := by
  unfold computeGwarCurve
  rcases eq_or_ne ids [] with rfl | hne
  · rw [longFraction_nil]
    exact (Dict.get?_ofKeys thresholds 0 t).trans (if_pos ht)
  · have hlen : ids.length ≠ 0 := (List.length_pos_of_ne_nil hne).ne'
    simp only [if_neg hlen]
    rw [Dict.get?_insertAll_map _ t, if_pos ht]
    congr 1
    split_ifs with hzero hone
    · exact (longFraction_of_le_one (by omega) hne).symm
    · exact (longFraction_of_le_one hone.le hne).symm
    · rw [scanSegments_snoc, sum_filter_longPart, List.map_map]
      rfl

theorem longFraction_anti {s : ℤ} (h : s ≤ t) : (longFraction t ids : K) ≤ longFraction s ids :=
  div_le_div_of_nonneg_right (Nat.cast_le.mpr (inLongRuns_anti h ids)) (Nat.cast_nonneg _)

theorem longFraction_nonneg : (0 : K) ≤ longFraction t ids :=
  div_nonneg (Nat.cast_nonneg _) (Nat.cast_nonneg _)

theorem longFraction_eq_zero_iff : (longFraction t ids : K) = 0
    ↔ ids = [] ∨ ∀ run ∈ maximalRuns (fun a => a) ids, (run.length : ℤ) < t := by
  rw [longFraction, div_eq_zero_iff, Nat.cast_eq_zero, Nat.cast_eq_zero, inLongRuns_eq_zero_iff,
    List.length_eq_zero_iff]
  exact or_comm

end Values

/-! ## Sorting -/

section Sorted

variable {A : Type} [LinearOrder A] {K : Type} [Field K] [LinearOrder K] [IsStrictOrderedRing K]
  {ids : List A} {t : ℤ}

/-- The tokens whose adapter has `t` tokens in the batch. -/
def frequent (t : ℤ) (ids : List A) : ℕ := ids.countP fun a => decide (t ≤ ids.count a)

theorem sameKey_eq_count (ids : List A) (a : A) :
    sameKey (fun b => b) ids a = ids.count a := by
  unfold sameKey List.count
  exact List.countP_congr fun b _ => by simp

theorem inLongRuns_le_frequent : inLongRuns (fun a => a) t ids ≤ frequent t ids := by
  have hle := inLongRuns_le (fun a => a) t ids
  simp only [sameKey_eq_count] at hle
  exact hle

/-- Sorted, all tokens of an adapter stand in one run. -/
theorem inLongRuns_sorted :
    inLongRuns (fun a => a) t (sortByKey (fun a => a) ids) = frequent t ids := by
  have hperm := sortByKey_perm (fun a => a) ids
  have hcont : Contiguous ((sortByKey (fun a => a) ids).map fun a => a) := by
    rw [List.map_id']
    exact contiguous_of_sorted (pairwise_sortByKey (fun a => a) ids)
  rw [inLongRuns_of_contiguous t hcont, frequent, hperm.countP_eq]
  simp only [sameKey_eq_count, hperm.count_eq]

/-- **Grouping by adapter maximises GWAR**: no order of a batch has more of its tokens
in runs of `t` than the sorted one, where every adapter with `t` tokens has
them in one run. -/
theorem grouping_maximises_gwar (ids : List A) (ht : 1 ≤ t) :
    (computeGwar ids t : K)
        = ((maximalRuns (fun a => a) ids).filter fun run =>
            decide (t ≤ run.length)).flatten.length / ids.length
      ∧ (∀ t', t ≤ t' → (computeGwar ids t' : K) ≤ computeGwar ids t)
      ∧ (computeGwar ids t : K) ≤ computeGwar (sortByKey (fun a => a) ids) t
      ∧ (computeGwar (sortByKey (fun a => a) ids) t : K)
        = (ids.countP fun a => decide (t ≤ ids.count a) : ℕ) / ids.length := by
  have hsorted : (computeGwar (sortByKey (fun a => a) ids) t : K)
      = (frequent t ids : ℕ) / ids.length := by
    rw [computeGwar_eq ht, longFraction, inLongRuns_sorted, (sortByKey_perm _ ids).length_eq]
  refine ⟨?_, fun t' ht' => ?_, ?_, hsorted⟩
  · rw [computeGwar_eq ht, longFraction, inLongRuns_eq]
  · rw [computeGwar_eq ht, computeGwar_eq (ht.trans ht')]
    exact longFraction_anti ht'
  · rw [hsorted, computeGwar_eq ht, longFraction]
    exact div_le_div_of_nonneg_right (Nat.cast_le.mpr inLongRuns_le_frequent) (Nat.cast_nonneg _)

/-- Two tokens of one adapter, apart and then together. -/
theorem apart_then_grouped :
    (computeGwar [4, 7, 4] 2 : ℚ) = 0
      ∧ (computeGwar [4, 7, 4] 2 : ℚ) ≤ computeGwar (sortByKey (fun a => a) [4, 7, 4]) 2
      ∧ (computeGwar (sortByKey (fun a => a) [4, 7, 4]) 2 : ℚ) = 2 / 3 := by
  obtain ⟨-, -, hle, heq⟩ := grouping_maximises_gwar (K := ℚ) [4, 7, 4] (show (1 : ℤ) ≤ 2 by decide)
  exact ⟨by decide +kernel, hle, heq.trans (by decide +kernel)⟩

end Sorted

/-! ## The three implementations -/

section Agree

variable {K : Type} [Field K] [LinearOrder K] [IsStrictOrderedRing K]

/-- At the thresholds of the list all three give one value. -/
def GwarAgree (K : Type) [Field K] (ids : List A) (thresholds : List ℤ) : Prop :=
  ∀ t ∈ thresholds, (computeGwarCurve ids thresholds : Dict ℤ K).get? t = some (computeGwar ids t)
    ∧ (computeGwar ids t : K) = benchGwar ids t

/-- A lower threshold is met by as many tokens or more. -/
def GwarMonotone (K : Type) [Field K] [LinearOrder K] (ids : List A) : Prop :=
  ∀ s t, s ≤ t → (computeGwar ids t : K) ≤ computeGwar ids s

/-- Where `compute_gwar` meets its definition. -/
theorem computeGwar_eq_iff {ids : List A} {t : ℤ} :
    (computeGwar ids t : K) = longFraction t ids ↔ ids = [] ∨ 1 ≤ t := by
  rcases lt_or_ge t 1 with ht | ht
  · rcases eq_or_ne ids [] with rfl | hne
    · refine iff_of_true ?_ (.inl rfl)
      rw [longFraction_nil, computeGwar_nil]
    · rw [computeGwar_of_le_zero ids (by omega), longFraction_of_le_one ht.le hne]
      exact iff_of_false zero_ne_one fun h => h.elim hne (not_le.mpr ht)
  · exact iff_of_true (computeGwar_eq ht) (.inr ht)

theorem gwarAgree_iff {ids : List A} {thresholds : List ℤ} :
    GwarAgree K ids thresholds ↔ ids = [] ∨ ∀ t ∈ thresholds, 1 ≤ t := by
  have hone : GwarAgree K ids thresholds
      ↔ ∀ t ∈ thresholds, (computeGwar ids t : K) = longFraction t ids := by
    refine forall₂_congr fun t ht => ?_
    rw [computeGwarCurve_get? ht, benchGwar_eq, Option.some.injEq]
    exact ⟨fun h => h.2, fun h => ⟨h.symm, h⟩⟩
  rw [hone]
  simp only [computeGwar_eq_iff]
  rcases eq_or_ne ids [] with hnil | hne
  · exact iff_of_true (fun t ht => .inl hnil) (.inl hnil)
  · simp only [hne, false_or]

/-- The order of two thresholds is respected unless the lower one is below one and
the higher one is met by some run. -/
theorem computeGwar_le_iff {ids : List A} {s t : ℤ} (hst : s ≤ t) :
    (computeGwar ids t : K) ≤ computeGwar ids s
      ↔ ids = [] ∨ 1 ≤ s ∨ t ≤ 0 ∨ ∀ run ∈ maximalRuns (fun a => a) ids, (run.length : ℤ) < t := by
  rcases lt_or_ge s 1 with hs | hs
  · rw [computeGwar_of_le_zero ids (show s ≤ 0 by omega)]
    rcases lt_or_ge t 1 with ht | ht
    · rw [computeGwar_of_le_zero ids (show t ≤ 0 by omega)]
      exact iff_of_true le_rfl (.inr (.inr (.inl (by omega))))
    · have hnonneg : (0 : K) ≤ longFraction t ids := longFraction_nonneg
      rw [computeGwar_eq ht, hnonneg.ge_iff_eq', longFraction_eq_zero_iff]
      simp only [show ¬ 1 ≤ s by omega, show ¬ t ≤ 0 by omega, false_or]
  · rw [computeGwar_eq hs, computeGwar_eq (hs.trans hst)]
    exact iff_of_true (longFraction_anti hst) (.inr (.inl hs))

/-- **The three implementations** give one value, and `compute_gwar` is monotone, at
the thresholds from one on; below one, on the empty batch only. -/
theorem gwar_implementations_agree_iff (ids : List A) (thresholds : List ℤ) :
    (GwarAgree K ids thresholds ↔ ids = [] ∨ ∀ t ∈ thresholds, 1 ≤ t)
      ∧ (GwarMonotone K ids ↔ ids = [])
      ∧ (∀ s t, s ≤ t → ((computeGwar ids t : K) ≤ computeGwar ids s
        ↔ ids = [] ∨ 1 ≤ s ∨ t ≤ 0 ∨ ∀ run ∈ maximalRuns (fun a => a) ids, (run.length : ℤ) < t))
      ∧ (GwarAgree K ids thresholds ∧ GwarMonotone K ids ↔ ids = []) := by
  have hmono : GwarMonotone K ids ↔ ids = [] := by
    constructor
    · intro h
      by_contra hne
      have hle := h 0 1 (by decide)
      rw [computeGwar_of_le_zero ids (le_refl 0), computeGwar_eq (le_refl 1),
        longFraction_of_le_one (le_refl 1) hne] at hle
      exact not_le.mpr zero_lt_one hle
    · intro hnil s t hst
      exact (computeGwar_le_iff hst).mpr (.inl hnil)
  refine ⟨gwarAgree_iff, hmono, fun s t hst => computeGwar_le_iff hst, ?_⟩
  rw [gwarAgree_iff, hmono]
  exact ⟨fun h => h.2, fun h => ⟨.inl h, h⟩⟩

/-- Positive thresholds, one of them twice. -/
theorem positiveThresholds_agree : GwarAgree ℚ [(5 : ℤ), 5, 7] [2, 1, 2] :=
  (gwar_implementations_agree_iff (K := ℚ) [5, 5, 7] [2, 1, 2]).1.mpr (.inr (by decide))

/-- One token, threshold 0: two answers, and less than at threshold 1. -/
theorem zeroThreshold_disagrees :
    ¬ ∀ (ids : List ℤ) (thresholds : List ℤ), GwarAgree ℚ ids thresholds ∧ GwarMonotone ℚ ids := by
  intro h
  obtain ⟨hagree, -⟩ := h [7] [0]
  have heq := (hagree 0 (List.mem_singleton_self 0)).2
  exact absurd heq (by decide +kernel)

end Agree

end AdapterSlots
