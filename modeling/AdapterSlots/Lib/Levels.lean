import Mathlib.Algebra.Order.BigOperators.Group.Finset
import Mathlib.Data.Nat.Count
import Mathlib.Order.Monotone.Defs

/-!
# Levels of a monotone index function

A monotone `g : ℕ → ℕ` splits the positions below `n` into consecutive
intervals, one for each of its values. `below g n s` is where the interval
of `s` begins; `mem_level_iff` says that it is an interval.

The counting lemma behind it, `lt_count_iff`, is also the specification of
a search in a sorted table: the number of entries that satisfy a downward
closed predicate is the boundary of the predicate.
-/

namespace Lib

/-- The count of a downward closed predicate is its boundary. -/
theorem lt_count_iff {p : ℕ → Prop} [DecidablePred p] (h : ∀ i j, i ≤ j → p j → p i) :
    ∀ {n i : ℕ}, i < n → (i < Nat.count p n ↔ p i)
  | 0, i, hi => absurd hi (Nat.not_lt_zero i)
  | n + 1, i, hi => by
      rw [Nat.count_succ]
      by_cases hn : p n
      · have hall : Nat.count p n = n := Nat.count_iff_forall.mpr fun j hj => h j n (by omega) hn
        have hpi : p i := h i n (by omega) hn
        rw [if_pos hn, hall]
        exact iff_of_true hi hpi
      · rw [if_neg hn, Nat.add_zero]
        rcases Nat.lt_succ_iff_lt_or_eq.mp hi with hi | rfl
        · exact lt_count_iff h hi
        · exact iff_of_false (Nat.not_lt.mpr (Nat.count_le p)) hn

/-- Where the level of `s` begins. -/
def below (g : ℕ → ℕ) (n s : ℕ) : ℕ := Nat.count (g · < s) n

section

variable {g : ℕ → ℕ} {n : ℕ}

theorem below_le (s : ℕ) : below g n s ≤ n := Nat.count_le _

theorem below_succ (s : ℕ) : below g n (s + 1) = below g n s + Nat.count (g · = s) n := by
  unfold below
  induction n with
  | zero => rfl
  | succ n ih =>
      rw [Nat.count_succ, Nat.count_succ, Nat.count_succ, ih]
      split_ifs <;> omega

/-- The levels below a bound on `g` are all positions. -/
theorem below_eq {S : ℕ} (h : ∀ i < n, g i < S) : below g n S = n :=
  Nat.count_iff_forall.mpr h

variable (hg : Monotone g)

include hg

theorem lt_below_iff {i s : ℕ} (hi : i < n) : i < below g n s ↔ g i < s :=
  lt_count_iff (fun _ _ hij hlt => Nat.lt_of_le_of_lt (hg hij) hlt) hi

/-- The positions of one value form an interval. -/
theorem mem_level_iff {i s : ℕ} :
    below g n s ≤ i ∧ i < below g n s + Nat.count (g · = s) n ↔ i < n ∧ g i = s := by
  rw [← below_succ]
  constructor
  · rintro ⟨hle, hlt⟩
    have hi : i < n := Nat.lt_of_lt_of_le hlt (below_le _)
    have h₁ := (lt_below_iff hg hi).mp hlt
    have h₂ : ¬ g i < s := fun h => Nat.not_lt.mpr hle ((lt_below_iff hg hi).mpr h)
    exact ⟨hi, by omega⟩
  · rintro ⟨hi, rfl⟩
    have h₁ : ¬ i < below g n (g i) := fun h =>
      Nat.lt_irrefl (g i) ((lt_below_iff hg hi).mp h)
    exact ⟨Nat.not_lt.mp h₁, (lt_below_iff hg hi).mpr (Nat.lt_succ_self (g i))⟩

/-- The first position of a value that occurs. -/
theorem min?_level {s : ℕ} (h : 0 < Nat.count (g · = s) n) :
    ((List.range n).filter fun i => decide (g i = s)).min? = some (below g n s) := by
  have hmem : ∀ i, i ∈ (List.range n).filter (fun i => decide (g i = s))
      ↔ below g n s ≤ i ∧ i < below g n s + Nat.count (g · = s) n := by
    intro i
    rw [mem_level_iff hg, List.mem_filter, List.mem_range, decide_eq_true_eq]
  rw [List.min?_eq_some_iff]
  exact ⟨(hmem _).mpr ⟨Nat.le_refl _, by omega⟩, fun i hi => ((hmem i).mp hi).1⟩

end

/-- The sizes of the levels add up to where the next level begins. -/
theorem sum_count_level (g : ℕ → ℕ) (n : ℕ) : ∀ S,
    ∑ s ∈ Finset.range S, Nat.count (g · = s) n = below g n S
  | 0 => by
      have hnone : Nat.count (g · < 0) n = 0 :=
        Nat.count_iff_forall_not.mpr fun i _ => Nat.not_lt_zero (g i)
      rw [Finset.sum_range_zero, below, hnone]
  | S + 1 => by rw [Finset.sum_range_succ, sum_count_level g n S, below_succ]

/-! ## Searching prefix sums -/

section Search

variable {f : ℕ → ℕ} {S pos : ℕ}

theorem prefixSum_mono {s s' : ℕ} (h : s ≤ s') :
    ∑ j ∈ Finset.range s, f j ≤ ∑ j ∈ Finset.range s', f j :=
  Finset.sum_le_sum_of_subset_of_nonneg (Finset.range_mono h) fun _ _ _ => Nat.zero_le _

/-- The number of prefix sums that are at most `pos` is the block `pos` lies in. -/
theorem search_spec (h : pos < ∑ j ∈ Finset.range S, f j) :
    Nat.count (fun s => ∑ j ∈ Finset.range (s + 1), f j ≤ pos) S < S
      ∧ ∑ j ∈ Finset.range (Nat.count (fun s => ∑ j ∈ Finset.range (s + 1), f j ≤ pos) S), f j ≤ pos
      ∧ pos < ∑ j ∈ Finset.range
          (Nat.count (fun s => ∑ j ∈ Finset.range (s + 1), f j ≤ pos) S + 1), f j := by
  have hdown : ∀ i j, i ≤ j → ∑ l ∈ Finset.range (j + 1), f l ≤ pos →
      ∑ l ∈ Finset.range (i + 1), f l ≤ pos := fun i j hij hle =>
    (prefixSum_mono (Nat.succ_le_succ hij)).trans hle
  have hbound := fun i (hi : i < S) => lt_count_iff hdown hi
  generalize Nat.count (fun s => ∑ j ∈ Finset.range (s + 1), f j ≤ pos) S = c at hbound ⊢
  have hlt : c < S := by
    by_contra hge
    cases S with
    | zero => simp at h
    | succ S => exact Nat.not_lt.mpr ((hbound S (Nat.lt_succ_self S)).mp (by omega)) h
  refine ⟨hlt, ?_, ?_⟩
  · cases c with
    | zero => exact Nat.zero_le pos
    | succ c => exact (hbound c (by omega)).mp (Nat.lt_succ_self c)
  · exact Nat.not_le.mp fun hle => Nat.lt_irrefl c ((hbound c hlt).mpr hle)

/-- The block of a position is unique. -/
theorem prefixSum_unique {s s' : ℕ} (h₁ : ∑ j ∈ Finset.range s, f j ≤ pos)
    (h₂ : pos < ∑ j ∈ Finset.range (s + 1), f j) (h₁' : ∑ j ∈ Finset.range s', f j ≤ pos)
    (h₂' : pos < ∑ j ∈ Finset.range (s' + 1), f j) : s = s' := by
  rcases Nat.lt_trichotomy s s' with hlt | heq | hlt
  · have hle := prefixSum_mono (f := f) (show s + 1 ≤ s' from hlt)
    omega
  · exact heq
  · have hle := prefixSum_mono (f := f) (show s' + 1 ≤ s from hlt)
    omega

end Search

end Lib
