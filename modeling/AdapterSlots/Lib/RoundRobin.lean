import Mathlib.Algebra.Order.Group.Defs
import Mathlib.Algebra.Order.Monoid.Defs
import Mathlib.Algebra.BigOperators.Group.List.Basic
import Mathlib.Data.List.Sort
import Mathlib.Tactic.Abel

/-!
# Dealing a sorted list round robin

The values of a list go to `n` hands in turn. When the list is sorted, largest
value first, no hand gets more than one before it, and the first gets at most
one value more than the last.

`handsFrom` follows the deal value by value: it numbers the hands from the
one whose turn it is, so that the bounds pass through an induction over the
list.
-/

namespace Lib

variable {K : Type} [AddCommGroup K] {n : ℕ}

/-- What hand `i` gets, with the hands numbered from the next in turn. -/
def handsFrom (n : ℕ) : List K → ℕ → K
  | [], _ => 0
  | a :: l, 0 => a + handsFrom n l (n - 1)
  | _ :: l, i + 1 => handsFrom n l i

/-- The values of the list at the positions of residue `s`. -/
theorem handsFrom_eq {α : Type} (f : α → K) : ∀ (l : List α) (k i : ℕ), i < n →
    (((l.zipIdx k).filter fun e => e.2 % n = (k + i) % n).map fun e => f e.1).sum
      = handsFrom n (l.map f) i
  | [], _, _, _ => rfl
  | a :: l, k, 0, hi => by
      have hturn : (k + 1 + (n - 1)) % n = (k + 0) % n := by
        have hround : k + 1 + (n - 1) = k + n := by omega
        rw [hround, Nat.add_mod_right, Nat.add_zero]
      have hhead : decide ((a, k).2 % n = (k + 0) % n) = true := decide_eq_true rfl
      rw [List.zipIdx_cons, List.filter_cons, if_pos hhead, List.map_cons, List.sum_cons, ← hturn,
        handsFrom_eq f l (k + 1) (n - 1) (by omega), List.map_cons]
      rfl
  | a :: l, k, i + 1, hi => by
      have hne : k % n ≠ (k + (i + 1)) % n := by
        intro h
        have hzero := Nat.sub_mod_eq_zero_of_mod_eq h.symm
        rw [Nat.add_sub_cancel_left, Nat.mod_eq_of_lt hi] at hzero
        exact Nat.succ_ne_zero i hzero
      have hnext : k + (i + 1) = k + 1 + i := by omega
      rw [List.zipIdx_cons, List.filter_cons_of_neg (by rwa [decide_eq_true_eq]), hnext,
        handsFrom_eq f l (k + 1) i (by omega), List.map_cons]
      rfl

variable [LinearOrder K] [IsOrderedAddMonoid K]

/-- Earlier hands get no less, and no more than one value above the others. -/
theorem handsFrom_balanced : ∀ {l : List K} {b : K}, 0 ≤ b → (∀ a ∈ l, 0 ≤ a) → (∀ a ∈ l, a ≤ b) →
    l.Pairwise (fun a a' => a' ≤ a) → ∀ {i j : ℕ}, i ≤ j → j < n →
    handsFrom n l j ≤ handsFrom n l i ∧ handsFrom n l i ≤ handsFrom n l j + b
  | [], b, hb, _, _, _, i, j, _, _ => by
      refine ⟨le_rfl, ?_⟩
      rw [handsFrom, handsFrom, zero_add]
      exact hb
  | a :: l, b, hb, hnonneg, hle, hsorted, i, j, hij, hj => by
      obtain ⟨ha, hnonneg'⟩ := List.forall_mem_cons.mp hnonneg
      obtain ⟨hab, hle'⟩ := List.forall_mem_cons.mp hle
      obtain ⟨hal, hsorted'⟩ := List.pairwise_cons.mp hsorted
      match i, j with
      | 0, 0 => exact ⟨le_rfl, le_add_of_nonneg_right hb⟩
      | 0, j + 1 =>
          -- the hand that took `a` is the last in turn for the rest
          obtain ⟨hlast, hfirst⟩ := handsFrom_balanced ha hnonneg' hal hsorted'
            (show j ≤ n - 1 by omega) (by omega)
          rw [handsFrom, handsFrom]
          refine ⟨hfirst.trans (add_comm _ a).le, ?_⟩
          rw [add_comm a]
          exact add_le_add hlast hab
      | i + 1, j + 1 =>
          exact handsFrom_balanced hb hnonneg' hle' hsorted' (Nat.le_of_succ_le_succ hij)
            (by omega)

end Lib
