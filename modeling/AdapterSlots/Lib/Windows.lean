import Mathlib.Order.Nat
import Mathlib.Data.List.Induction

/-!
# Windows of a stream

A list is cut into consecutive windows of `n` entries, oldest first. What
follows the last complete window is the open one (`openWindow`).

`tumble` is the program that computes a value once for each complete window: it
collects entries, and with the `n`-th one it takes the value and starts
again. After any list it holds the open window and the value of the last
complete one (`foldl_tumble`).
-/

namespace Lib

variable {α β : Type} {n : ℕ} {l : List α} {x : α}

/-- The entries behind the last complete window. -/
def openWindow (n : ℕ) (l : List α) : List α := l.drop (n * (l.length / n))

def lastWindow (n : ℕ) (l : List α) : Option (List α) :=
  if l.length < n then none else some ((l.drop (n * (l.length / n - 1))).take n)

theorem length_openWindow (n : ℕ) (l : List α) : (openWindow n l).length = l.length % n := by
  rw [openWindow, List.length_drop, Nat.mod_def]

/-- The end of the last complete window lies in the list. -/
theorem windows_le (n : ℕ) (l : List α) : n * (l.length / n) ≤ l.length := Nat.mul_div_le _ _

/-- The number of complete windows after one more entry. -/
theorem div_snoc (hn : 0 < n) : (l ++ [x]).length / n
    = l.length / n + if (openWindow n l).length + 1 = n then 1 else 0 := by
  have hmod : l.length % n < n := Nat.mod_lt _ hn
  have hlen : (l ++ [x]).length = l.length % n + 1 + n * (l.length / n) := by
    rw [List.length_append, List.length_singleton]
    have := Nat.mod_add_div l.length n
    omega
  rw [hlen, Nat.add_mul_div_left _ _ hn, length_openWindow]
  split
  · rename_i hfull
    rw [hfull, Nat.div_self hn, Nat.add_comm]
  · rw [Nat.div_eq_of_lt (by omega), Nat.zero_add, Nat.add_zero]

theorem openWindow_snoc (hn : 0 < n) : openWindow n (l ++ [x])
    = if (openWindow n l).length + 1 = n then [] else openWindow n l ++ [x] := by
  rw [openWindow, div_snoc hn]
  split
  · rename_i hfull
    rw [length_openWindow] at hfull
    have hlen : (l ++ [x]).length ≤ n * (l.length / n + 1) := by
      rw [List.length_append, List.length_singleton, Nat.mul_add, Nat.mul_one]
      have := Nat.mod_add_div l.length n
      omega
    exact List.drop_eq_nil_of_le hlen
  · rw [Nat.add_zero, List.drop_append_of_le_length (windows_le n l)]
    rfl

theorem lastWindow_snoc (hn : 0 < n) : lastWindow n (l ++ [x])
    = if (openWindow n l).length + 1 = n then some (openWindow n l ++ [x])
      else lastWindow n l := by
  have hlen : (l ++ [x]).length = l.length + 1 := List.length_append
  have hsplit := Nat.mod_add_div l.length n
  have hmod : l.length % n < n := Nat.mod_lt _ hn
  rw [lastWindow, lastWindow, div_snoc hn, hlen]
  by_cases hfull : (openWindow n l).length + 1 = n
  · have hle : ¬ l.length + 1 < n := by
      rw [length_openWindow] at hfull
      omega
    rw [if_pos hfull, if_pos hfull, if_neg hle, Nat.add_sub_cancel,
      List.drop_append_of_le_length (windows_le n l), List.take_of_length_le]
    · rfl
    · rw [List.length_append, List.length_singleton]
      exact hfull.le
  · have hopen := hfull
    rw [length_openWindow] at hopen
    rw [if_neg hfull, if_neg hfull, show l.length / n + 0 = l.length / n from rfl]
    by_cases hlt : l.length < n
    · rw [Nat.mod_eq_of_lt hlt] at hopen
      rw [if_pos hlt, if_pos (by omega)]
    · have hq : l.length / n - 1 + 1 = l.length / n :=
        Nat.sub_add_cancel (Nat.div_pos (not_lt.mp hlt) hn)
      -- the last complete window ends before the new entry
      have hend : n * (l.length / n - 1) + n ≤ l.length := by
        have hmul : n * (l.length / n - 1) + n = n * (l.length / n) := by
          rw [← Nat.mul_succ, Nat.succ_eq_add_one, hq]
        rw [hmul]
        exact windows_le n l
      rw [if_neg hlt, if_neg (by omega), List.drop_append_of_le_length (by omega),
        List.take_append_of_le_length (by rw [List.length_drop]; omega)]

/-- One entry; the second component is the value of the last complete window. -/
def tumble (n : ℕ) (f : List α → β) (s : List α × β) (x : α) : List α × β :=
  if n ≤ s.1.length + 1 then ([], f (s.1 ++ [x])) else (s.1 ++ [x], s.2)

theorem foldl_tumble (hn : 0 < n) (f : List α → β) (b : β) (l : List α) :
    l.foldl (tumble n f) ([], b) = (openWindow n l, ((lastWindow n l).map f).getD b) := by
  induction l using List.reverseRecOn with
  | nil =>
      rw [lastWindow, if_pos (show ([] : List α).length < n from hn)]
      simp [openWindow]
  | append_singleton l x ih =>
      have hmod : (openWindow n l).length < n := by
        rw [length_openWindow]
        exact Nat.mod_lt _ hn
      rw [List.foldl_append, ih, openWindow_snoc hn, lastWindow_snoc hn]
      show tumble n f (openWindow n l, ((lastWindow n l).map f).getD b) x = _
      unfold tumble
      by_cases hfull : (openWindow n l).length + 1 = n
      · rw [if_pos hfull.ge, if_pos hfull, if_pos hfull]
        rfl
      · rw [if_neg (show ¬ n ≤ (openWindow n l).length + 1 by omega), if_neg hfull, if_neg hfull]

end Lib
