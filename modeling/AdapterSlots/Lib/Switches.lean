import Mathlib.Data.List.Basic

/-!
# Switches

`switches l` counts the places of a list where an element differs from the one
before it. An element at the end adds one switch at most, and none when it
repeats the last one.
-/

namespace Lib

variable {α : Type} [DecidableEq α]

def switches : List α → ℕ
  | [] => 0
  | [_] => 0
  | a :: b :: l => (if a = b then 0 else 1) + switches (b :: l)

theorem switches_snoc_snoc (b a : α) : ∀ l : List α,
    switches (l ++ [b] ++ [a]) = switches (l ++ [b]) + if b = a then 0 else 1
  | [] => Nat.add_comm _ _
  | [c] => by
      show (if c = b then 0 else 1) + ((if b = a then 0 else 1) + 0)
        = (if c = b then 0 else 1) + 0 + if b = a then 0 else 1
      omega
  | c :: d :: l => by
      have ih := switches_snoc_snoc b a (d :: l)
      simp only [List.cons_append] at ih ⊢
      rw [switches, ih, switches, Nat.add_assoc]

/-- A repetition is no switch. -/
theorem switches_repeat (l : List α) (a : α) :
    switches (l ++ [a] ++ [a]) = switches (l ++ [a]) := by
  rw [switches_snoc_snoc, if_pos rfl, Nat.add_zero]

theorem switches_snoc_le (l : List α) (a : α) : switches (l ++ [a]) ≤ switches l + 1 := by
  rcases List.eq_nil_or_concat' l with rfl | ⟨l, b, rfl⟩
  · exact Nat.zero_le _
  · rw [switches_snoc_snoc]
    split <;> omega

theorem switches_le_snoc (l : List α) (a : α) : switches l ≤ switches (l ++ [a]) := by
  rcases List.eq_nil_or_concat' l with rfl | ⟨l, b, rfl⟩
  · exact Nat.zero_le _
  · rw [switches_snoc_snoc]
    exact Nat.le_add_right _ _

end Lib
