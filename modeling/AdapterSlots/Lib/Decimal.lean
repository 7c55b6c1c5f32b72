import Mathlib.Algebra.Order.Ring.Int

/-!
# Decimal names

`toString` of an integer: different numbers have different names.
-/

namespace Lib

theorem toDigits_injective {m n : ℕ} (h : Nat.toDigits 10 m = Nat.toDigits 10 n) : m = n := by
  rw [← Nat.ofDigitChars_ten_toDigits (n := m), h, Nat.ofDigitChars_ten_toDigits]

/-- The sign of a name is no digit. -/
theorem repr_ne_neg (m n : ℕ) : Nat.repr m ≠ "-" ++ Nat.repr n := by
  intro h
  have hlist := congrArg String.toList h
  rw [String.toList_append, Nat.toList_repr, Nat.toList_repr] at hlist
  have hsign : '-' ∈ Nat.toDigits 10 m := by
    rw [hlist]
    exact List.mem_append_left _ (List.mem_singleton.mpr rfl)
  have hdigit := Nat.isDigit_of_mem_toDigits (by decide) (by decide) hsign
  revert hdigit
  decide

theorem repr_injective {m n : ℕ} (h : Nat.repr m = Nat.repr n) : m = n := by
  refine toDigits_injective ?_
  rw [← Nat.toList_repr, h, Nat.toList_repr]

theorem toString_int_injective : ∀ {a b : ℤ}, toString a = toString b → a = b
  | .ofNat m, .ofNat n, h => congrArg Int.ofNat (repr_injective h)
  | .ofNat m, .negSucc n, h => absurd h (repr_ne_neg m (n + 1))
  | .negSucc m, .ofNat n, h => absurd h.symm (repr_ne_neg n (m + 1))
  | .negSucc m, .negSucc n, h => by
      have htail : Nat.repr (m + 1) = Nat.repr (n + 1) := by
        have hlist := congrArg String.toList (show "-" ++ _ = "-" ++ _ from h)
        rw [String.toList_append, String.toList_append] at hlist
        exact String.toList_inj.mp (List.append_cancel_left hlist)
      rw [Nat.succ_injective (repr_injective htail)]

end Lib
