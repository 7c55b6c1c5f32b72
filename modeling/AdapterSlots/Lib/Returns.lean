import Mathlib.Logic.Basic

/-!
# Computations that return

Total correctness of `Except` computations. `Returns x P` says that `x`
raises no error and that its result satisfies `P`. The rules follow the
shape of the computation: a result, a bind, a fold over a list under an
invariant.

A computation has one result. So what is proved of it together with its
return also holds of every result it is known to have (`of_eq`).
-/

namespace Lib

/-- `x` raises no error, and its result satisfies `P`. -/
def Returns {ε α : Type} (x : Except ε α) (P : α → Prop) : Prop := ∃ a, x = .ok a ∧ P a

namespace Returns

variable {ε α β : Type} {x : Except ε α} {P : α → Prop} {R : β → Prop}

theorem ok {a : α} (h : P a) : Returns (.ok a : Except ε α) P := ⟨a, rfl, h⟩

theorem bind {f : α → Except ε β} (hx : Returns x P) (hf : ∀ a, P a → Returns (f a) R) :
    Returns (x >>= f) R := by
  obtain ⟨a, rfl, ha⟩ := hx
  exact hf a ha

theorem of_eq (hx : Returns x P) {a : α} (ha : x = .ok a) : P a := by
  obtain ⟨b, rfl, hb⟩ := hx
  obtain rfl := Except.ok.inj ha
  exact hb

/-- The rule of a loop over a list, with the invariant `R`. -/
theorem foldlM {f : β → α → Except ε β} : ∀ {l : List α},
    (∀ a ∈ l, ∀ b, R b → Returns (f b a) R) → ∀ {b : β}, R b → Returns (l.foldlM f b) R := by
  intro l
  induction l with
  | nil => exact fun _ {b} hb => ok hb
  | cons a l ih =>
      intro hf b hb
      rw [List.foldlM_cons]
      refine bind (hf a (List.mem_cons_self ..) b hb) fun b' hb' => ?_
      exact ih (fun a' ha' => hf a' (List.mem_cons_of_mem _ ha')) hb'

end Returns

/-! ### What a return says about the parts -/

section Parts

variable {ε α β : Type}

theorem bind_eq_ok {x : Except ε α} {f : α → Except ε β} {b : β} (h : x >>= f = .ok b) :
    ∃ a, x = .ok a ∧ f a = .ok b := by
  cases x with
  | error e => cases h
  | ok a => exact ⟨a, rfl, h⟩

/-- A sequence fails in its first part or in the second. -/
theorem bind_eq_error {x : Except ε α} {f : α → Except ε β} {e : ε} :
    x >>= f = .error e ↔ x = .error e ∨ ∃ a, x = .ok a ∧ f a = .error e := by
  cases x with
  | error e' =>
      constructor
      · intro h
        cases h
        exact .inl rfl
      · rintro (h | ⟨a, ha, -⟩)
        · cases h
          rfl
        · cases ha
  | ok a =>
      constructor
      · exact fun h => .inr ⟨a, rfl, h⟩
      · rintro (h | ⟨a', ha, h⟩)
        · cases h
        · obtain rfl := Except.ok.inj ha
          exact h

/-- An invariant of a loop that ran through. -/
theorem invariant_foldlM {f : β → α → Except ε β} {R : β → Prop} : ∀ {l : List α},
    (∀ a ∈ l, ∀ b b', R b → f b a = .ok b' → R b') → ∀ {b b' : β}, R b →
    l.foldlM f b = .ok b' → R b' := by
  intro l
  induction l with
  | nil =>
      intro _ b b' hb h
      exact Except.ok.inj h ▸ hb
  | cons a l ih =>
      intro hf b b' hb h
      rw [List.foldlM_cons] at h
      obtain ⟨c, hc, h⟩ := bind_eq_ok h
      exact ih (fun a' ha' => hf a' (List.mem_cons_of_mem _ ha'))
        (hf a (List.mem_cons_self ..) b c hb hc) h

/-- A loop that collected results had one for every element. -/
theorem mapM_eq_ok {f : α → Except ε β} : ∀ {l : List α} {bs : List β},
    l.mapM f = .ok bs → ∀ a ∈ l, ∃ b, f a = .ok b
  | [], _, _, _, ha => absurd ha List.not_mem_nil
  | a :: l, bs, h, a', ha' => by
      rw [List.mapM_cons] at h
      obtain ⟨b, hb, h⟩ := bind_eq_ok h
      obtain ⟨bs', hbs', -⟩ := bind_eq_ok h
      rcases List.mem_cons.mp ha' with rfl | ha'
      · exact ⟨b, hb⟩
      · exact mapM_eq_ok hbs' a' ha'

theorem mapM_of_ok {f : α → Except ε β} {g : α → β} : ∀ {l : List α},
    (∀ a ∈ l, f a = .ok (g a)) → l.mapM f = .ok (l.map g)
  | [], _ => rfl
  | a :: l, h => by
      obtain ⟨ha, hl⟩ := List.forall_mem_cons.mp h
      rw [List.mapM_cons, ha, mapM_of_ok hl]
      rfl

end Parts

end Lib
