/-!
# A thread among others

A thread makes calls on a shared object, in program order. Before the first of
them, between any two and after the last the other threads act any number of
times (`Amid`). The rule for an invariant asks that the own calls and the
actions of the others keep it, and gives back that it held at each call.
-/

namespace Lib

variable {σ κ : Type} {own : σ → κ → σ → Prop} {others : σ → σ → Prop} {s s' : σ} {cs : List κ}

/-- The calls `cs` of one thread, amid the actions of the others. -/
inductive Amid (own : σ → κ → σ → Prop) (others : σ → σ → Prop) : σ → List κ → σ → Prop
  | done {s : σ} : Amid own others s [] s
  | other {s s₁ s' : σ} {cs : List κ} : others s s₁ → Amid own others s₁ cs s' →
      Amid own others s cs s'
  | call {s s₁ s' : σ} {c : κ} {cs : List κ} : own s c s₁ → Amid own others s₁ cs s' →
      Amid own others s (c :: cs) s'

theorem Amid.invariant (Inv : σ → Prop) (hothers : ∀ s s', Inv s → others s s' → Inv s')
    (h : Amid own others s cs s') :
    (∀ c ∈ cs, ∀ s s', Inv s → own s c s' → Inv s') → Inv s →
      Inv s' ∧ ∀ c ∈ cs, ∃ s₁ s₂, Inv s₁ ∧ own s₁ c s₂ := by
  induction h with
  | done => exact fun _ hs => ⟨hs, fun c hc => by cases hc⟩
  | other hstep _ ih => exact fun hown hs => ih hown (hothers _ _ hs hstep)
  | @call s s₁ s' c cs hstep _ ih =>
      intro hown hs
      have hs₁ : Inv s₁ := hown c (List.mem_cons_self ..) s s₁ hs hstep
      obtain ⟨hs', hall⟩ := ih (fun c' hc' => hown c' (List.mem_cons_of_mem _ hc')) hs₁
      refine ⟨hs', fun c' hc' => ?_⟩
      rcases List.mem_cons.mp hc' with rfl | hc'
      · exact ⟨s, s₁, hs, hstep⟩
      · exact hall c' hc'

end Lib
