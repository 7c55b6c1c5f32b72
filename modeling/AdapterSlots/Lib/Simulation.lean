import Mathlib.Data.List.Forall2
import AdapterSlots.Lib.Exec

/-!
# Forward simulation

Two labelled systems, run on the same labels. `Simulates` says that from
related states every admissible step of the first is matched by a step of
the second under the same label, with related outputs, into related
states. `Exec.simulate` carries the matching through a run: the second
system has a run on the same labels, event by event related (`Matched`).

Two simulations, one in each direction, make the systems agree; none of
the systems needs to be total or deterministic.
-/

namespace Lib

variable {σ τ ι ω ω' : Type} {step : σ → ι → ω → σ → Prop} {step' : τ → ι → ω' → τ → Prop}
  {R : σ → τ → Prop} {Q : σ → ι → ω → ω' → Prop} {Ok : σ → ι → Prop}

/-- Steps of the first system on admissible labels are matched by the second. -/
def Simulates (step : σ → ι → ω → σ → Prop) (step' : τ → ι → ω' → τ → Prop) (R : σ → τ → Prop)
    (Q : σ → ι → ω → ω' → Prop) (Ok : σ → ι → Prop) : Prop :=
  ∀ ⦃s t i o s'⦄, R s t → Ok s i → step s i o s' → ∃ o' t', step' t i o' t' ∧ R s' t' ∧ Q s i o o'

/-- Two events that match: one label, related states and outputs. -/
structure Matched (R : σ → τ → Prop) (Q : σ → ι → ω → ω' → Prop) (e : Event σ ι ω)
    (e' : Event τ ι ω') : Prop where
  label : e'.label = e.label
  pre : R e.pre e'.pre
  out : Q e.pre e.label e.out e'.out
  post : R e.post e'.post

/-- The run lemma of a simulation. -/
theorem Exec.simulate (hsim : Simulates step step' R Q Ok) {s₀ s : σ} {t₀ : τ}
    {tr : List (Event σ ι ω)} (h : Exec step s₀ tr s) (hinit : R s₀ t₀)
    (hok : ∀ e ∈ tr, Ok e.pre e.label) :
    ∃ tr' t, Exec step' t₀ tr' t ∧ R s t ∧ List.Forall₂ (Matched R Q) tr tr' := by
  induction h with
  | nil => exact ⟨[], t₀, .nil, hinit, .nil⟩
  | @snoc tr s s' i o hpath hstep ih =>
      obtain ⟨tr', t, hpath', hR, hall⟩ := ih fun e he => hok e (List.mem_append_left _ he)
      have hlast : Ok s i := hok ⟨s, i, o, s'⟩ (by simp)
      obtain ⟨o', t', hstep', hR', hQ⟩ := hsim hR hlast hstep
      refine ⟨tr' ++ [⟨t, i, o', t'⟩], t', hpath'.snoc hstep', hR', ?_⟩
      exact List.rel_append hall (.cons ⟨rfl, hR, hQ, hR'⟩ .nil)

/-- Matched histories have the same labels. -/
theorem labels_of_matched {tr : List (Event σ ι ω)} {tr' : List (Event τ ι ω')}
    (h : List.Forall₂ (Matched R Q) tr tr') : tr'.map Event.label = tr.map Event.label := by
  induction h with
  | nil => rfl
  | cons he _ ih => rw [List.map_cons, List.map_cons, he.label, ih]

/-- Where related outputs are equal, matched histories have the same outputs. -/
theorem outputs_of_matched {Q : σ → ι → ω → ω → Prop} (hQ : ∀ s i o o', Q s i o o' → o' = o)
    {tr : List (Event σ ι ω)} {tr' : List (Event τ ι ω)}
    (h : List.Forall₂ (Matched R Q) tr tr') : tr'.map Event.out = tr.map Event.out := by
  induction h with
  | nil => rfl
  | cons he _ ih => rw [List.map_cons, List.map_cons, hQ _ _ _ _ he.out, ih]

end Lib
