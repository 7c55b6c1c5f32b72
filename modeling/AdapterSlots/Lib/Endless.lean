import Mathlib.Topology.Neighborhoods
import Mathlib.Order.Filter.AtTopBot.Basic

/-!
# Endless executions

`Endless step` is an execution of a labelled step relation that never stops,
with its state, label and output at every step number. Where a step is
always possible one exists along any labels (`Endless.exists_of_step`).

A quantity of the state may change at some steps `a 0 < a 1 < …` only. It
then has the values it takes after these steps (`eq_after_change`), and the
limit of these values (`tendsto_iff_of_changes`).
-/

namespace Lib

structure Endless {σ ι ω : Type} (step : σ → ι → ω → σ → Prop) where
  state : ℕ → σ
  label : ℕ → ι
  out : ℕ → ω
  step_at : ∀ m, step (state m) (label m) (out m) (state (m + 1))

/-- An invariant that lets the step with the next label happen, and survives it. -/
theorem Endless.exists_of_step {σ ι ω : Type} {step : σ → ι → ω → σ → Prop} (P : ℕ → σ → Prop)
    (label : ℕ → ι) {s₀ : σ} (h₀ : P 0 s₀)
    (h : ∀ m s, P m s → ∃ o s', step s (label m) o s' ∧ P (m + 1) s') :
    ∃ r : Endless step, r.state 0 = s₀ ∧ r.label = label ∧ ∀ m, P m (r.state m) := by
  choose out next hstep hnext using h
  let run : ∀ m, { s // P m s } := fun m =>
    m.rec ⟨s₀, h₀⟩ fun m s => ⟨next m s.1 s.2, hnext m s.1 s.2⟩
  exact ⟨⟨fun m => (run m).1, label, fun m => out m (run m).1 (run m).2,
    fun m => hstep m (run m).1 (run m).2⟩, rfl, rfl, fun m => (run m).2⟩

section Changes

variable {X : Type} {f : ℕ → X} {a : ℕ → ℕ}

/-- Every place after `a J` lies between two of the places. -/
theorem exists_between (ha : StrictMono a) {J m : ℕ} (hm : a J < m) :
    ∃ j, J ≤ j ∧ a j < m ∧ m ≤ a (j + 1) := by
  induction m, hm using Nat.le_induction with
  | base => exact ⟨J, le_rfl, Nat.lt_succ_self _, ha (Nat.lt_succ_self J)⟩
  | succ m _ ih =>
      obtain ⟨j, hJ, hlo, hhi⟩ := ih
      rcases Nat.lt_or_eq_of_le hhi with hlt | rfl
      · exact ⟨j, hJ, hlo.trans (Nat.lt_succ_self m), hlt⟩
      · exact ⟨j + 1, hJ.trans (Nat.le_succ j), Nat.lt_succ_self _, ha (Nat.lt_succ_self _)⟩

theorem eq_after_change (ha : StrictMono a)
    (h : ∀ m, a 0 ≤ m → m ∉ Set.range a → f (m + 1) = f m) {j m : ℕ} (hlo : a j < m)
    (hhi : m ≤ a (j + 1)) : f m = f (a j + 1) := by
  induction m, hlo using Nat.le_induction with
  | base => rfl
  | succ m hlo ih =>
      rw [h m ((ha.monotone (Nat.zero_le j)).trans (Nat.le_of_lt hlo)) ?_]
      · exact ih (Nat.le_of_lt hhi)
      · -- no place lies strictly between two neighbours
        rintro ⟨j', rfl⟩
        have hj : j < j' := ha.lt_iff_lt.mp hlo
        have hj' : j' < j + 1 := ha.lt_iff_lt.mp hhi
        omega

open Filter

/-- The limit is the one along the changes. -/
theorem tendsto_iff_of_changes [TopologicalSpace X] {x : X} (ha : StrictMono a)
    (h : ∀ m, a 0 ≤ m → m ∉ Set.range a → f (m + 1) = f m) :
    Tendsto f atTop (nhds x) ↔ Tendsto (fun j => f (a j + 1)) atTop (nhds x) := by
  constructor
  · intro hf
    exact hf.comp ((tendsto_add_atTop_nat 1).comp ha.tendsto_atTop)
  · intro hf
    refine tendsto_atTop'.mpr fun U hU => ?_
    obtain ⟨J, hJ⟩ := tendsto_atTop'.mp hf U hU
    refine ⟨a J + 1, fun m hm => ?_⟩
    obtain ⟨j, hj, hlo, hhi⟩ := exists_between ha hm
    rw [eq_after_change ha h hlo hhi]
    exact hJ j hj

end Changes

end Lib
