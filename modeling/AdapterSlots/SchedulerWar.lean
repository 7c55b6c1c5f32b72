import AdapterSlots.SchedulerRun
import AdapterSlots.War

/-!
# The ratio the scheduler measures

The PI controller and the batch log read a WAR over adapter names: each name
is turned into a number (`_adapter_id_to_int`), and the numbers are compared
as 32-bit integers. Tokens of one adapter keep one number. The other way
round it depends on the names: the part behind the last underscore is all
that counts of a name that ends in digits.

`scheduler_war_iff` says for which batches the measured ratio is the one of
the adapters.
-/

namespace AdapterSlots

open Lib

variable {K : Type} [Field K]

/-- The number of an adapter as it is stored. -/
def storedNumber (env : Env K) (name : String) : ℤ := wrap32 (adapterIdToInt env name)

/-- The WAR of a batch of adapter names, as the PI tick and the batch log compute it. -/
def measuredWar (env : Env K) (W : ℕ) (names : List String) : Except PyError K :=
  computeWarFromIds (names.map (adapterIdToInt env)) W

/-- The ratio that `updateTmax` feeds to the controller. -/
theorem updateTmax_eq [LinearOrder K] (env : Env K) (s : AlignmentAwareScheduler K)
    {batch : List SequenceGroup} (hne : batch ≠ []) :
    s.updateTmax env batch
      = (measuredWar env s.buffer.W (batch.map SequenceGroup.adapterId)).map fun warObs =>
          let c := s.piCtrl.update warObs
          { s with piCtrl := c, buffer := { s.buffer with tMax := c.tmax } } := by
  unfold AlignmentAwareScheduler.updateTmax measuredWar
  rw [if_neg hne, List.map_map, Function.comp_def]
  cases (computeWarFromIds (batch.map fun g => adapterIdToInt env g.adapterId) s.buffer.W :
      Except PyError K) with
  | error _ => rfl
  | ok _ => rfl

theorem countP_eq_iff {α : Type} {p q : α → Bool} : ∀ {l : List α}, (∀ x ∈ l, p x → q x) →
    (l.countP p = l.countP q ↔ ∀ x ∈ l, q x → p x)
  | [], _ => iff_of_true rfl fun x hx => absurd hx List.not_mem_nil
  | a :: l, h => by
      have hle : l.countP p ≤ l.countP q :=
        List.countP_mono_left fun x hx => h x (List.mem_cons_of_mem _ hx)
      have ih := countP_eq_iff fun x hx => h x (List.mem_cons_of_mem _ hx)
      have ha := h a (List.mem_cons_self ..)
      rw [List.forall_mem_cons, ← ih, List.countP_cons, List.countP_cons]
      by_cases hq : q a = true
      · by_cases hp : p a = true
        · rw [if_pos hp, if_pos hq, Nat.add_right_cancel_iff]
          exact (and_iff_right fun _ => hp).symm
        · rw [if_neg hp, if_pos hq]
          exact iff_of_false (by omega) fun h => hp (h.1 hq)
      · rw [if_neg fun hp => hq (ha hp), if_neg hq]
        exact (and_iff_right fun h => absurd h hq).symm

section Names

variable {W : ℕ}

/-- Homogeneous by number. -/
theorem homogeneousWarps_map {A B : Type} [DecidableEq B] (f : A → B) (l : List A) :
    homogeneousWarps W (l.map f)
      = (warps W l).countP fun warp => decide (Homogeneous (warp.map f)) := by
  rw [homogeneousWarps, warps_map, List.countP_map]
  rfl

variable [LinearOrder K] [IsStrictOrderedRing K]

/-- Two ratios of one batch are equal when the counts are. -/
theorem war_eq_iff {A B : Type} [DecidableEq A] [DecidableEq B] {l : List A} {l' : List B}
    (hlen : l'.length = l.length) :
    (war W l' : K) = war W l ↔ homogeneousWarps W l' = homogeneousWarps W l := by
  unfold war
  rw [hlen]
  rcases Nat.eq_zero_or_pos (l.length / W) with hnone | hpos
  · have hzero := homogeneousWarps_le (W := W) l
    have hzero' := homogeneousWarps_le (W := W) l'
    rw [hlen] at hzero'
    rw [hnone] at hzero hzero' ⊢
    rw [Nat.le_zero.mp hzero, Nat.le_zero.mp hzero']
    exact iff_of_true rfl rfl
  · rw [div_left_inj' (Nat.cast_ne_zero.mpr hpos.ne'), Nat.cast_inj]

/-- **The measured WAR** is the WAR of the adapters exactly when every name has a number
that fits and no warp has several names stored under one number. -/
theorem scheduler_war_iff (env : Env K) (hW : 1 ≤ W) (names : List String) :
    measuredWar env W names = .ok (war W names)
      ↔ (∀ name ∈ names, Fits64 (adapterIdToInt env name))
        ∧ ∀ warp ∈ warps W names, Homogeneous (warp.map (storedNumber env)) → Homogeneous warp := by
  unfold measuredWar
  by_cases hfits : ∀ name ∈ names, Fits64 (adapterIdToInt env name)
  · have hstored : (names.map (adapterIdToInt env)).map wrap32 = names.map (storedNumber env) := by
      rw [List.map_map]
      rfl
    have hcounts : (war W (names.map (storedNumber env)) : K) = war W names
        ↔ homogeneousWarps W (names.map (storedNumber env)) = homogeneousWarps W names :=
      war_eq_iff (List.length_map _)
    rw [computeWarFromIds_of_fits hW (List.forall_mem_map.mpr hfits), hstored, and_iff_right hfits,
      Except.ok.injEq, hcounts, homogeneousWarps_map, homogeneousWarps, eq_comm, countP_eq_iff]
    · simp only [decide_eq_true_eq]
    · intro warp _ h
      exact decide_eq_true ((of_decide_eq_true h).map (storedNumber env))
  · rw [computeWarFromIds_of_not_fits fun h => hfits (List.forall_mem_map.mp h)]
    refine iff_of_false (fun h => ?_) fun h => hfits h.1
    cases h

end Names

/-! ### Names and numbers -/

open AlignmentAwareScheduler

/-- Different adapters of different numbers. -/
theorem distinctNumbers_measured :
    measuredWar sampleEnv 2 ["adapter_1", "adapter_1", "adapter_1", "adapter_2"]
      = .ok (war 2 ["adapter_1", "adapter_1", "adapter_1", "adapter_2"]) := by
  refine (scheduler_war_iff sampleEnv (by decide) _).mpr ⟨?_, ?_⟩
  · unfold Fits64
    decide +kernel
  · decide +kernel

/-- Two adapters of one number make a warp that counts as aligned. -/
theorem oneNumber_not_measured :
    ¬ ∀ (env : Env ℚ) (W : ℕ), 1 ≤ W → ∀ names : List String,
      measuredWar env W names = .ok (war W names) := by
  intro h
  have heq := h sampleEnv 2 (by decide) ["en_1", "fr_1"]
  exact absurd heq (by decide +kernel)

end AdapterSlots
