import Mathlib.Tactic.Linarith
import Mathlib.Tactic.Positivity
import AdapterSlots.Lib.Recurrence
import AdapterSlots.Policy

/-!
# PI control of the deadline

`pi_controller.py` over runs of `update` calls, in exact arithmetic.

Whatever WAR is observed, the controller stays in its safe region
(`pi_stays_safe`): the slope estimate is a mean of the finite-difference
samples, and the gains are scaled with it before they are used. The
divisions of the source are in `updateChecked`, which raises where Python
would; it never does.

On a linear plant the samples are the slope, so the gains are constant and
the error satisfies a linear recurrence of order two
(`error_recurrence`). The stability condition bounds its coefficients, and
`pi_converges_on_linear_plant` follows.
-/

namespace AdapterSlots

open Lib

namespace PIController

variable {K : Type} [Field K] [LinearOrder K]

/-- The constructor. -/
def init (kp ki warTarget tmaxInit tmaxMin tmaxMax margin slopeAlpha : K) :
    Except PyError (PIController K) :=
  if h : kp ≤ 0 ∨ ki ≤ 0 then .error .valueError
  else
    .ok ⟨kp, ki, not_le.mp (not_or.mp h).1, not_le.mp (not_or.mp h).2, warTarget, tmaxInit, tmaxMin,
      tmaxMax, margin, slopeAlpha, none, none⟩

/-! ## The parts of an update -/

/-- The finite-difference sample an update takes; `none` when `T_max` barely moved. -/
def sample (c : PIController K) (war : K) : Option K :=
  match c.prev with
  | none => none
  | some p => if |c.tmax - p.tmax| < 1 / 10 ^ 6 then none
      else some |(war - p.war) / (c.tmax - p.tmax)|

/-- The gains an update uses: those of the new slope. -/
def gainsUsed (c : PIController K) (war : K) : K × K :=
  ({ c with L := c.nextSlope war } : PIController K).effectiveGains

/-- `T_max` before it is clipped. -/
def unclipped (c : PIController K) (war : K) : K :=
  let e := c.warTarget - war
  let de := match c.prev with
    | none => 0
    | some p => e - p.error
  c.tmax + (c.gainsUsed war).1 * de + (c.gainsUsed war).2 * e

@[simp] theorem L_update (c : PIController K) (war : K) : (c.update war).L = c.nextSlope war := rfl

@[simp] theorem prev_update (c : PIController K) (war : K) :
    (c.update war).prev = some ⟨c.warTarget - war, war, c.tmax⟩ := rfl

theorem tmax_update (c : PIController K) (war : K) :
    (c.update war).tmax = min (max (c.unclipped war) c.tmaxMin) c.tmaxMax := rfl

/-- What the controller was built with. -/
def params (c : PIController K) : (K × K) × K × (K × K) × K × K :=
  ((c.kp, c.ki), c.warTarget, (c.tmaxMin, c.tmaxMax), c.margin, c.slopeAlpha)

theorem params_update (c : PIController K) (war : K) : (c.update war).params = c.params := rfl

theorem nextSlope_eq_sample (c : PIController K) (war : K) :
    c.nextSlope war = match c.sample war with
      | none => c.L
      | some s => some (match c.L with
          | none => s
          | some L => (1 - c.slopeAlpha) * L + c.slopeAlpha * s) := by
  unfold nextSlope sample
  cases c.prev with
  | none => rfl
  | some p =>
      simp only
      split <;> rfl

/-! ## Division -/

/-- Python's `/`. -/
def divide (a b : K) : Except PyError K :=
  if b = 0 then .error .zeroDivisionError else .ok (a / b)

def effectiveGainsChecked (c : PIController K) : Except PyError (K × K) :=
  match c.L with
  | none => pure (c.kp, c.ki)
  | some L =>
      if L = 0 then pure (c.kp, c.ki)
      else do
        let bound ← divide (c.margin * 2) L
        let total := 2 * c.kp + c.ki
        if total ≤ bound then pure (c.kp, c.ki)
        else do
          let scale ← divide bound total
          pure (c.kp * scale, c.ki * scale)

def nextSlopeChecked (c : PIController K) (war : K) : Except PyError (Option K) :=
  match c.prev with
  | none => pure c.L
  | some p =>
      let dTmax := c.tmax - p.tmax
      if |dTmax| < 1 / 10 ^ 6 then pure c.L
      else do
        let quotient ← divide (war - p.war) dTmax
        let sample := |quotient|
        pure (some (match c.L with
          | none => sample
          | some L => (1 - c.slopeAlpha) * L + c.slopeAlpha * sample))

/-- `update` with the divisions as Python makes them. -/
def updateChecked (c : PIController K) (warObserved : K) : Except PyError (PIController K) := do
  let L ← c.nextSlopeChecked warObserved
  let c' : PIController K := { c with L := L }
  let gains ← c'.effectiveGainsChecked
  let e := c.warTarget - warObserved
  let de := match c.prev with
    | none => 0
    | some p => e - p.error
  pure { c' with
    prev := some ⟨e, warObserved, c.tmax⟩
    tmax := min (max (c.tmax + gains.1 * de + gains.2 * e) c.tmaxMin) c.tmaxMax }

section Checked

variable [IsStrictOrderedRing K]

theorem total_pos (c : PIController K) : 0 < 2 * c.kp + c.ki := by
  have := c.kp_pos
  have := c.ki_pos
  positivity

omit [IsStrictOrderedRing K] in
theorem divide_of_ne {a b : K} (h : b ≠ 0) : divide a b = .ok (a / b) := if_neg h

theorem effectiveGainsChecked_eq (c : PIController K) :
    c.effectiveGainsChecked = .ok c.effectiveGains := by
  unfold effectiveGainsChecked effectiveGains
  cases c.L with
  | none => rfl
  | some L =>
      by_cases hL : L = 0
      · simp only [if_pos hL]
        rfl
      · simp only [if_neg hL, divide_of_ne hL, divide_of_ne c.total_pos.ne']
        show (if _ then _ else _) = Except.ok (if _ then _ else _)
        split <;> rfl

/-- A step of `T_max` that is not skipped is not zero. -/
theorem ne_zero_of_moved {d : K} (h : ¬ |d| < 1 / 10 ^ 6) : d ≠ 0 := by
  rintro rfl
  rw [abs_zero] at h
  exact h (by positivity)

theorem nextSlopeChecked_eq (c : PIController K) (war : K) :
    c.nextSlopeChecked war = .ok (c.nextSlope war) := by
  unfold nextSlopeChecked nextSlope
  cases c.prev with
  | none => rfl
  | some p =>
      by_cases hmoved : |c.tmax - p.tmax| < 1 / 10 ^ 6
      · simp only [if_pos hmoved]
        rfl
      · simp only [if_neg hmoved, divide_of_ne (ne_zero_of_moved hmoved)]
        rfl

/-- No update divides by zero. -/
theorem updateChecked_eq (c : PIController K) (war : K) :
    c.updateChecked war = .ok (c.update war) := by
  unfold updateChecked
  rw [nextSlopeChecked_eq]
  show (effectiveGainsChecked _ >>= _) = _
  rw [effectiveGainsChecked_eq]
  rfl

end Checked

/-! ## The safe region -/

section Safe

variable [IsStrictOrderedRing K]

/-- Gains that may be used with the configured ones of `c` and its slope. -/
structure GainsSafe (c : PIController K) (gains : K × K) : Prop where
  kp_pos : 0 < gains.1
  ki_pos : 0 < gains.2
  ratio : gains.1 / gains.2 = c.kp / c.ki
  kp_le : gains.1 ≤ c.kp
  ki_le : gains.2 ≤ c.ki
  stable : ∀ L, c.L = some L → 0 < L → 2 * gains.1 + gains.2 ≤ c.margin * 2 / L

omit [IsStrictOrderedRing K] in
theorem gainsSafe_configured {c : PIController K}
    (h : ∀ L, c.L = some L → 0 < L → 2 * c.kp + c.ki ≤ c.margin * 2 / L) :
    c.GainsSafe (c.kp, c.ki) :=
  ⟨c.kp_pos, c.ki_pos, rfl, le_rfl, le_rfl, h⟩

/-- Scaling down to the bound of the slope. -/
theorem gainsSafe_effectiveGains {c : PIController K} (hmargin : 0 < c.margin)
    (hL : ∀ L, c.L = some L → 0 ≤ L) : c.GainsSafe c.effectiveGains := by
  unfold effectiveGains
  cases hslope : c.L with
  | none =>
      refine gainsSafe_configured fun L h => ?_
      rw [hslope] at h
      cases h
  | some L =>
      simp only
      split
      · rename_i hzero
        refine gainsSafe_configured fun L' h hpos => ?_
        obtain rfl := Option.some.inj (hslope.symm.trans h)
        exact absurd hzero hpos.ne'
      · rename_i hne
        have hLpos : 0 < L := lt_of_le_of_ne (hL L hslope) (Ne.symm hne)
        have hbound : 0 < c.margin * 2 / L := div_pos (mul_pos hmargin two_pos) hLpos
        split
        · rename_i hle
          refine gainsSafe_configured fun L' h _ => ?_
          obtain rfl := Option.some.inj (hslope.symm.trans h)
          exact hle
        · rename_i hgt
          have htotal := c.total_pos
          have hscale : 0 < c.margin * 2 / L / (2 * c.kp + c.ki) := div_pos hbound htotal
          have hscale₁ : c.margin * 2 / L / (2 * c.kp + c.ki) ≤ 1 :=
            (div_le_one htotal).mpr (not_le.mp hgt).le
          refine ⟨mul_pos c.kp_pos hscale, mul_pos c.ki_pos hscale, ?_, ?_, ?_, fun L' h _ => ?_⟩
          · exact mul_div_mul_right _ _ hscale.ne'
          · exact mul_le_of_le_one_right c.kp_pos.le hscale₁
          · exact mul_le_of_le_one_right c.ki_pos.le hscale₁
          · obtain rfl := Option.some.inj (hslope.symm.trans h)
            refine le_of_eq ?_
            calc 2 * (c.kp * (c.margin * 2 / L / (2 * c.kp + c.ki)))
                  + c.ki * (c.margin * 2 / L / (2 * c.kp + c.ki))
              _ = (2 * c.kp + c.ki) * (c.margin * 2 / L / (2 * c.kp + c.ki)) := by ring
              _ = c.margin * 2 / L := mul_div_cancel₀ _ htotal.ne'

/-- The samples of a run of updates, in order. -/
def samples : PIController K → List K → List K
  | _, [] => []
  | c, war :: wars => (c.sample war).toList ++ samples (c.update war) wars

omit [IsStrictOrderedRing K] in
theorem samples_snoc (war : K) : ∀ (wars : List K) (c : PIController K),
    c.samples (wars ++ [war]) = c.samples wars ++ ((wars.foldl update c).sample war).toList
  | [], c => by simp [samples]
  | w :: wars, c => by
      rw [List.cons_append, samples, samples_snoc war wars, samples, List.append_assoc]
      rfl

/-- The estimate is not negative and lies between two of the samples. -/
def SlopeBetween (seen : List K) (slope : Option K) : Prop :=
  ∀ L, slope = some L → 0 ≤ L ∧ (∃ s ∈ seen, s ≤ L) ∧ ∃ s ∈ seen, L ≤ s

theorem sample_nonneg {c : PIController K} {war s : K}
    (h : c.sample war = some s) : 0 ≤ s := by
  unfold sample at h
  cases hp : c.prev with
  | none => rw [hp] at h; cases h
  | some p =>
      rw [hp] at h
      simp only at h
      split at h
      · cases h
      · obtain rfl := Option.some.inj h
        exact abs_nonneg _

/-- A mean of the estimate and a new sample stays between the samples. -/
theorem SlopeBetween.update {c : PIController K} {seen : List K} (hα₀ : 0 ≤ c.slopeAlpha)
    (hα₁ : c.slopeAlpha ≤ 1) (h : SlopeBetween seen c.L) (war : K) :
    SlopeBetween (seen ++ (c.sample war).toList) (c.nextSlope war) := by
  rw [nextSlope_eq_sample]
  intro L hL
  cases hs : c.sample war with
  | none =>
      rw [hs] at hL
      obtain ⟨hnonneg, hlo, hhi⟩ := h L hL
      exact ⟨hnonneg, by simpa using hlo, by simpa using hhi⟩
  | some s =>
      have hs₀ := sample_nonneg hs
      have hmem : s ∈ seen ++ (some s).toList := by simp
      rw [hs] at hL
      cases hprev : c.L with
      | none =>
          rw [hprev] at hL
          obtain rfl := Option.some.inj hL
          exact ⟨hs₀, ⟨_, hmem, le_rfl⟩, _, hmem, le_rfl⟩
      | some L' =>
          rw [hprev] at hL
          obtain ⟨hnonneg, ⟨lo, hlo, hloL⟩, hi, hhi, hLhi⟩ := h L' hprev
          have hweight : 0 ≤ 1 - c.slopeAlpha := sub_nonneg.mpr hα₁
          have hmean : L = (1 - c.slopeAlpha) * L' + c.slopeAlpha * s :=
            (Option.some.inj hL).symm
          have hmin : min L' s ≤ L := by
            have h₁ := mul_le_mul_of_nonneg_left (min_le_left L' s) hweight
            have h₂ := mul_le_mul_of_nonneg_left (min_le_right L' s) hα₀
            rw [hmean]
            linarith
          have hmax : L ≤ max L' s := by
            have h₁ := mul_le_mul_of_nonneg_left (le_max_left L' s) hweight
            have h₂ := mul_le_mul_of_nonneg_left (le_max_right L' s) hα₀
            rw [hmean]
            linarith
          refine ⟨(le_min hnonneg hs₀).trans hmin, ?_, ?_⟩
          · rcases min_choice L' s with heq | heq
            · exact ⟨lo, List.mem_append_left _ hlo, hloL.trans (heq ▸ hmin)⟩
            · exact ⟨s, hmem, heq ▸ hmin⟩
          · rcases max_choice L' s with heq | heq
            · exact ⟨hi, List.mem_append_left _ hhi, (heq ▸ hmax).trans hLhi⟩
            · exact ⟨s, hmem, heq ▸ hmax⟩

/-- What holds of one update; `seen` are the samples up to and including its own. -/
structure UpdateSafe (kp ki tmaxMin tmaxMax margin : K) (seen : List K) (c : PIController K)
    (war : K) : Prop where
  tmax_ge : tmaxMin ≤ (c.update war).tmax
  tmax_le : (c.update war).tmax ≤ tmaxMax
  slope : ∀ L, (c.update war).L = some L →
    0 ≤ L ∧ (∃ s ∈ seen, s ≤ L) ∧ ∃ s ∈ seen, L ≤ s
  kp_pos : 0 < (c.gainsUsed war).1
  ki_pos : 0 < (c.gainsUsed war).2
  ratio : (c.gainsUsed war).1 / (c.gainsUsed war).2 = kp / ki
  kp_le : (c.gainsUsed war).1 ≤ kp
  ki_le : (c.gainsUsed war).2 ≤ ki
  stable : ∀ L, (c.update war).L = some L → 0 < L →
    2 * (c.gainsUsed war).1 + (c.gainsUsed war).2 ≤ margin * 2 / L
  no_division_by_zero : c.updateChecked war = .ok (c.update war)

variable {kp ki warTarget tmaxInit tmaxMin tmaxMax margin slopeAlpha : K} {c₀ : PIController K}

/-- Every update keeps the parameters and the slope between the samples. -/
theorem slopeBetween_of_run
    (h : init kp ki warTarget tmaxInit tmaxMin tmaxMax margin slopeAlpha = .ok c₀)
    (hα₀ : 0 ≤ slopeAlpha) (hα₁ : slopeAlpha ≤ 1) (wars : List K) :
    (wars.foldl update c₀).params
        = ((kp, ki), warTarget, (tmaxMin, tmaxMax), margin, slopeAlpha)
      ∧ SlopeBetween (c₀.samples wars) (wars.foldl update c₀).L := by
  unfold init at h
  split at h
  · cases h
  · obtain rfl := Except.ok.inj h
    induction wars using List.reverseRecOn with
    | nil => exact ⟨rfl, fun L hL => by cases hL⟩
    | append_singleton wars war ih =>
        obtain ⟨hparams, hslope⟩ := ih
        have hα : (wars.foldl update _).slopeAlpha = slopeAlpha :=
          congrArg (fun q : (K × K) × K × (K × K) × K × K => q.2.2.2.2) hparams
        rw [List.foldl_append, samples_snoc]
        refine ⟨(params_update _ war).trans hparams, ?_⟩
        exact hslope.update (hα.symm ▸ hα₀) (hα.symm ▸ hα₁) war

/-- **The safe region**: every update of every sequence of observations. -/
theorem pi_stays_safe
    (h : init kp ki warTarget tmaxInit tmaxMin tmaxMax margin slopeAlpha = .ok c₀)
    (hbounds : tmaxMin ≤ tmaxMax) (hmargin : 0 < margin) (hα₀ : 0 ≤ slopeAlpha)
    (hα₁ : slopeAlpha ≤ 1) (wars : List K) (war : K) :
    UpdateSafe kp ki tmaxMin tmaxMax margin (c₀.samples (wars ++ [war])) (wars.foldl update c₀)
      war := by
  obtain ⟨hparams, -⟩ := slopeBetween_of_run h hα₀ hα₁ wars
  obtain ⟨-, hslope⟩ := slopeBetween_of_run h hα₀ hα₁ (wars ++ [war])
  rw [List.foldl_append] at hslope
  obtain ⟨hkpki, -, hclip, hm, -⟩ := by simpa only [params, Prod.mk.injEq] using hparams
  obtain ⟨⟨hkp, hki⟩, ⟨hmin, hmax⟩⟩ := And.intro hkpki hclip
  have hgains : GainsSafe
      { wars.foldl update c₀ with L := (wars.foldl update c₀).nextSlope war }
      ((wars.foldl update c₀).gainsUsed war) :=
    gainsSafe_effectiveGains (hm.symm ▸ hmargin) fun L hL => (hslope L hL).1
  refine ⟨?_, ?_, hslope, hgains.kp_pos, hgains.ki_pos, ?_, ?_, ?_, ?_, updateChecked_eq _ war⟩
  · rw [tmax_update, hmin, hmax]
    exact le_min (le_max_right _ _) hbounds
  · rw [tmax_update, hmax]
    exact min_le_right _ _
  · rw [hgains.ratio]
    simp only [hkp, hki]
  · exact hgains.kp_le.trans_eq hkp
  · exact hgains.ki_le.trans_eq hki
  · intro L hL hpos
    have := hgains.stable L hL hpos
    rwa [show _ = margin from hm] at this

/-- `T_max` starts at 5 ms. -/
def sampleController : PIController ℚ :=
  ⟨1 / 50, 1 / 200, by norm_num, by norm_num, 4 / 5, 1 / 200, 1 / 1000, 5, 9 / 10, 1 / 5, none,
    none⟩

/-- Two observations: the second one brings a slope of 80. -/
theorem twoObservations_safe :
    init (1 / 50) (1 / 200) (4 / 5) (1 / 200) (1 / 1000) 5 (9 / 10) (1 / 5) = .ok sampleController
      ∧ UpdateSafe (1 / 50) (1 / 200) (1 / 1000) 5 (9 / 10)
        (sampleController.samples ([3 / 10] ++ [1 / 2])) ([3 / 10].foldl update sampleController)
        (1 / 2)
      ∧ sampleController.samples [3 / 10, 1 / 2] = [80] := by
  have h : init (1 / 50) (1 / 200) (4 / 5) (1 / 200) (1 / 1000) 5 (9 / 10) (1 / 5)
      = .ok sampleController := dif_neg (by norm_num)
  refine ⟨h, ?_, by decide +kernel⟩
  exact pi_stays_safe h (by norm_num) (by norm_num) (by norm_num) (by norm_num) [3 / 10] (1 / 2)

end Safe

/-! ## The linear plant -/

section Plant

variable [IsStrictOrderedRing K]

/-- The previous observation lies on the plant, and its slope is the estimate. -/
structure OnPlant (L offset : K) (c : PIController K) : Prop where
  slope : c.L = some L
  prev : ∃ p, c.prev = some p ∧ p.war = offset + L * p.tmax

/-- One update with the WAR of the plant. -/
def plantStep (L offset : K) (c : PIController K) : PIController K :=
  c.update (offset + L * c.tmax)

/-- The error the next update sees. -/
def plantError (L offset : K) (c : PIController K) : K := c.warTarget - (offset + L * c.tmax)

/-- `T_max` is not clipped by the next update. -/
def Unsaturated (L offset : K) (c : PIController K) : Prop :=
  c.tmaxMin ≤ c.unclipped (offset + L * c.tmax) ∧ c.unclipped (offset + L * c.tmax) ≤ c.tmaxMax

variable {L offset : K} {c : PIController K}

/-- Every sample on the plant is its slope. -/
theorem OnPlant.nextSlope (hL : 0 < L) (h : OnPlant L offset c) :
    c.nextSlope (offset + L * c.tmax) = some L := by
  obtain ⟨p, hp, hwar⟩ := h.prev
  rw [nextSlope_eq_sample, sample, hp, h.slope]
  simp only
  split
  · rfl
  · rename_i s hs
    split at hs
    · cases hs
    · rename_i hmoved
      have hquot : (offset + L * c.tmax - p.war) / (c.tmax - p.tmax) = L := by
        rw [hwar, div_eq_iff (ne_zero_of_moved hmoved)]
        ring
      rw [hquot, abs_of_pos hL] at hs
      obtain rfl := Option.some.inj hs
      exact congrArg some (by ring)

theorem OnPlant.step (hL : 0 < L) (h : OnPlant L offset c) :
    OnPlant L offset (plantStep L offset c) :=
  ⟨h.nextSlope hL, _, rfl, rfl⟩

omit [IsStrictOrderedRing K] in
/-- The gains depend on the parameters and the slope. -/
theorem effectiveGains_congr {c c' : PIController K} (hparams : c.params = c'.params)
    (hL : c.L = c'.L) : c.effectiveGains = c'.effectiveGains := by
  simp only [params, Prod.mk.injEq] at hparams
  obtain ⟨⟨hkp, hki⟩, -, -, hmargin, -⟩ := hparams
  simp only [effectiveGains, hkp, hki, hmargin, hL]

theorem OnPlant.gainsUsed (hL : 0 < L) (h : OnPlant L offset c) :
    c.gainsUsed (offset + L * c.tmax) = c.effectiveGains :=
  effectiveGains_congr rfl ((h.nextSlope hL).trans h.slope.symm)

omit [IsStrictOrderedRing K] in
theorem plantError_step (hclip : Unsaturated L offset c) :
    plantError L offset (plantStep L offset c)
      = c.warTarget - (offset + L * c.unclipped (offset + L * c.tmax)) := by
  have htmax : (plantStep L offset c).tmax = c.unclipped (offset + L * c.tmax) := by
    rw [plantStep, tmax_update, max_eq_left hclip.1, min_eq_left hclip.2]
  rw [plantError, htmax]
  rfl

/-- The recurrence of Theorem 2: two updates, with the gains of the first state. -/
theorem error_recurrence (hL : 0 < L) (h : OnPlant L offset c)
    (hclip : Unsaturated L offset (plantStep L offset c)) :
    plantError L offset (plantStep L offset (plantStep L offset c))
      = (1 - L * c.effectiveGains.1 - L * c.effectiveGains.2)
          * plantError L offset (plantStep L offset c)
        + L * c.effectiveGains.1 * plantError L offset c := by
  have hgains : (plantStep L offset c).gainsUsed (offset + L * (plantStep L offset c).tmax)
      = c.effectiveGains := by
    rw [(h.step hL).gainsUsed hL]
    exact effectiveGains_congr (params_update c _) ((h.step hL).slope.trans h.slope.symm)
  have hprev : (plantStep L offset c).prev
      = some ⟨plantError L offset c, offset + L * c.tmax, c.tmax⟩ := rfl
  rw [plantError_step hclip]
  simp only [unclipped, hgains, hprev]
  unfold plantError
  ring

/-- The state after `n` updates. -/
def plantRun (L offset : K) (c : PIController K) (n : ℕ) : PIController K :=
  (plantStep L offset)^[n] c

omit [IsStrictOrderedRing K] in
theorem plantRun_succ (L offset : K) (c : PIController K) (n : ℕ) :
    plantRun L offset c (n + 1) = plantStep L offset (plantRun L offset c n) :=
  Function.iterate_succ_apply' ..

theorem OnPlant.run (hL : 0 < L) (h : OnPlant L offset c) : ∀ n,
    OnPlant L offset (plantRun L offset c n) ∧ (plantRun L offset c n).params = c.params
  | 0 => ⟨h, rfl⟩
  | n + 1 => by
      obtain ⟨hon, hparams⟩ := OnPlant.run hL h n
      rw [plantRun_succ]
      exact ⟨hon.step hL, (params_update _ _).trans hparams⟩

theorem OnPlant.gains_run (hL : 0 < L) (h : OnPlant L offset c) (n : ℕ) :
    (plantRun L offset c n).effectiveGains = c.effectiveGains :=
  effectiveGains_congr (h.run hL n).2 ((h.run hL n).1.slope.trans h.slope.symm)

/-- The stability condition bounds the coefficients of the recurrence. -/
theorem abs_coefficients_lt_one {a b : K} (ha : 0 < a) (hb : 0 < b) (h : 2 * a + b < 2) :
    |1 - a - b| + |a| < 1 := by
  rw [abs_of_pos ha]
  rcases abs_cases (1 - a - b) with ⟨heq, -⟩ | ⟨heq, -⟩
  · rw [heq]
    linarith
  · rw [heq]
    linarith

end Plant

/-- **Theorem 2** for the code: on a linear plant the slope and the gains stay, and
the error tends to zero. -/
theorem pi_converges_on_linear_plant {L offset : ℝ} {c₀ : PIController ℝ} (hL : 0 < L)
    (h : OnPlant L offset c₀) (hmargin₀ : 0 < c₀.margin) (hmargin₁ : c₀.margin < 1)
    (hclip : ∀ n, Unsaturated L offset (plantRun L offset c₀ n)) :
    (∀ n, (plantRun L offset c₀ n).L = some L)
      ∧ (∀ n, (plantRun L offset c₀ n).gainsUsed (offset + L * (plantRun L offset c₀ n).tmax)
          = c₀.effectiveGains)
      ∧ 2 * c₀.effectiveGains.1 + c₀.effectiveGains.2 < 2 / L
      ∧ Filter.Tendsto (fun n => plantError L offset (plantRun L offset c₀ n)) Filter.atTop
          (nhds 0) := by
  have hsafe : c₀.GainsSafe c₀.effectiveGains := by
    refine gainsSafe_effectiveGains hmargin₀ fun L' hL' => ?_
    obtain rfl := Option.some.inj (h.slope.symm.trans hL')
    exact hL.le
  have hstable : 2 * c₀.effectiveGains.1 + c₀.effectiveGains.2 < 2 / L := by
    refine (hsafe.stable L h.slope hL).trans_lt ?_
    exact div_lt_div_of_pos_right (by linarith) hL
  refine ⟨fun n => (h.run hL n).1.slope, fun n => ?_, hstable, ?_⟩
  · rw [(h.run hL n).1.gainsUsed hL, h.gains_run hL n]
  · have hcoeff : |1 - L * c₀.effectiveGains.1 - L * c₀.effectiveGains.2|
        + |L * c₀.effectiveGains.1| < 1 := by
      refine abs_coefficients_lt_one (mul_pos hL hsafe.kp_pos) (mul_pos hL hsafe.ki_pos) ?_
      have := (lt_div_iff₀ hL).mp hstable
      linarith
    refine tendsto_zero_of_recurrence hcoeff fun n => ?_
    have hnext : Unsaturated L offset (plantStep L offset (plantRun L offset c₀ n)) := by
      rw [← plantRun_succ]
      exact hclip (n + 1)
    rw [plantRun_succ, plantRun_succ, error_recurrence hL (h.run hL n).1 hnext, h.gains_run hL n]

/-! ### A plant of slope one -/

/-- The error halves with every update: `T_max = 1 - (1/2)^n` after `n` of them. -/
noncomputable def halvingState (n : ℕ) : PIController ℝ where
  kp := 1 / 4
  ki := 1 - 1 / 4
  kp_pos := by norm_num
  ki_pos := by norm_num
  warTarget := 1
  tmax := 1 - (1 / 2) ^ (n + 1)
  tmaxMin := 0
  tmaxMax := 2
  margin := 7 / 8
  slopeAlpha := 1 / 4
  L := some 1
  prev := some ⟨(1 / 2) ^ n, 1 - (1 / 2) ^ n, 1 - (1 / 2) ^ n⟩

theorem halvingState_onPlant (n : ℕ) : OnPlant 1 0 (halvingState n) :=
  ⟨rfl, _, rfl, by simp⟩

theorem unclipped_halvingState (n : ℕ) :
    (halvingState n).unclipped (0 + 1 * (halvingState n).tmax) = 1 - (1 / 2) ^ (n + 2) := by
  have hgains : (halvingState n).effectiveGains = (1 / 4, 3 / 4) := by
    unfold effectiveGains halvingState
    norm_num
  rw [unclipped, (halvingState_onPlant n).gainsUsed one_pos, hgains]
  simp only [halvingState]
  ring

theorem unsaturated_halvingState (n : ℕ) : Unsaturated 1 0 (halvingState n) := by
  have hpos : (0 : ℝ) < (1 / 2) ^ (n + 2) := by positivity
  have hle : ((1 : ℝ) / 2) ^ (n + 2) ≤ 1 := pow_le_one₀ (by norm_num) (by norm_num)
  rw [Unsaturated, unclipped_halvingState]
  simp only [halvingState]
  constructor <;> linarith

theorem plantStep_halvingState (n : ℕ) :
    plantStep 1 0 (halvingState n) = halvingState (n + 1) := by
  have hclip := unsaturated_halvingState n
  have htmax : (plantStep 1 0 (halvingState n)).tmax = 1 - (1 / 2) ^ (n + 2) := by
    rw [plantStep, tmax_update, max_eq_left hclip.1, min_eq_left hclip.2, unclipped_halvingState]
  have hslope : (plantStep 1 0 (halvingState n)).L = some 1 :=
    (halvingState_onPlant n).nextSlope one_pos
  have hprev : (plantStep 1 0 (halvingState n)).prev
      = some ⟨(1 / 2) ^ (n + 1), 1 - (1 / 2) ^ (n + 1), 1 - (1 / 2) ^ (n + 1)⟩ := by
    rw [plantStep, prev_update]
    simp [halvingState]
  calc plantStep 1 0 (halvingState n)
    _ = { halvingState n with
          L := (plantStep 1 0 (halvingState n)).L
          prev := (plantStep 1 0 (halvingState n)).prev
          tmax := (plantStep 1 0 (halvingState n)).tmax } := rfl
    _ = halvingState (n + 1) := by
        rw [htmax, hslope, hprev]
        rfl

theorem plantRun_halvingState : ∀ n, plantRun 1 0 (halvingState 0) n = halvingState n
  | 0 => rfl
  | n + 1 => by rw [plantRun_succ, plantRun_halvingState n, plantStep_halvingState]

theorem halving_converges :
    2 * (halvingState 0).effectiveGains.1 + (halvingState 0).effectiveGains.2 < 2 / 1
      ∧ Filter.Tendsto (fun n => plantError 1 0 (plantRun 1 0 (halvingState 0) n)) Filter.atTop
          (nhds 0) := by
  refine (pi_converges_on_linear_plant one_pos (halvingState_onPlant 0) ?_ ?_ fun n => ?_).2.2
  · show (0 : ℝ) < 7 / 8
    norm_num
  · show (7 / 8 : ℝ) < 1
    norm_num
  · rw [plantRun_halvingState]
    exact unsaturated_halvingState n

end PIController

end AdapterSlots
