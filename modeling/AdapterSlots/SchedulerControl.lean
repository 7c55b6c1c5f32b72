import AdapterSlots.PiControl
import AdapterSlots.SchedulerHolding
import AdapterSlots.SchedulerWar

/-!
# The deadline of the PI scheduler

In the PI mode the scheduler closes a loop. The batch it emits has a WAR,
the controller turns it into `T_max`, and `T_max` is the deadline of the
next dispatch.

`deadline_follows_war` is about this loop: in every run the controller is
where the ratios of the emitted batches have led it, one observation for
each batch with a decode group, and the buffer works with its `T_max`.
From the first observation on it is at most `T_SLO`, so that it is the
deadline itself, and the gains are safe throughout.
-/

namespace AdapterSlots

open Lib AlignmentBuffer

variable {K : Type} [Field K] [LinearOrder K]

namespace AlignmentAwareScheduler

/-- The adapters of the decode groups of a batch. -/
def decodeNames (out : List SequenceGroup) : List String :=
  (out.filter fun g => g.isDecode).map SequenceGroup.adapterId

/-- The WAR of the decode groups of a batch, by the numbers of their adapters. -/
def emittedWar (cfg : Config K) (env : Env K) (out : List SequenceGroup) : K :=
  war cfg.warpSize ((decodeNames out).map (storedNumber env))

/-- What the controller observes in a run: the WAR of each batch with decode groups. -/
def observations (cfg : Config K) (env : Env K) (tr : TickHistory K) : List K :=
  ((tr.map Event.out).filter fun out => decide (decodeNames out ≠ [])).map (emittedWar cfg env)

section Tick

variable {cfg : Config K} {env : Env K} {s s' s₁ : AlignmentAwareScheduler K} {i : TickInput K}
  {call : DispatchCall K} {out : List SequenceGroup} {tr : TickHistory K}

theorem observations_snoc (tr : TickHistory K)
    (e : Event (AlignmentAwareScheduler K) (TickInput K) (List SequenceGroup)) :
    observations cfg env (tr ++ [e]) = observations cfg env tr
      ++ if decodeNames e.out = [] then [] else [emittedWar cfg env e.out] := by
  rw [observations, observations, List.map_append, List.filter_append, List.map_append]
  by_cases hnone : decodeNames e.out = []
  · simp [hnone]
  · simp [hnone]

/-! ## The names of a batch -/

/-- Prefills are not decode groups. -/
theorem decodeNames_out (hemit : Emitted cfg s i call s' out) :
    decodeNames out = (s.decodePart cfg i call).map SequenceGroup.adapterId := by
  have hpre : i.sel.prefillGroups.filter (fun g => g.isDecode) = [] :=
    List.filter_eq_nil_iff.mpr fun g hg => by simp [(mem_prefillGroups.mp hg).2]
  have hpart : (s.decodePart cfg i call).filter (fun g => g.isDecode) = s.decodePart cfg i call :=
    List.filter_eq_self.mpr fun g hg => (mem_decodeGroups.mp (mem_decodePart hg)).2
  rw [decodeNames, hemit.out_eq, List.filter_append, hpre, hpart, List.nil_append]

omit [Field K] [LinearOrder K] in
/-- A selection without decode groups has no names. -/
theorem decodeNames_of_nil (hnone : i.sel.decodeGroups = []) :
    decodeNames i.sel.scheduled = [] := by
  rw [decodeNames]
  exact congrArg (List.map SequenceGroup.adapterId) hnone

/-! ## One tick -/

theorem measuredWar_eq [IsStrictOrderedRing K] {W : ℕ} (hW : 0 < W) {names : List String} {w : K}
    (h : measuredWar env W names = .ok w) : w = war W (names.map (storedNumber env)) := by
  unfold measuredWar at h
  by_cases hfits : ∀ n ∈ names.map (adapterIdToInt env), Fits64 n
  · rw [computeWarFromIds_of_fits hW hfits, List.map_map] at h
    exact (Except.ok.inj h).symm
  · rw [computeWarFromIds_of_not_fits hfits] at h
    cases h

/-- The controller and `T_max` of the buffer. -/
def control (s : AlignmentAwareScheduler K) : PIController K × K := (s.piCtrl, s.buffer.tMax)

theorem control_logWarStats {batch : List SequenceGroup}
    (h : s.logWarStats cfg env batch = .ok s') : s'.control = s.control := by
  rcases logWarStats_eq h with rfl | rfl
  · rfl
  · have htMax : ∀ (groups : List SequenceGroup) (b : AlignmentBuffer K),
        (groups.foldl (fun b g => b.release g.seqGroupId) b).tMax = b.tMax := by
      intro groups
      induction groups with
      | nil => exact fun b => rfl
      | cons g gs ih => exact fun b => ih (b.release g.seqGroupId)
    exact Prod.ext rfl (htMax batch s.buffer)

theorem control_dropFinished : (s.dropFinished i).control = s.control := by
  unfold dropFinished
  split <;> rfl

theorem control_dispatch : (s.dispatch i call).1.control = s.control := by
  refine Prod.ext rfl ?_
  exact congrArg (fun l : ℕ × K × K => l.2.1) (limits_apply call s.buffer _ _)

/-- The update of a batch. -/
theorem control_updateTmax [IsStrictOrderedRing K] {batch : List SequenceGroup}
    (h : s.updateTmax env batch = .ok s') :
    s'.control = if batch = [] then s.control else
      let w := war s.buffer.W ((batch.map SequenceGroup.adapterId).map (storedNumber env))
      (s.piCtrl.update w, (s.piCtrl.update w).tmax) := by
  split
  · rename_i hnone
    rw [updateTmax, if_pos hnone] at h
    exact congrArg control (Except.ok.inj h).symm
  · rename_i hsome
    rw [updateTmax_eq env s hsome] at h
    cases hw : (measuredWar env s.buffer.W (batch.map SequenceGroup.adapterId) :
        Except PyError K) with
    | error _ =>
        rw [hw] at h
        cases h
    | ok w =>
        rw [hw] at h
        obtain rfl := Except.ok.inj h
        rw [← measuredWar_eq s.buffer.W_pos hw]
        rfl

/-- A PI tick feeds its batch to the controller. -/
theorem control_tick [IsStrictOrderedRing K] (hmode : cfg.mode = .piAdaptive)
    (hW : s.buffer.W = cfg.warpSize) (htick : Tick cfg env s i out s') :
    s'.control = if decodeNames out = [] then s.control else
      (s.piCtrl.update (emittedWar cfg env out),
        (s.piCtrl.update (emittedWar cfg env out)).tmax) := by
  rcases tick_cases htick with ⟨hnone, rfl, rfl⟩ | ⟨-, s₁, call, hprep, hspec, htail⟩
  · rw [if_pos (decodeNames_of_nil hnone)]
    rfl
  · have hnames := decodeNames_out (emitted_of_emitTick htail)
    rw [decodePart, drainedGroups_of_ne (by simp [hmode]), List.append_nil] at hnames
    simp only [prepareTick, hmode, prepareThreshold] at hprep
    obtain ⟨rfl, rfl⟩ := Prod.mk.inj (Except.ok.inj hprep)
    simp only [emitTick, hmode] at htail
    obtain ⟨s₂, htmax, htail⟩ := bind_eq_ok htail
    obtain ⟨s₃, hlog, htail⟩ := bind_eq_ok htail
    obtain ⟨rfl, -⟩ := Prod.mk.inj (Except.ok.inj htail)
    rw [control_logWarStats hlog, control_dropFinished, control_updateTmax htmax, control_dispatch]
    have hlimits := limits_enqueueGroups i.clock.enqueue (s.countCall.firstTimeGroups i) s.buffer
    have hcontrol : (s.countCall.enqueueDecodeGroups i (s.countCall.firstTimeGroups i)).control
        = s.control :=
      Prod.ext rfl (congrArg (fun l : ℕ × K × K => l.2.1) hlimits)
    have hwidth : ((s.countCall.enqueueDecodeGroups i (s.countCall.firstTimeGroups i)).dispatch i
        .threshold).1.buffer.W = cfg.warpSize := by
      refine (congrArg Prod.fst (limits_apply DispatchCall.threshold _ _ _)).trans ?_
      exact (congrArg Prod.fst hlimits).trans hW
    rw [hcontrol, hwidth, emittedWar, hnames]
    exact if_congr (List.map_eq_nil_iff.symm) rfl rfl

end Tick

/-! ## Runs -/

section Runs

variable [IsStrictOrderedRing K] {cfg : Config K} {env : Env K} {s : AlignmentAwareScheduler K}
  {tr : TickHistory K}

/-- The controller of a run. -/
theorem control_of_run (hmode : cfg.mode = .piAdaptive)
    (h : Exec (Tick cfg env) (init cfg) tr s) :
    s.piCtrl = (observations cfg env tr).foldl PIController.update (init cfg).piCtrl
      ∧ s.buffer.tMax = s.piCtrl.tmax := by
  induction h with
  | nil =>
      refine ⟨rfl, ?_⟩
      show (if cfg.mode = .piAdaptive then cfg.piTmaxInitMs else cfg.tmaxMs) / 1000 = _
      rw [if_pos hmode]
      rfl
  | @snoc tr s s' i out hpath htick ih =>
      have hW : s.buffer.W = cfg.warpSize := congrArg Prod.fst (settings_of_run hpath)
      have hstep := control_tick hmode hW htick
      rw [observations_snoc, List.foldl_append, ← ih.1]
      split at hstep
      · rename_i hnone
        rw [if_pos hnone]
        obtain ⟨hctrl, htMax⟩ := Prod.mk.inj hstep
        exact ⟨hctrl, htMax.trans (ih.2.trans (congrArg PIController.tmax hctrl).symm)⟩
      · rename_i hsome
        rw [if_neg hsome]
        obtain ⟨hctrl, htMax⟩ := Prod.mk.inj hstep
        exact ⟨hctrl, htMax.trans (congrArg PIController.tmax hctrl).symm⟩

omit [IsStrictOrderedRing K] in
/-- The controller is built with admissible parameters. -/
theorem piCtrl_init (cfg : Config K) :
    PIController.init cfg.piKp cfg.piKi cfg.warTarget (cfg.piTmaxInitMs / 1000) (1 / 1000)
      (cfg.ttftSloMs / 1000) (9 / 10) (1 / 5) = .ok (init cfg).piCtrl := by
  have hgains : ¬ (cfg.piKp ≤ 0 ∨ cfg.piKi ≤ 0) :=
    not_or.mpr ⟨not_le.mpr cfg.piKp_pos, not_le.mpr cfg.piKi_pos⟩
  rw [PIController.init, dif_neg hgains]
  rfl

omit [IsStrictOrderedRing K] in
theorem clipped_of_update (c : PIController K) (hle : c.tmaxMin ≤ c.tmaxMax) (w : K) :
    (c.update w).tmaxMin ≤ (c.update w).tmax ∧ (c.update w).tmax ≤ (c.update w).tmaxMax :=
  ⟨le_min (le_max_right _ _) hle, min_le_right _ _⟩

/-- Where the loop of a PI scheduler stands. -/
structure ClosesLoop (cfg : Config K) (env : Env K) (tr : TickHistory K)
    (s : AlignmentAwareScheduler K) : Prop where
  follows : s.piCtrl = (observations cfg env tr).foldl PIController.update (init cfg).piCtrl
  ratios : ∀ w ∈ observations cfg env tr, 0 ≤ w ∧ w ≤ 1
  gains : s.piCtrl.GainsSafe s.piCtrl.effectiveGains
  tMax : s.buffer.tMax = s.piCtrl.tmax
  clipped : observations cfg env tr ≠ [] → 1 ≤ cfg.ttftSloMs →
    1 / 1000 ≤ s.buffer.tMax ∧ s.buffer.tMax ≤ cfg.ttftSloMs / 1000
  deadline : observations cfg env tr ≠ [] → 1 ≤ cfg.ttftSloMs → ∀ k,
    DispatchCall.threshold.deadline s.buffer k = s.piCtrl.tmax

/-- **The loop is closed.** In every run of the PI scheduler the controller is where the
WARs of the emitted batches have led it, with safe gains, and the next
deadline is its `T_max`, which from the first observation on lies between
1 ms and `T_SLO`. -/
theorem deadline_follows_war (hmode : cfg.mode = .piAdaptive)
    (h : Exec (Tick cfg env) (init cfg) tr s) : ClosesLoop cfg env tr s := by
  obtain ⟨hctrl, htMax⟩ := control_of_run hmode h
  obtain ⟨hparams, hslope⟩ := PIController.slopeBetween_of_run (piCtrl_init cfg) (by norm_num)
    (by norm_num) (observations cfg env tr)
  rw [← hctrl] at hparams hslope
  obtain ⟨-, -, ⟨hmin, hmax⟩, hmargin, -⟩ := by
    simpa only [PIController.params, Prod.mk.injEq] using hparams
  have hclip : observations cfg env tr ≠ [] → 1 ≤ cfg.ttftSloMs →
      1 / 1000 ≤ s.piCtrl.tmax ∧ s.piCtrl.tmax ≤ cfg.ttftSloMs / 1000 := by
    intro hobs hone
    obtain ⟨wars, w, hsplit⟩ := (List.eq_nil_or_concat _).resolve_left hobs
    rw [hsplit, List.concat_eq_append, List.foldl_append] at hctrl
    have hwidth : s.piCtrl.tmaxMin ≤ s.piCtrl.tmaxMax := by
      rw [hmin, hmax]
      exact div_le_div_of_nonneg_right hone (by norm_num)
    have hmem := clipped_of_update (wars.foldl PIController.update (init cfg).piCtrl)
      (by rw [hctrl] at hwidth; exact hwidth) w
    rw [← hmin, ← hmax, hctrl]
    exact hmem
  have hslo : s.buffer.ttftSlo = cfg.ttftSloMs / 1000 := congrArg Prod.snd (settings_of_run h)
  refine ⟨hctrl, fun w hw => ?_, ?_, htMax, htMax.symm ▸ hclip, fun hobs hone k => ?_⟩
  · obtain ⟨out, -, rfl⟩ := List.mem_map.mp hw
    exact ⟨war_nonneg _, war_le_one _⟩
  · refine PIController.gainsSafe_effectiveGains ?_ fun L hL => (hslope L hL).1
    rw [hmargin]
    norm_num
  · show min s.buffer.tMax s.buffer.ttftSlo = _
    rw [htMax, hslo, min_eq_left (hclip hobs hone).2]

/-- Two observations in the run of `heldThenRun`. -/
theorem heldThenRun_closesLoop :
    ∃ tr s, Exec (Tick (Config.default .piAdaptive) sampleEnv) (init (Config.default .piAdaptive))
        tr s
      ∧ tr.map Event.label = heldThenRun
      ∧ (observations (Config.default .piAdaptive) sampleEnv tr).length = 2
      ∧ ClosesLoop (Config.default .piAdaptive) sampleEnv tr s := by
  obtain ⟨tr, s, hexec, hlabels, hnames⟩ := exists_run (Config.default .piAdaptive) sampleEnv
    heldThenRun (fun e => decodeNames e.out) (l := [[], ["b", "a"], ["a", "b"]]) (by decide +kernel)
  refine ⟨tr, s, hexec, hlabels, ?_, deadline_follows_war rfl hexec⟩
  have hlen : tr.length = 3 := by simpa [heldThenRun] using congrArg List.length hlabels
  obtain ⟨a, b, c, rfl⟩ := List.length_eq_three.mp hlen
  obtain ⟨ha, hb, hc⟩ : decodeNames a.out = [] ∧ decodeNames b.out = ["b", "a"]
      ∧ decodeNames c.out = ["a", "b"] := by simpa using hnames
  simp [observations, ha, hb, hc]

end Runs

end AlignmentAwareScheduler

end AdapterSlots
