import AdapterSlots.SchedulerFrame
import AdapterSlots.SchedulerReturn

/-!
# Which inputs are served

Under a sound configuration one thing can stop the scheduler: the WAR of the
step is computed and one of the groups it is taken of has an adapter number
of more than 64 bits (`Overflows`). From every state a run reaches, a tick
raises in exactly this case, and it raises `OverflowError`. So every sequence
of inputs is served up to the first such tick.

Groups that wait in the buffer are not in the batch. A held sequence with a
wide number stops the scheduler only when it is dispatched.
-/

namespace AdapterSlots

open Lib AlignmentBuffer

variable {K : Type} [Field K] [LinearOrder K]

namespace AlignmentAwareScheduler

/-- The adapters of the groups have numbers of 64 bits. -/
def Narrow (env : Env K) (batch : List SequenceGroup) : Prop :=
  ∀ g ∈ batch, Fits64 (adapterIdToInt env g.adapterId)

/-- The groups the WAR of the step is taken of. -/
def warBatch (s : AlignmentAwareScheduler K) (i : TickInput K) (call : DispatchCall K) :
    List SequenceGroup :=
  sortByAdapter (s.postAlignmentGroups i) ++ s.alignedGroups i call

/-- The tick takes the WAR of a batch with a number that does not fit. -/
def Overflows (cfg : Config K) (env : Env K) (s : AlignmentAwareScheduler K) (i : TickInput K) :
    Prop :=
  i.sel.decodeGroups ≠ [] ∧ cfg.ReadsWar ∧ ∃ s₁ call,
    s.countCall.prepareTick cfg env i = .ok (s₁, call) ∧ ¬ Narrow env (s₁.warBatch i call)

section Tick

variable {cfg : Config K} {env : Env K} {s : AlignmentAwareScheduler K} {i : TickInput K}
  {call : DispatchCall K} {batch : List SequenceGroup} {e : PyError}

omit [LinearOrder K] in
theorem computeWarFromIds_error (W : ℕ) : (computeWarFromIds (K := K)
      (batch.map fun g => adapterIdToInt env g.adapterId) W) = .error e
    ↔ e = .overflowError ∧ ¬ Narrow env batch := by
  by_cases hfits : Narrow env batch
  · obtain ⟨w, hw, -⟩ := computeWarFromIds_returns (K := K) W (List.forall_mem_map.mpr hfits)
    rw [hw]
    exact iff_of_false (fun h => by cases h) fun h => h.2 hfits
  · rw [computeWarFromIds_of_not_fits fun h => hfits (List.forall_mem_map.mp h),
      and_iff_left hfits, Except.error.injEq, eq_comm]

theorem logWarStats_error : s.logWarStats cfg env batch = .error e
    ↔ cfg.logWar = true ∧ e = .overflowError ∧ ¬ Narrow env batch := by
  unfold logWarStats
  split
  · rename_i hlog
    rw [and_iff_right hlog, ← computeWarFromIds_error (K := K) s.buffer.W, bind_eq_error]
    refine or_iff_left ?_
    rintro ⟨w, -, h⟩
    cases h
  · rename_i hlog
    exact iff_of_false (fun h => by cases h) fun h => hlog h.1

/-- Without groups there is nothing to take the WAR of. -/
theorem updateTmax_error : s.updateTmax env batch = .error e
    ↔ e = .overflowError ∧ ¬ Narrow env batch := by
  unfold updateTmax
  split
  · rename_i hnil
    subst hnil
    exact iff_of_false (fun h => by cases h) fun h => h.2 fun g hg => by cases hg
  · rw [← computeWarFromIds_error (K := K) s.buffer.W, bind_eq_error]
    refine or_iff_left ?_
    rintro ⟨w, -, h⟩
    cases h

theorem emitBatch_error : s.emitBatch cfg env i call = .error e
    ↔ cfg.logWar = true ∧ e = .overflowError ∧ ¬ Narrow env (s.warBatch i call) := by
  rw [warBatch, alignedGroups, ← logWarStats_error (s := (s.dispatch i call).1)]
  refine bind_eq_error.trans (or_iff_left ?_)
  rintro ⟨s', -, h⟩
  cases h

theorem emitBatchWgkp_error : s.emitBatchWgkp cfg env i call = .error e
    ↔ cfg.logWar = true ∧ e = .overflowError ∧ ¬ Narrow env (s.warBatch i call) := by
  rw [warBatch, alignedGroups, ← logWarStats_error (s := (s.releaseEarly i (s.dispatch i call)).1)]
  refine bind_eq_error.trans (or_iff_left ?_)
  rintro ⟨s', -, h⟩
  cases h

/-- The PI tick takes the WAR first, and the log takes the WAR of the same batch. -/
theorem emitBatchPi_error : s.emitBatchPi cfg env i call = .error e
    ↔ e = .overflowError ∧ ¬ Narrow env (s.warBatch i call) := by
  rw [warBatch, alignedGroups, ← updateTmax_error (s := (s.dispatch i call).1)]
  refine bind_eq_error.trans (or_iff_left ?_)
  rintro ⟨s₁, hok, h⟩
  rcases bind_eq_error.mp h with hlog | ⟨s', -, h⟩
  · have hwide := (logWarStats_error.mp hlog).2
    rw [updateTmax_error.mpr hwide] at hok
    cases hok
  · cases h

theorem emitTick_error : s.emitTick cfg env i call = .error e
    ↔ cfg.ReadsWar ∧ e = .overflowError ∧ ¬ Narrow env (s.warBatch i call) := by
  unfold emitTick Config.ReadsWar
  cases hmode : cfg.mode with
  | piAdaptive => exact emitBatchPi_error.trans (and_iff_right (.inr rfl)).symm
  | wgkp => exact emitBatchWgkp_error.trans (and_congr_left' (or_iff_left (by simp)).symm)
  | threshold => exact emitBatch_error.trans (and_congr_left' (or_iff_left (by simp)).symm)
  | erlang => exact emitBatch_error.trans (and_congr_left' (or_iff_left (by simp)).symm)
  | cash => exact emitBatch_error.trans (and_congr_left' (or_iff_left (by simp)).symm)

/-- From a state whose warm set is as configured a tick raises exactly when it
overflows. -/
theorem Configured.tick_error (h : Configured cfg s) (hcfg : cfg.Sound) :
    s.schedule cfg env i = .error e ↔ e = .overflowError ∧ Overflows cfg env s i := by
  have hcount : Configured cfg s.countCall := h
  rw [schedule_eq]
  unfold scheduleInner Overflows
  split
  · rename_i hnone
    exact iff_of_false (fun h => by cases h) fun h => h.2.1 hnone
  · rename_i hsome
    have hret : Returns (s.countCall.prepareTick cfg env i) fun p => Configured cfg p.1 :=
      prepareTick_returns hcfg hcount
    obtain ⟨⟨s₁, call⟩, hprep, -⟩ := hret
    rw [hprep, and_iff_right hsome]
    show s₁.emitTick cfg env i call = .error e ↔ _
    rw [emitTick_error]
    constructor
    · rintro ⟨hreads, rfl, hwide⟩
      exact ⟨rfl, hreads, s₁, call, rfl, hwide⟩
    · rintro ⟨rfl, hreads, s₂, call₂, heq, hwide⟩
      obtain ⟨rfl, rfl⟩ := Prod.mk.inj (Except.ok.inj heq)
      exact ⟨hreads, rfl, hwide⟩

/-- The warm set works as configured after every tick that returns. -/
theorem Configured.tick {s' : AlignmentAwareScheduler K} {out : List SequenceGroup}
    (h : Configured cfg s) (hcfg : cfg.Sound) (htick : Tick cfg env s i out s') :
    Configured cfg s' := by
  have hcount : Configured cfg s.countCall := h
  rcases tick_cases htick with ⟨-, rfl, -⟩ | ⟨-, s₁, call, hprep, -, htail⟩
  · exact h
  · have hs₁ : Configured cfg s₁ := (prepareTick_returns hcfg hcount).of_eq hprep
    exact hs₁.of_eq (cacheMgr_emitTick htail)

end Tick

section Runs

variable {cfg : Config K} {env : Env K} {s : AlignmentAwareScheduler K} {tr : TickHistory K}

theorem configured_of_run (hcfg : cfg.Sound) (h : Exec (Tick cfg env) (init cfg) tr s) :
    Configured cfg s ∧ ∀ e ∈ tr, Configured cfg e.pre ∧ Configured cfg e.post :=
  h.invariant (Configured cfg) (fun _ _ => True) (fun _ _ _ _ hs _ htick => hs.tick hcfg htick)
    configured_init fun _ _ => trivial

/-- **What stops the scheduler.** Every sequence of inputs is served tick by tick, by
ticks that do not overflow, to its end or up to a tick that does, which
raises `OverflowError`. -/
theorem served_until_overflow (hcfg : cfg.Sound) (env : Env K) (is : List (TickInput K)) :
    ∃ is₁ is₂ tr s, is = is₁ ++ is₂ ∧ Exec (Tick cfg env) (init cfg) tr s
      ∧ tr.map Event.label = is₁ ∧ (∀ e ∈ tr, ¬ Overflows cfg env e.pre e.label)
      ∧ ∀ i ∈ is₂.head?,
          s.schedule cfg env i = .error .overflowError ∧ Overflows cfg env s i := by
  obtain ⟨is₁, is₂, tr, s, his, hexec, hlabels, hstop⟩ :=
    exec_until_error (fun s i => schedule cfg env s i) is (init cfg)
  have hrun : Exec (Tick cfg env) (init cfg) tr s := hexec
  obtain ⟨hs, hall⟩ := configured_of_run hcfg hrun
  refine ⟨is₁, is₂, tr, s, his, hrun, hlabels, fun e he hover => ?_, fun i hi => ?_⟩
  · have hraise := ((hall e he).1.tick_error hcfg).mpr ⟨rfl, hover⟩
    cases hraise.symm.trans (hrun.step_of_mem e he)
  · obtain ⟨e, he⟩ := hstop i hi
    obtain ⟨rfl, hover⟩ := (hs.tick_error hcfg).mp he
    exact ⟨he, hover⟩

/-- The second group has an adapter with the number `2 ^ 63`. The first tick holds it,
the second one dispatches it and raises. -/
def wideAdapter : List (TickInput ℚ) :=
  [sampleTick 0 [sampleGroup 1 "a_1" false, sampleGroup 2 "a_9223372036854775808" false]
      (by decide),
    sampleTick 1 [sampleGroup 1 "a_1" false, sampleGroup 2 "a_9223372036854775808" false]
      (by decide)]

theorem wideAdapter_served :
    let cfg := { Config.default .threshold with logWar := true }
    ∃ is₁ is₂ tr s, wideAdapter = is₁ ++ is₂ ∧ Exec (Tick cfg sampleEnv) (init cfg) tr s
      ∧ tr.map Event.label = is₁ ∧ (∀ e ∈ tr, ¬ Overflows cfg sampleEnv e.pre e.label)
      ∧ ∀ i ∈ is₂.head?,
          s.schedule cfg sampleEnv i = .error .overflowError ∧ Overflows cfg sampleEnv s i :=
  served_until_overflow ⟨fun h => absurd rfl h, fun h => by cases h⟩ sampleEnv wideAdapter

end Runs

end AlignmentAwareScheduler

end AdapterSlots
