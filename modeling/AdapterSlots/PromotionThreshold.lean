import AdapterSlots.Lib.Windows
import AdapterSlots.SchedulerFrame

/-!
# The promotion threshold chosen at run time

`AdaptivePromoThreshold` (`apt.py`). The constructor reads a profile of the
hardware and keeps the batch sizes at which the GEMM path was measured to
pay (`Promotable`). Every wgkp tick with decode groups reports the mean queue
depth, and every hundredth report replaces the threshold.

`nStar_follows_depth` says which threshold each dispatch of a run is called
with: it depends on the last complete window of a hundred reports alone.
-/

namespace AdapterSlots

open Lib AlignmentBuffer

variable {K : Type} [Field K] [LinearOrder K]

/-! ## The hardware profile -/

/-- An entry of `crossover_curve`; both keys may be missing. -/
structure ProfileEntry (K : Type) where
  gemmFaster : Option Bool
  psiGemm : Option K

/-- `{int(k): v for k, v in raw_curve.items()}`. -/
def intKeys (rawCurve : Dict String (ProfileEntry K)) : Option (Dict ℤ (ProfileEntry K)) :=
  (rawCurve.entries.mapM fun e => (intOfString e.1).map fun n => (n, e.2)).map
    Dict.empty.insertAll

namespace AdaptivePromoThreshold

/-- The first profile that can be read; `read` gives the curve of a file and `none` for
a file that is missing or not JSON. -/
def firstProfile (read : String → Option (Dict String (ProfileEntry K))) :
    List String → Dict ℤ (ProfileEntry K)
  | [] => .empty
  | path :: paths =>
      if path = "" then firstProfile read paths
      else ((read path).bind intKeys).getD (firstProfile read paths)

/-- `_load_profile`: a path given by the caller is the only one that is tried. -/
def loadProfile (read : String → Option (Dict String (ProfileEntry K)))
    (hwProfilePath envPath defaultPath : String) : Dict ℤ (ProfileEntry K) :=
  if hwProfilePath = "" then firstProfile read [envPath, defaultPath]
  else firstProfile read [hwProfilePath]

/-- The filter of the constructor. -/
def passes (minSpeedup : K) (e : ProfileEntry K) : Bool :=
  e.gemmFaster.getD false && decide (minSpeedup ≤ e.psiGemm.getD 0)

/-- The batch sizes of `_sorted_thresholds`. -/
def sortThresholds (minSpeedup : K) (curve : Dict ℤ (ProfileEntry K)) : List ℤ :=
  sortByKey id ((curve.entries.filter fun e => passes minSpeedup e.2).map Prod.fst)

/-- The sizes of the object the scheduler builds, which passes the path of the environment
variable on and leaves the rest to the defaults. -/
def profileThresholds (read : String → Option (Dict String (ProfileEntry K)))
    (envPath defaultPath : String) : List ℤ :=
  sortThresholds (21 / 20) (loadProfile read envPath envPath defaultPath)

/-- The GEMM path was measured to pay at `n`. -/
def Promotable (minSpeedup : K) (curve : Dict ℤ (ProfileEntry K)) (n : ℤ) : Prop :=
  ∃ e, curve.get? n = some e ∧ passes minSpeedup e = true

theorem mem_sortThresholds {minSpeedup : K} {curve : Dict ℤ (ProfileEntry K)} {n : ℤ} :
    n ∈ sortThresholds minSpeedup curve ↔ Promotable minSpeedup curve n := by
  rw [sortThresholds, (sortByKey_perm _ _).mem_iff, List.mem_map]
  constructor
  · rintro ⟨⟨n, e⟩, he, rfl⟩
    obtain ⟨hmem, hpass⟩ := List.mem_filter.mp he
    exact ⟨e, Dict.mem_entries_iff.mp hmem, hpass⟩
  · rintro ⟨e, hget, hpass⟩
    exact ⟨(n, e), List.mem_filter.mpr ⟨Dict.mem_entries_iff.mpr hget, hpass⟩, rfl⟩

theorem pairwise_sortThresholds (minSpeedup : K) (curve : Dict ℤ (ProfileEntry K)) :
    (sortThresholds minSpeedup curve).Pairwise (· < ·) := by
  have hle : (sortThresholds minSpeedup curve).Pairwise (· ≤ ·) := pairwise_sortByKey id _
  have hnd : (sortThresholds minSpeedup curve).Nodup :=
    (sortByKey_perm id _).nodup_iff.mpr (curve.nodup.sublist (List.filter_sublist.map _))
  exact (hle.and hnd).imp fun h => lt_of_le_of_ne h.1 h.2

/-! ## The selection -/

/-- The largest promotable size up to the mean depth, else the warp size. -/
def Selects (P : ℤ → Prop) (mean : K) (n : ℤ) : Prop :=
  IsGreatest {m | P m ∧ (m : K) ≤ mean} n ∨ (∀ m, P m → mean < m) ∧ n = 32

/-- The threshold that follows from the last complete window of mean depths. -/
def Follows (P : ℤ → Prop) : Option (List K) → ℤ → Prop
  | none, n => IsLeast {m | P m} n ∨ (∀ m, ¬ P m) ∧ n = 32
  | some w, n => Selects P (w.sum / (w.length : K)) n

/-- In a sorted list a test that holds of small elements passes a prefix. -/
theorem mem_takeWhile_sorted {p : ℤ → Bool} (hp : ∀ m n, m ≤ n → p n = true → p m = true) :
    ∀ {l : List ℤ}, l.Pairwise (· < ·) → ∀ n, n ∈ l.takeWhile p ↔ n ∈ l ∧ p n = true
  | [], _, n => by simp
  | a :: l, hl, n => by
      obtain ⟨ha, hl'⟩ := List.pairwise_cons.mp hl
      cases hpa : p a with
      | false =>
          rw [List.takeWhile_cons_of_neg (by simp [hpa])]
          refine iff_of_false List.not_mem_nil ?_
          rintro ⟨hn, hpn⟩
          rcases List.mem_cons.mp hn with rfl | hn
          · cases hpa.symm.trans hpn
          · cases hpa.symm.trans (hp a n (ha n hn).le hpn)
      | true =>
          rw [List.takeWhile_cons_of_pos hpa, List.mem_cons, List.mem_cons,
            mem_takeWhile_sorted hp hl' n]
          constructor
          · rintro (rfl | ⟨hn, hpn⟩)
            · exact ⟨.inl rfl, hpa⟩
            · exact ⟨.inr hn, hpn⟩
          · rintro ⟨rfl | hn, hpn⟩
            · exact .inl rfl
            · exact .inr ⟨hn, hpn⟩

variable {P : ℤ → Prop} {ts : List ℤ}

theorem selectThreshold_selects [IsStrictOrderedRing K] {a : AdaptivePromoThreshold K}
    (hts : ∀ n, n ∈ a.sortedThresholds ↔ P n) (hsorted : a.sortedThresholds.Pairwise (· < ·))
    (hfallback : a.fallbackThreshold = 32) (mean : K) :
    Selects P mean (a.selectThreshold mean) := by
  have hmem := mem_takeWhile_sorted (p := fun n : ℤ => decide ((n : K) ≤ mean))
    (fun m n hmn hn => decide_eq_true ((Int.cast_le.mpr hmn).trans (of_decide_eq_true hn))) hsorted
  have hpre := hsorted.sublist (List.takeWhile_sublist fun n : ℤ => decide ((n : K) ≤ mean))
  unfold selectThreshold
  cases hlast : (a.sortedThresholds.takeWhile fun n : ℤ => decide ((n : K) ≤ mean)).getLast? with
  | none =>
      refine .inr ⟨fun m hm => ?_, hfallback⟩
      by_contra hle
      have hin := (hmem m).mpr ⟨(hts m).mpr hm, decide_eq_true (not_lt.mp hle)⟩
      rw [List.getLast?_eq_none_iff.mp hlast] at hin
      cases hin
  | some n =>
      obtain ⟨l, hl⟩ := List.getLast?_eq_some_iff.mp hlast
      rw [hl] at hmem hpre
      obtain ⟨hn, hnle⟩ := (hmem n).mp (by simp)
      refine .inl ⟨⟨(hts n).mp hn, of_decide_eq_true hnle⟩, ?_⟩
      rintro m ⟨hm, hmle⟩
      have hin := (hmem m).mpr ⟨(hts m).mpr hm, decide_eq_true hmle⟩
      rcases List.mem_append.mp hin with hm' | hm'
      · exact ((List.pairwise_append.mp hpre).2.2 m hm' n (by simp)).le
      · exact (List.mem_singleton.mp hm').le

/-- The threshold of the constructor. -/
theorem init_follows (hts : ∀ n, n ∈ ts ↔ P n) (hsorted : ts.Pairwise (· < ·)) :
    Follows P (none : Option (List K))
      (init ts : AdaptivePromoThreshold K).currentThreshold := by
  cases ts with
  | nil => exact .inr ⟨fun m hm => (by cases (hts m).mpr hm), rfl⟩
  | cons n l =>
      refine .inl ⟨(hts n).mp (by simp), fun m hm => ?_⟩
      rcases List.mem_cons.mp ((hts m).mpr hm) with rfl | hm'
      · exact le_refl _
      · exact ((List.pairwise_cons.mp hsorted).1 m hm').le

/-! ## Any number of reports -/

/-- What changes: the reports of the open window and the threshold. -/
def view (a : AdaptivePromoThreshold K) : List K × ℤ := (a.queueDepthHistory, a.currentThreshold)

/-- What does not: the parameters, and that the counter counts the reports. -/
structure Counts (ts : List ℤ) (a : AdaptivePromoThreshold K) : Prop where
  interval : a.updateInterval = 100
  fallback : a.fallbackThreshold = 32
  thresholds : a.sortedThresholds = ts
  count : a.tickCount = a.queueDepthHistory.length

omit [Field K] [LinearOrder K] in
theorem counts_init (ts : List ℤ) : Counts ts (init ts : AdaptivePromoThreshold K) :=
  ⟨rfl, rfl, rfl, rfl⟩

/-- The threshold a complete window gives. -/
def windowThreshold (ts : List ℤ) (w : List K) : ℤ :=
  (init ts : AdaptivePromoThreshold K).selectThreshold (w.sum / (w.length : K))

theorem Counts.update {a : AdaptivePromoThreshold K} (h : Counts ts a) (depth : K) :
    Counts ts (a.update depth)
      ∧ (a.update depth).view = tumble 100 (windowThreshold ts) a.view depth := by
  have hselect : ∀ mean : K, a.selectThreshold mean
      = (init ts : AdaptivePromoThreshold K).selectThreshold mean := by
    intro mean
    unfold selectThreshold
    rw [h.thresholds, h.fallback]
    rfl
  unfold AdaptivePromoThreshold.update
  dsimp only
  rw [h.interval, h.count]
  by_cases hfull : 100 ≤ a.queueDepthHistory.length + 1
  · rw [if_pos hfull, tumble, if_pos (show 100 ≤ a.view.1.length + 1 from hfull)]
    exact ⟨⟨rfl, h.fallback, h.thresholds, rfl⟩, by rw [view, hselect]; rfl⟩
  · rw [if_neg hfull, tumble, if_neg (show ¬ 100 ≤ a.view.1.length + 1 from hfull)]
    exact ⟨⟨rfl, h.fallback, h.thresholds, by simp⟩, rfl⟩

theorem counts_foldl (ts : List ℤ) (depths : List K) :
    Counts ts (depths.foldl AdaptivePromoThreshold.update (init ts))
      ∧ (depths.foldl AdaptivePromoThreshold.update (init ts)).view
        = depths.foldl (tumble 100 (windowThreshold ts))
            (init ts : AdaptivePromoThreshold K).view := by
  induction depths using List.reverseRecOn with
  | nil => exact ⟨counts_init ts, rfl⟩
  | append_singleton ds d ih =>
      rw [List.foldl_append, List.foldl_append]
      obtain ⟨hcounts, hview⟩ := ih.1.update d
      exact ⟨hcounts, hview.trans (by rw [ih.2]; rfl)⟩

/-- After any reports the threshold follows from the last complete window. -/
theorem foldl_update_follows [IsStrictOrderedRing K] (hts : ∀ n, n ∈ ts ↔ P n)
    (hsorted : ts.Pairwise (· < ·)) (depths : List K) :
    Follows P (lastWindow 100 depths)
      (depths.foldl AdaptivePromoThreshold.update (init ts)).currentThreshold := by
  have hview := congrArg Prod.snd ((counts_foldl ts depths).2.trans
    (foldl_tumble (n := 100) (by omega) _ _ depths))
  rw [show (depths.foldl AdaptivePromoThreshold.update (init ts)).currentThreshold
    = ((lastWindow 100 depths).map (windowThreshold ts)).getD
      (init ts : AdaptivePromoThreshold K).currentThreshold from hview]
  cases lastWindow 100 depths with
  | none => exact init_follows hts hsorted
  | some w => exact selectThreshold_selects hts hsorted rfl _

end AdaptivePromoThreshold

/-! ## The thresholds of a run -/

namespace AlignmentAwareScheduler

open AdaptivePromoThreshold

/-- `mean_q_depth`. -/
def meanQDepth (s : AlignmentAwareScheduler K) : K :=
  (s.buffer.pendingCount.values.sum : ℕ) / (max s.buffer.pendingCount.keys.length 1 : ℕ)

/-- The mean depths the decode ticks of a run report. -/
def depths (cfg : Config K) (env : Env K) (tr : TickHistory K) : List K :=
  (rankings cfg env tr).map fun r => r.1.meanQDepth

section Runs

variable {cfg : Config K} {env : Env K} {s s' s₁ : AlignmentAwareScheduler K} {i : TickInput K}
  {call : DispatchCall K} {tr : TickHistory K} {ts : List ℤ} {P : ℤ → Prop}

theorem apt_recordArrivals (groups : List SequenceGroup) :
    (s.recordArrivals i groups).1.apt = s.apt := by
  obtain ⟨e, he⟩ := recordArrivals_eq (s := s) (i := i) groups
  rw [he]

/-- A wgkp tick reports once, before it reads the threshold. -/
theorem apt_prepareTick (hmode : cfg.mode = .wgkp)
    (h : s.prepareTick cfg env i = .ok (s₁, call)) :
    s₁.apt = s.apt.map (fun a => a.update s₁.meanQDepth)
      ∧ ∃ ranked tmaxK, call = .wgkp ranked tmaxK (s₁.currentNStar cfg) (s₁.mergedIds i) := by
  simp only [prepareTick, hmode, prepareWgkp] at h
  obtain ⟨s₂, hs₂, h⟩ := bind_eq_ok h
  obtain ⟨r, hr, h⟩ := bind_eq_ok h
  obtain ⟨rfl, rfl⟩ := Prod.mk.inj (Except.ok.inj h)
  obtain ⟨⟨d, hd⟩, -⟩ := spec_cashOrder hr
  obtain ⟨m, rfl⟩ := updatePrefetchCache_eq hs₂
  refine ⟨?_, _, _, rfl⟩
  have hapt : r.1.apt = s.apt := by
    rw [hd]
    exact apt_recordArrivals _
  show r.1.apt.map (fun a => a.update r.1.meanQDepth) = _
  rw [hapt]
  rfl

theorem apt_emitTick {out : List SequenceGroup} (h : s.emitTick cfg env i call = .ok (s', out)) :
    s'.apt = s.apt :=
  congrArg (fun r => r.2.2.1) (steering_emitTick h)

theorem ranking_of_prepareTick {e : Event (AlignmentAwareScheduler K) (TickInput K)
      (List SequenceGroup)} (hdec : e.label.sel.decodeGroups ≠ [])
    (h : e.pre.countCall.prepareTick cfg env e.label = .ok (s₁, call)) :
    ranking cfg env e = some (s₁, e.label.clock.penalizeCold) := by
  rw [ranking, if_neg hdec, h]
  rfl

/-- The threshold object of a run is the fold of the reports. -/
theorem apt_of_run (hmode : cfg.mode = .wgkp) (hapt : cfg.apt = some ts)
    (h : Exec (Tick cfg env) (init cfg) tr s) :
    s.apt = some ((depths cfg env tr).foldl AdaptivePromoThreshold.update (.init ts)) := by
  induction h with
  | nil =>
      show (if cfg.mode = .wgkp then cfg.apt.map AdaptivePromoThreshold.init else none) = _
      rw [if_pos hmode, hapt]
      rfl
  | @snoc tr s s' i out hpath htick ih =>
      rw [depths, rankings, List.filterMap_append]
      rcases tick_cases htick with ⟨hnone, rfl, -⟩ | ⟨hsome, s₁, call, hprep, -, htail⟩
      · have hskip : ranking cfg env ⟨s, i, out, s.countCall⟩ = none := if_pos hnone
        rw [List.filterMap_cons, hskip, List.filterMap_nil, List.append_nil]
        exact ih
      · have hrank : ranking cfg env ⟨s, i, out, s'⟩ = some (s₁, i.clock.penalizeCold) :=
          ranking_of_prepareTick hsome hprep
        rw [List.filterMap_cons, hrank, List.filterMap_nil, List.map_append, List.foldl_append,
          apt_emitTick htail, (apt_prepareTick hmode hprep).1]
        show s.apt.map _ = _
        rw [ih]
        rfl

/-- **The threshold follows the queue depth.** In every run of the wgkp scheduler each
dispatch is called with the largest promotable size up to the mean depth of the
last complete hundred decode ticks, its own included, or the warp size; before the
hundredth one with the least promotable size. -/
theorem nStar_follows_depth [IsStrictOrderedRing K] (hmode : cfg.mode = .wgkp)
    (read : String → Option (Dict String (ProfileEntry K))) (envPath defaultPath : String)
    (hapt : cfg.apt = some (profileThresholds read envPath defaultPath))
    (h : Exec (Tick cfg env) (init cfg) tr s)
    (hprep : s.countCall.prepareTick cfg env i = .ok (s₁, call)) :
    ∃ ranked tmaxK nStar merged, call = .wgkp ranked tmaxK nStar merged
      ∧ Follows (Promotable (21 / 20) (loadProfile read envPath envPath defaultPath))
        (lastWindow 100 (depths cfg env tr ++ [s₁.meanQDepth])) nStar := by
  obtain ⟨hupdate, ranked, tmaxK, rfl⟩ := apt_prepareTick hmode hprep
  refine ⟨ranked, tmaxK, _, _, rfl, ?_⟩
  have hnow : s₁.apt = some ((depths cfg env tr ++ [s₁.meanQDepth]).foldl
      AdaptivePromoThreshold.update (.init (profileThresholds read envPath defaultPath))) := by
    rw [hupdate, List.foldl_append]
    show s.apt.map _ = _
    rw [apt_of_run hmode hapt h]
    rfl
  rw [currentNStar, hnow]
  exact foldl_update_follows (fun n => mem_sortThresholds) (pairwise_sortThresholds _ _) _

/-- A profile with one size that pays and one that does not. -/
def sampleProfile (path : String) : Option (Dict String (ProfileEntry ℚ)) :=
  if path = "a6000.json" then
    some (Dict.empty.insertAll [("8", ⟨some true, some 2⟩), ("4", ⟨some true, some 1⟩)])
  else none

def profiledConfig : Config ℚ :=
  { Config.default .wgkp with apt := some (profileThresholds sampleProfile "" "a6000.json") }

/-- One sequence, which the first tick drains. -/
def lonelyTick : TickInput ℚ := sampleTick 0 [sampleGroup 1 "b" false] (by decide)

/-- The hundredth tick is called with the warp size: no size is below a mean depth of
zero. -/
theorem lonelyTick_follows :
    ∃ tr s s₁ call, Exec (Tick profiledConfig sampleEnv) (init profiledConfig) tr s
      ∧ s.countCall.prepareTick profiledConfig sampleEnv lonelyTick = .ok (s₁, call)
      ∧ (match call with
          | .wgkp _ _ nStar _ => decide (nStar = 32)
          | _ => false) = true
      ∧ ∃ ranked tmaxK nStar merged, call = .wgkp ranked tmaxK nStar merged
        ∧ Follows (Promotable (21 / 20) (loadProfile sampleProfile "" "" "a6000.json"))
          (lastWindow 100 (depths profiledConfig sampleEnv tr ++ [s₁.meanQDepth])) nStar := by
  obtain ⟨tr, s, s₁, call, hexec, hprep, hcall⟩ := exists_prepared profiledConfig sampleEnv
    (List.replicate 99 lonelyTick) lonelyTick
    (fun _ _ r => match r.2 with
      | .wgkp _ _ nStar _ => decide (nStar = 32)
      | _ => false)
    (by decide +kernel)
  exact ⟨tr, s, s₁, call, hexec, hprep, hcall,
    nStar_follows_depth rfl sampleProfile "" "a6000.json" rfl hexec hprep⟩

end Runs

end AlignmentAwareScheduler

end AdapterSlots
