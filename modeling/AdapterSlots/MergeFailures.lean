import AdapterSlots.LoraCheckpoint
import AdapterSlots.MergedWeights

/-!
# Merges that raise

In `MergeSystem` every merge has a result. The loop of `process` looks up the
tensors of all projections, and a checkpoint that adapts only some of them
makes it raise `KeyError`; tensors of other shapes than the model's make it
raise `RuntimeError`. By then the adapter has left the loaded map, so
`_requested` keeps an adapter that is in no place, and the exception leaves
`execute_model`.

`TryStep` adds this outcome to the steps of the threads. `process` is the call
without interruptions (`process_exec`), and `meets_iff` says for which states
it keeps its promise.
-/

namespace AdapterSlots

open Lib

variable {T W E : Type} [Inhabited W]

namespace MergeSystem

/-- The results of the merges that do not raise. -/
def mergeOr (merge : T → Except E W) (tensors : T) : W := (merge tensors).toOption.getD default

omit [Inhabited W] in
/-- The exception of the merge that a step ends. -/
def raised (merge : T → Except E W) (s : MergeSystem T W) (a : MergeAction T) : Option E :=
  match a, s.runner with
  | .processEnd, .merging _ tensors =>
      match merge tensors with
      | .error e => some e
      | .ok _ => none
  | _, _ => none

/-- A step of the threads; an exception ends `process` where it stands. -/
def tryStep (merge : T → Except E W) (s : MergeSystem T W) (a : MergeAction T) :
    Option (MergeSystem T W × Except E (Option W)) :=
  match s.raised merge a with
  | some e => some ({ s with runner := .idle }, .error e)
  | none => (s.step (mergeOr merge) a).map fun r => (r.1, .ok r.2)

def TryStep (merge : T → Except E W) (s : MergeSystem T W) (a : MergeAction T)
    (out : Except E (Option W)) (s' : MergeSystem T W) : Prop :=
  s.tryStep merge a = some (s', out)

/-- No step of the run raised. -/
def Quiet (tr : List (Event (MergeSystem T W) (MergeAction T) (Except E (Option W)))) : Prop :=
  ∀ e ∈ tr, ∃ o, e.out = .ok o

section Steps

variable {merge : T → Except E W} {s s' : MergeSystem T W} {a : MergeAction T}

theorem mergeOr_eq {tensors : T} {merged : W} (h : merge tensors = .ok merged) :
    mergeOr merge tensors = merged := by
  rw [mergeOr, h]
  rfl

omit [Inhabited W] in
theorem raised_eq_some {e : E} : s.raised merge a = some e
    ↔ a = .processEnd
        ∧ ∃ id tensors, s.runner = .merging id tensors ∧ merge tensors = .error e := by
  unfold raised
  constructor
  · intro h
    split at h
    · rename_i id tensors hrun
      split at h
      · rename_i e' hmerge
        exact ⟨rfl, id, tensors, hrun, hmerge.trans (congrArg _ (Option.some.inj h))⟩
      · cases h
    · cases h
  · rintro ⟨rfl, id, tensors, hrun, hmerge⟩
    simp only [hrun, hmerge]

/-- The ways through a step. -/
theorem TryStep.cases {out : Except E (Option W)} (h : TryStep merge s a out s') :
    (∃ e, s.raised merge a = some e ∧ out = .error e ∧ s' = { s with runner := .idle })
      ∨ ∃ o, out = .ok o ∧ s.raised merge a = none ∧ Step (mergeOr merge) s a o s' := by
  unfold TryStep tryStep at h
  cases hraise : s.raised merge a with
  | some e =>
      rw [hraise] at h
      obtain ⟨rfl, rfl⟩ := Prod.mk.inj (Option.some.inj h)
      exact .inl ⟨e, rfl, rfl, rfl⟩
  | none =>
      rw [hraise] at h
      obtain ⟨⟨s₁, o⟩, hstep, heq⟩ := Option.map_eq_some_iff.mp h
      obtain ⟨rfl, rfl⟩ := Prod.mk.inj heq
      exact .inr ⟨o, rfl, rfl, hstep⟩

theorem TryStep.of_step {o : Option W} (hraise : s.raised merge a = none)
    (h : Step (mergeOr merge) s a o s') : TryStep merge s a (.ok o) s' := by
  unfold TryStep tryStep
  rw [hraise]
  exact Option.map_eq_some_iff.mpr ⟨_, h, rfl⟩

end Steps

/-! ## Runs without an exception -/

section Quiet

variable {merge : T → W} {l : List ℤ} {s s' : MergeSystem T W} {a : MergeAction T}

/-- A disabled cache remembers no request. -/
def Forgets (s : MergeSystem T W) : Prop :=
  s.cache.kHot = some 0 → s.runner ≠ .disabling → s.cache.requested = ∅

omit [Inhabited W] in
theorem Forgets.move {o : Option W} (h : s.Forgets) (hsound : Sound l s)
    (hmove : Move merge s a o s') : s'.Forgets := by
  intro hk hrun
  cases hmove with
  | request hacc => exact absurd (.inl hk) hacc
  | refuse _ => exact h hk hrun
  | loadEnd _ => exact h hk hrun
  | nothingLoaded _ => exact h hk hrun
  | pop hidle _ => exact h hk (by rw [hidle]; intro hrun; cases hrun)
  | size _ => exact absurd (if_pos hk) hrun
  | disable _ => rfl
  | insert hmerging =>
      obtain ⟨k, hk'⟩ := hsound.merging _ _ hmerging
      exact absurd (hk'.symm.trans hk) (by simp)
  | get =>
      rw [s.cache.get_eq] at hk ⊢
      exact h hk hrun

omit [Inhabited W] in
/-- Every request is under way or resident. -/
theorem accounted (hsound : Sound l s) (hforgets : s.Forgets) (hidle : s.runner = .idle) :
    ∀ id ∈ s.cache.requested,
      id ∈ s.loading ∨ id ∈ s.cache.loaded ∨ id ∈ s.cache.weights := by
  intro id hreq
  by_cases hk : s.cache.kHot = some 0
  · rw [hforgets hk (by rw [hidle]; intro hrun; cases hrun)] at hreq
    exact absurd hreq (Finset.notMem_empty id)
  · have hplaced := hsound.placed hk id
    rw [places, hidle, if_pos hreq] at hplaced
    by_contra hnone
    obtain ⟨hloading, hrest⟩ := not_or.mp hnone
    obtain ⟨hloaded, hweights⟩ := not_or.mp hrest
    rw [if_neg hloaded, if_neg hweights, List.count_eq_zero.mpr hloading] at hplaced
    cases hplaced

end Quiet

section Runs

variable {merge : T → Except E W} {s₀ s : MergeSystem T W}
  {tr : List (Event (MergeSystem T W) (MergeAction T) (Except E (Option W)))}

/-- The invariants pass through a run without an exception. -/
theorem sound_of_quiet (h : Exec (TryStep merge) s₀ tr s) (hquiet : Quiet tr)
    (h₀ : (∃ l, Sound l s₀) ∧ s₀.Forgets) : (∃ l, Sound l s) ∧ s.Forgets := by
  induction h with
  | nil => exact h₀
  | snoc _ hstep ih =>
      obtain ⟨⟨l, hsound⟩, hforgets⟩ := ih fun e he => hquiet e (List.mem_append_left _ he)
      obtain ⟨o, ho⟩ := hquiet _ (List.mem_append_right _ (List.mem_singleton.mpr rfl))
      rcases hstep.cases with ⟨e, -, he, -⟩ | ⟨o', -, -, hmove⟩
      · cases he.symm.trans ho
      · exact ⟨⟨_, hsound.move hmove.move⟩, hforgets.move hsound hmove.move⟩

theorem sound_of_quiet_run {kHotMax : ℕ} (h : Exec (TryStep merge) (init kHotMax) tr s)
    (hquiet : Quiet tr) : (∃ l, Sound l s) ∧ s.Forgets :=
  sound_of_quiet h hquiet ⟨⟨[], sound_init kHotMax⟩, fun _ _ => rfl⟩

/-- A run raises only where a merge does. -/
theorem quiet_of_merges (h : Exec (TryStep merge) s₀ tr s)
    (hmerges : ∀ e ∈ tr, ∀ id tensors, e.pre.runner = .merging id tensors →
      ∃ merged, merge tensors = .ok merged) : Quiet tr := by
  intro e he
  rcases (h.step_of_mem e he).cases with ⟨err, hraise, -, -⟩ | ⟨o, ho, -, -⟩
  · obtain ⟨-, id, tensors, hrun, herr⟩ := raised_eq_some.mp hraise
    obtain ⟨merged, hok⟩ := hmerges e he id tensors hrun
    cases herr.symm.trans hok
  · exact ⟨o, ho⟩

end Runs

/-! ## The call -/

/-- `process`, without interruptions. -/
def process (merge : T → Except E W) (fit : ℕ) (m : MergedWeightCache T W) :
    MergedWeightCache T W × Except E Unit :=
  match m.loaded.popLast with
  | none => (m, .ok ())
  | some (loaded, id, tensors) =>
      let m := MergedWeightCache.size { m with loaded := loaded } fit
      if m.kHot = some 0 then (m.disable, .ok ())
      else
        match merge tensors with
        | .error e => (m, .error e)
        | .ok merged => (m.insertMerged id merged, .ok ())

section Process

variable {merge : T → Except E W} {s : MergeSystem T W} {fit : ℕ}

omit [Inhabited W] in
theorem process_of_empty {m : MergedWeightCache T W} (h : m.loaded.popLast = none) :
    process merge fit m = (m, .ok ()) := by
  simp only [process, h]

section Popped

variable {m : MergedWeightCache T W} {loaded : Dict ℤ T} {id : ℤ} {tensors : T}
  (hpop : m.loaded.popLast = some (loaded, id, tensors))

/-- The cache between the pop and the merge. -/
def popped (m : MergedWeightCache T W) (loaded : Dict ℤ T) (fit : ℕ) : MergedWeightCache T W :=
  MergedWeightCache.size { m with loaded := loaded } fit

include hpop

omit [Inhabited W] in
theorem process_of_full (hk : (m.size fit).kHot = some 0) :
    process merge fit m = ((popped m loaded fit).disable, .ok ()) := by
  have hk' : (popped m loaded fit).kHot = some 0 := hk
  rw [popped] at hk'
  simp only [process, hpop, hk', if_true, popped]

omit [Inhabited W] in
theorem process_of_merge (hk : (m.size fit).kHot ≠ some 0) {merged : W}
    (hmerge : merge tensors = .ok merged) :
    process merge fit m = ((popped m loaded fit).insertMerged id merged, .ok ()) := by
  have hk' : (popped m loaded fit).kHot ≠ some 0 := hk
  rw [popped] at hk'
  simp only [process, hpop, hk', if_false, hmerge, popped]

omit [Inhabited W] in
theorem process_of_raise (hk : (m.size fit).kHot ≠ some 0) {e : E}
    (hmerge : merge tensors = .error e) :
    process merge fit m = (popped m loaded fit, .error e) := by
  have hk' : (popped m loaded fit).kHot ≠ some 0 := hk
  rw [popped] at hk'
  simp only [process, hpop, hk', if_false, hmerge, popped]

end Popped

/-- The state in which the runner is about to merge or to disable the cache. -/
def atMerge (s : MergeSystem T W) (loaded : Dict ℤ T) (id : ℤ) (tensors : T) (fit : ℕ) :
    MergeSystem T W :=
  { s with
    cache := popped s.cache loaded fit
    runner := if (s.cache.size fit).kHot = some 0 then .disabling else .merging id tensors }

variable (merge fit) in
theorem exec_atMerge (hidle : s.runner = .idle) {loaded : Dict ℤ T} {id : ℤ} {tensors : T}
    (hpop : s.cache.loaded.popLast = some (loaded, id, tensors)) :
    ∃ tr, Exec (TryStep merge) s tr (s.atMerge loaded id tensors fit) ∧ Quiet tr := by
  let s₁ : MergeSystem T W := { s with
    cache := { s.cache with loaded := loaded }
    runner := .popped id tensors }
  have hstart : TryStep merge s .processStart (.ok none) s₁ :=
    .of_step rfl (by simp only [Step, step, hidle, hpop, s₁])
  have hsize : TryStep merge s₁ (.processSize fit) (.ok none) (s.atMerge loaded id tensors fit) :=
    .of_step rfl rfl
  refine ⟨_, .cons hstart (.single hsize), fun e he => ?_⟩
  rcases List.mem_cons.mp he with rfl | he
  · exact ⟨none, rfl⟩
  · obtain rfl := List.mem_singleton.mp he
    exact ⟨none, rfl⟩

omit [Inhabited W] in
theorem quiet_snoc {tr : List (Event (MergeSystem T W) (MergeAction T) (Except E (Option W)))}
    {e : Event (MergeSystem T W) (MergeAction T) (Except E (Option W))} (h : Quiet tr) :
    Quiet (tr ++ [e]) ↔ ∃ o, e.out = .ok o := by
  refine ⟨fun hall => hall e (List.mem_append_right _ (List.mem_singleton.mpr rfl)), ?_⟩
  intro he e' he'
  rcases List.mem_append.mp he' with hold | hnew
  · exact h e' hold
  · obtain rfl := List.mem_singleton.mp hnew
    exact he

section AtMerge

variable {loaded : Dict ℤ T} {id : ℤ} {tensors : T} (hidle : s.runner = .idle)

include hidle

omit [Inhabited W] in
/-- Afterwards the runner is idle again. -/
theorem atMerge_idle (c : MergedWeightCache T W) :
    ({ s.atMerge loaded id tensors fit with cache := c, runner := .idle } : MergeSystem T W)
      = { s with cache := c } := by
  rw [← hidle]
  rfl

theorem tryStep_disable (hk : (s.cache.size fit).kHot = some 0) :
    TryStep merge (s.atMerge loaded id tensors fit) .processDisable (.ok none)
      { s with cache := (popped s.cache loaded fit).disable } := by
  have hrun : (s.atMerge loaded id tensors fit).runner = .disabling := if_pos hk
  refine .of_step rfl ?_
  rw [← atMerge_idle hidle]
  simp only [Step, step, hrun]
  rfl

variable (hk : (s.cache.size fit).kHot ≠ some 0)

include hk

theorem tryStep_raise {e : E} (hmerge : merge tensors = .error e) :
    TryStep merge (s.atMerge loaded id tensors fit) .processEnd (.error e)
      { s with cache := popped s.cache loaded fit } := by
  have hrun : (s.atMerge loaded id tensors fit).runner = .merging id tensors := if_neg hk
  have hraise : (s.atMerge loaded id tensors fit).raised merge .processEnd = some e :=
    raised_eq_some.mpr ⟨rfl, id, tensors, hrun, hmerge⟩
  unfold TryStep tryStep
  rw [hraise, ← atMerge_idle hidle]
  rfl

theorem tryStep_insert {merged : W} (hmerge : merge tensors = .ok merged) :
    TryStep merge (s.atMerge loaded id tensors fit) .processEnd (.ok none)
      { s with cache := (popped s.cache loaded fit).insertMerged id merged } := by
  have hrun : (s.atMerge loaded id tensors fit).runner = .merging id tensors := if_neg hk
  refine .of_step ?_ ?_
  · simp only [raised, hrun, hmerge]
  · rw [← atMerge_idle hidle]
    simp only [Step, step, hrun, mergeOr_eq hmerge]
    rfl

end AtMerge

variable (merge fit) in
/-- The uninterrupted call is a run of the threads, which raises when the call does. -/
theorem process_exec (hidle : s.runner = .idle) : ∃ tr,
    Exec (TryStep merge) s tr { s with cache := (process merge fit s.cache).1 }
      ∧ (Quiet tr ↔ (process merge fit s.cache).2 = .ok ()) := by
  cases hpop : s.cache.loaded.popLast with
  | none =>
      have hstart : TryStep merge s .processStart (.ok none) s :=
        .of_step rfl (by simp only [Step, step, hidle, hpop])
      rw [process_of_empty hpop]
      refine ⟨_, .single hstart, iff_of_true (fun e he => ?_) rfl⟩
      obtain rfl := List.mem_singleton.mp he
      exact ⟨none, rfl⟩
  | some p =>
      obtain ⟨loaded, id, tensors⟩ := p
      obtain ⟨tr, hexec, hquiet⟩ := exec_atMerge merge fit hidle hpop
      by_cases hk : (s.cache.size fit).kHot = some 0
      · rw [process_of_full hpop hk]
        exact ⟨_, hexec.snoc (tryStep_disable hidle hk),
          (quiet_snoc hquiet).trans (iff_of_true ⟨none, rfl⟩ rfl)⟩
      · cases hmerge : merge tensors with
        | error e =>
            rw [process_of_raise hpop hk hmerge]
            refine ⟨_, hexec.snoc (tryStep_raise hidle hk hmerge),
              (quiet_snoc hquiet).trans (iff_of_false ?_ ?_)⟩
            · rintro ⟨o, ho⟩
              cases ho
            · intro h
              cases h
        | ok merged =>
            rw [process_of_merge hpop hk hmerge]
            exact ⟨_, hexec.snoc (tryStep_insert hidle hk hmerge),
              (quiet_snoc hquiet).trans (iff_of_true ⟨none, rfl⟩ rfl)⟩

end Process

end MergeSystem

/-! ## The promise of `process` -/

section Promise

variable {K : Type} [Field K] {layers : AttnLayers K}

/-- What a checkpoint adds to an entry of a packed weight: the entry of the product in
its row block, zero for a projection without tensors. -/
def deltaEntry (pairs : LoraPairs K) (name : String) (m : AttnModule K) (row j : ℕ) : K :=
  match layerIndex name, Tensor.locate m.projRows (packedProjs name) row with
  | .ok i, some (p, r) => (pairs.get? (layerKey i p)).elim 0 fun ab => (ab.2.matmul ab.1).entry r j
  | _, _ => 0

/-- `w` is the base weight plus the deltas of the checkpoint, each of the shape of the rows it
is added to. -/
structure IsMerged (pairs : LoraPairs K) (name : String) (m : AttnModule K) (w : Tensor K) :
    Prop where
  rows : w.rows = m.weight.rows
  cols : w.cols = m.weight.cols
  shapes : ∀ i p a b, layerIndex name = .ok i → p ∈ packedProjs name →
    pairs.get? (layerKey i p) = some (a, b) → b.rows = m.projRows p ∧ a.cols = m.weight.cols
  entries : ∀ row < m.weight.rows, ∀ j < m.weight.cols,
    w.entry row j = m.weight.entry row j + deltaEntry pairs name m row j

/-- The threads around a cache of merged attention weights. -/
abbrev LoraMergeSystem (K : Type) := MergeSystem (LoraPairs K) (MergedWeights K)

/-- `process` breaks nothing in the state `s`. -/
structure Meets (layers : AttnLayers K) (s : LoraMergeSystem K) (fit : ℕ) : Prop where
  returns : (MergeSystem.process (mergeAll layers) fit s.cache).2 = .ok ()
  nothingLoaded : s.cache.loaded.popLast = none →
    (MergeSystem.process (mergeAll layers) fit s.cache).1.weights = s.cache.weights
  outcome : ∀ loaded id t, s.cache.loaded.popLast = some (loaded, id, t) →
    (∃ merged,
      (MergeSystem.process (mergeAll layers) fit s.cache).1.weights.get? id = some merged
        ∧ ∀ name m, layers.modules.get? name = some m →
          ∃ w, merged.get? name = some w ∧ IsMerged t name m w)
      ∨ (MergeSystem.process (mergeAll layers) fit s.cache).1.weights = s.cache.weights
        ∧ id ∉ (MergeSystem.process (mergeAll layers) fit s.cache).1.requested
  accounted : ∀ id ∈ (MergeSystem.process (mergeAll layers) fit s.cache).1.requested,
    id ∈ s.loading
      ∨ id ∈ (MergeSystem.process (mergeAll layers) fit s.cache).1.loaded
      ∨ id ∈ (MergeSystem.process (mergeAll layers) fit s.cache).1.weights

/-- Nothing is loaded, or no adapter fits, or the popped tensors are complete and have the
shapes of the model. -/
def Mergeable (layers : AttnLayers K) (s : LoraMergeSystem K) (fit : ℕ) : Prop :=
  ∀ loaded id t, s.cache.loaded.popLast = some (loaded, id, t) →
    (s.cache.size fit).kHot = some 0 ∨ (Complete layers t ∧ Fits layers t)

theorem isMerged_of_eq_ok {pairs : LoraPairs K} (hfits : Fits layers pairs) {name : String}
    {m : AttnModule K} (hm : layers.modules.get? name = some m) {w : Tensor K}
    (h : mergedWeight pairs name m = .ok w) : IsMerged pairs name m w := by
  obtain ⟨i, hi, hrows, hcols, hentries⟩ := mergedWeight_spec hfits hm h
  refine ⟨hrows, hcols, fun i' p a b hi' hp hget => ?_, fun row hrow j _ => ?_⟩
  · obtain ⟨hb, -, ha⟩ := hfits name m i' p a b hm hi' hp hget
    exact ⟨hb, ha⟩
  · rw [layers.packed name m hm] at hrow
    obtain ⟨p, r, hloc, hp, -⟩ := Tensor.exists_locate hrow
    obtain ⟨a, b, hab, hentry⟩ := hentries row p r hloc hp
    rw [hentry, deltaEntry, hi, hloc]
    simp only [hab, Option.elim_some]

theorem isMerged_of_mergeAll {t : LoraPairs K} (hfits : Fits layers t) {merged : MergedWeights K}
    (h : mergeAll layers t = .ok merged) {name : String} {m : AttnModule K}
    (hm : layers.modules.get? name = some m) :
    ∃ w, merged.get? name = some w ∧ IsMerged t name m w := by
  obtain ⟨w, hw, hget⟩ := Dict.get?_mapValuesM h hm
  exact ⟨w, hget, isMerged_of_eq_ok hfits hm hw⟩

/-- The ways through a call that does not raise. -/
theorem Mergeable.cases {s : LoraMergeSystem K} {fit : ℕ} (h : Mergeable layers s fit)
    {loaded : Dict ℤ (LoraPairs K)} {id : ℤ} {t : LoraPairs K}
    (hpop : s.cache.loaded.popLast = some (loaded, id, t)) :
    MergeSystem.process (mergeAll layers) fit s.cache
        = ((MergeSystem.popped s.cache loaded fit).disable, .ok ())
      ∨ Fits layers t ∧ ∃ merged, mergeAll layers t = .ok merged
        ∧ MergeSystem.process (mergeAll layers) fit s.cache
          = ((MergeSystem.popped s.cache loaded fit).insertMerged id merged, .ok ()) := by
  by_cases hk : (s.cache.size fit).kHot = some 0
  · exact .inl (MergeSystem.process_of_full hpop hk)
  · obtain ⟨hcomplete, hfits⟩ := (h loaded id t hpop).resolve_left hk
    obtain ⟨merged, hmerge⟩ := mergeAll_returns hcomplete hfits
    exact .inr ⟨hfits, merged, hmerge, MergeSystem.process_of_merge hpop hk hmerge⟩

theorem Mergeable.returns {s : LoraMergeSystem K} {fit : ℕ} (h : Mergeable layers s fit) :
    (MergeSystem.process (mergeAll layers) fit s.cache).2 = .ok () := by
  cases hpop : s.cache.loaded.popLast with
  | none => rw [MergeSystem.process_of_empty hpop]
  | some p =>
      obtain ⟨loaded, id, t⟩ := p
      rcases h.cases hpop with hfull | ⟨-, merged, -, hmerged⟩
      · rw [hfull]
      · rw [hmerged]

omit [Field K] in
/-- The adapter of popped tensors is not resident. -/
theorem not_resident_of_loaded {s : LoraMergeSystem K} (hsound : ∃ l, s.Sound l) {fit : ℕ}
    (hk : (s.cache.size fit).kHot ≠ some 0) {loaded : Dict ℤ (LoraPairs K)} {id : ℤ}
    {t : LoraPairs K} (hpop : s.cache.loaded.popLast = some (loaded, id, t)) :
    id ∉ s.cache.weights := by
  intro hresident
  obtain ⟨l, hsound⟩ := hsound
  have hk' : s.cache.kHot ≠ some 0 := fun h => hk (by rw [MergedWeightCache.size, h]; rfl)
  have hplaced := hsound.placed hk' id
  have hloaded : id ∈ s.cache.loaded := Dict.mem_iff_get?.mpr ⟨t, (Dict.get?_popLast hpop).1⟩
  rw [MergeSystem.places, if_pos hloaded, if_pos hresident] at hplaced
  split at hplaced <;> split at hplaced <;> omega

/-- The states in which a call of `process` keeps its promise. -/
theorem meets_iff {s : LoraMergeSystem K} (hsound : ∃ l, s.Sound l) (hforgets : s.Forgets)
    (hidle : s.runner = .idle) (fit : ℕ) : Meets layers s fit ↔ Mergeable layers s fit := by
  constructor
  · rintro h loaded id t hpop
    refine or_iff_not_imp_left.mpr fun hk => ?_
    cases hmerge : mergeAll layers t with
    | error e =>
        have hraise := h.returns
        rw [MergeSystem.process_of_raise hpop hk hmerge] at hraise
        cases hraise
    | ok merged =>
        obtain ⟨hcomplete, hfits⟩ := complete_of_mergeAll hmerge
        refine ⟨hcomplete, hfits ?_⟩
        have houtcome := h.outcome loaded id t hpop
        rw [MergeSystem.process_of_merge hpop hk hmerge] at houtcome
        rcases houtcome with ⟨merged', -, hmerged⟩ | ⟨hsame, -⟩
        · intro name m i p a b hm hi hp hget
          obtain ⟨w, -, hw⟩ := hmerged name m hm
          exact hw.shapes i p a b hi hp hget
        · -- the adapter has become resident, which it was not
          refine absurd ?_ (not_resident_of_loaded hsound hk hpop)
          rw [← hsame]
          exact Dict.mem_insert.mpr (.inl rfl)
  · intro h
    refine ⟨h.returns, fun hnone => ?_, fun loaded id t hpop => ?_, ?_⟩
    · rw [MergeSystem.process_of_empty hnone]
    · rcases h.cases hpop with hfull | ⟨hfits, merged, hmerge, hmerged⟩
      · rw [hfull]
        exact .inr ⟨rfl, Finset.notMem_empty id⟩
      · rw [hmerged]
        refine .inl ⟨merged, ?_, fun name m hm => isMerged_of_mergeAll hfits hmerge hm⟩
        exact (Dict.get?_insert _ _ _ _).trans (if_pos rfl)
    · obtain ⟨tr, hexec, hquiet⟩ := MergeSystem.process_exec (mergeAll layers) fit hidle
      obtain ⟨⟨l, hend⟩, hforgets'⟩ :=
        MergeSystem.sound_of_quiet hexec (hquiet.mpr h.returns) ⟨hsound, hforgets⟩
      exact MergeSystem.accounted hend hforgets' hidle

/-- **A merge breaks the step** exactly when the popped checkpoint lacks a projection of
an installed module, or has it in another shape (or a module has no layer number), and
there is room for it; as long as that does not happen, nothing raises and no request is
lost. -/
theorem merging_meets_iff {kHotMax : ℕ} {s : LoraMergeSystem K}
    {tr : List (Event (LoraMergeSystem K) (MergeAction (LoraPairs K))
      (Except L3Error (Option (MergedWeights K))))}
    (h : Exec (MergeSystem.TryStep (mergeAll layers)) (.init kHotMax) tr s) :
    (MergeSystem.Quiet tr → s.runner = .idle → ∀ fit,
        Meets layers s fit ↔ Mergeable layers s fit)
      ∧ ((∀ e ∈ tr, ∀ id t, e.pre.runner = .merging id t →
          Complete layers t ∧ Fits layers t) →
        MergeSystem.Quiet tr
          ∧ (s.runner = .idle → ∀ id ∈ s.cache.requested,
            id ∈ s.loading ∨ id ∈ s.cache.loaded ∨ id ∈ s.cache.weights)) := by
  refine ⟨fun hquiet hidle fit => ?_, fun hmergeable => ?_⟩
  · obtain ⟨hsound, hforgets⟩ := MergeSystem.sound_of_quiet_run h hquiet
    exact meets_iff hsound hforgets hidle fit
  · have hquiet := MergeSystem.quiet_of_merges h fun e he id t hrun =>
      mergeAll_returns (hmergeable e he id t hrun).1 (hmergeable e he id t hrun).2
    obtain ⟨⟨l, hsound⟩, hforgets⟩ := MergeSystem.sound_of_quiet_run h hquiet
    exact ⟨hquiet, fun hidle => MergeSystem.accounted hsound hforgets hidle⟩

end Promise

/-! ### A checkpoint without the key and output projections -/

def oneByOne : Tensor ℚ := ⟨1, 1, fun _ _ => 1⟩

/-- One layer; every projection has one row. -/
def oneLayer : AttnLayers ℚ where
  modules := ⟨[("model.layers.0.self_attn.qkv_proj", ⟨⟨3, 1, fun _ _ => 1⟩, fun _ => 1⟩),
    ("model.layers.0.self_attn.o_proj", ⟨oneByOne, fun _ => 1⟩)], by decide⟩
  packed name m h := by
    rcases List.mem_cons.mp (Dict.mem_entries_iff.mpr h) with h | h
    · obtain ⟨rfl, rfl⟩ := Prod.mk.inj h
      decide +kernel
    · obtain ⟨rfl, rfl⟩ := Prod.mk.inj (List.mem_singleton.mp h)
      decide +kernel

/-- Tensors for some projections of the layer; `front` is the first part of their names. -/
def projCheckpoint (front : String) (projs : List String) : Checkpoint ℚ where
  config := ⟨some 1, some 1⟩
  tensors := Dict.empty.insertAll (projs.flatMap fun p =>
    [(front ++ p ++ ".lora_A.weight", oneByOne), (front ++ p ++ ".lora_B.weight", oneByOne)])

def qvCheckpoint : Checkpoint ℚ :=
  projCheckpoint "base_model.model.model.layers.0.self_attn." ["q_proj", "v_proj"]

/-- What `_load` returns for them. -/
def projPairs (projs : List String) : LoraPairs ℚ :=
  Dict.ofKeys (projs.map ("0." ++ ·)) (oneByOne, oneByOne.scale (1 / 1))

theorem load_qvCheckpoint : qvCheckpoint.load = .ok (projPairs ["q_proj", "v_proj"]) := (rfl)

theorem fits_oneLayer {pairs : LoraPairs ℚ} (h : ∀ e ∈ pairs.entries,
    e.2.1.rows = 1 ∧ e.2.1.cols = 1 ∧ e.2.2.rows = 1 ∧ e.2.2.cols = 1) : Fits oneLayer pairs := by
  intro name m i p a b hm _ _ hab
  obtain ⟨har, hac, hbr, hbc⟩ := h _ (Dict.mem_entries_iff.mpr hab)
  have hone : m.projRows p = 1 ∧ m.weight.cols = 1 := by
    rcases List.mem_cons.mp (Dict.mem_entries_iff.mpr hm) with h | h
    · obtain ⟨rfl, rfl⟩ := Prod.mk.inj h
      exact ⟨rfl, rfl⟩
    · obtain ⟨rfl, rfl⟩ := Prod.mk.inj (List.mem_singleton.mp h)
      exact ⟨rfl, rfl⟩
  exact ⟨hbr.trans hone.1.symm, hbc.trans har.symm, hac.trans hone.2.symm⟩

def allTensors : LoraPairs ℚ := projPairs attnProjs

def qvTensors : LoraPairs ℚ := projPairs ["q_proj", "v_proj"]

/-- Adapter 1 is requested and loaded. -/
theorem exec_loadOne (t : LoraPairs ℚ) : ∃ tr,
    Exec (MergeSystem.TryStep (mergeAll oneLayer)) (.init 5) tr
      ⟨⟨5, none, .empty, Dict.empty.insert 1 t, {1}, 0⟩, [], .idle⟩ ∧ MergeSystem.Quiet tr := by
  have h : Exec (MergeSystem.TryStep (mergeAll oneLayer)) (.init 5)
      [⟨_, .request 1, .ok none, _⟩, ⟨_, .loadEnd 1 t, .ok none, _⟩]
      ⟨⟨5, none, .empty, Dict.empty.insert 1 t, {1}, 0⟩, [], .idle⟩ := .cons rfl (.cons rfl .nil)
  refine ⟨_, h, fun e he => ?_⟩
  simp only [List.mem_cons, List.not_mem_nil, or_false] at he
  rcases he with rfl | rfl
  · exact ⟨none, rfl⟩
  · exact ⟨none, rfl⟩

theorem complete_allTensors : Complete oneLayer allTensors := by
  intro name hname
  simp only [Dict.mem_def, Dict.keys, oneLayer, List.map_cons, List.map_nil, List.mem_cons,
    List.not_mem_nil, or_false] at hname
  rcases hname with rfl | rfl
  · exact ⟨0, by decide +kernel, by decide +kernel⟩
  · exact ⟨0, by decide +kernel, by decide +kernel⟩

theorem fits_allTensors : Fits oneLayer allTensors := fits_oneLayer (by decide +kernel)

/-- With all four projections the call keeps its promise. -/
theorem allTensors_meets : ∃ s : LoraMergeSystem ℚ,
    (∃ loaded, s.cache.loaded.popLast = some (loaded, 1, allTensors)) ∧ Meets oneLayer s 5 := by
  obtain ⟨tr, hexec, hquiet⟩ := exec_loadOne allTensors
  refine ⟨_, ⟨_, rfl⟩, ((merging_meets_iff hexec).1 hquiet rfl 5).mpr fun loaded id t hpop => ?_⟩
  have hlast : ((1 : ℤ), allTensors) = (id, t) := congrArg Prod.snd (Option.some.inj hpop)
  obtain ⟨-, rfl⟩ := Prod.mk.inj hlast
  exact .inr ⟨complete_allTensors, fits_allTensors⟩

/-- With the query and value projections alone the call raises `KeyError`. -/
theorem qvTensors_break : ¬ ∀ (layers : AttnLayers ℚ) (c : Checkpoint ℚ) (t : LoraPairs ℚ),
    c.load = .ok t → ∀ (s : LoraMergeSystem ℚ)
      (tr : List (Event (LoraMergeSystem ℚ) (MergeAction (LoraPairs ℚ))
        (Except L3Error (Option (MergedWeights ℚ))))) (kHotMax : ℕ),
      Exec (MergeSystem.TryStep (mergeAll layers)) (.init kHotMax) tr s →
      MergeSystem.Quiet tr → s.runner = .idle → ∀ loaded id,
        s.cache.loaded.popLast = some (loaded, id, t) → ∀ fit, Meets layers s fit := by
  intro h
  obtain ⟨tr, hexec, hquiet⟩ := exec_loadOne qvTensors
  have hmeets := h oneLayer _ qvTensors load_qvCheckpoint _ tr 5 hexec hquiet rfl _ 1 rfl 5
  obtain ⟨hsound, hforgets⟩ := MergeSystem.sound_of_quiet_run hexec hquiet
  rcases (meets_iff hsound hforgets rfl 5).mp hmeets _ 1 qvTensors rfl with hfull | ⟨hcomplete, -⟩
  · exact absurd hfull (by decide)
  · obtain ⟨i, hi, hpairs⟩ := hcomplete "model.layers.0.self_attn.qkv_proj" (by decide +kernel)
    obtain rfl : 0 = i := by
      have hzero : layerIndex "model.layers.0.self_attn.qkv_proj" = .ok 0 := by decide +kernel
      exact Except.ok.inj (hzero.symm.trans hi)
    exact absurd (hpairs "k_proj" (by decide +kernel)) (by decide +kernel)

end AdapterSlots
