import AdapterSlots.Lib.Interference
import AdapterSlots.MergedWeights
import AdapterSlots.PromotionThreshold
import AdapterSlots.WgkpDispatcher

/-!
# Who asks for merged weights

A wgkp tick asks the merged-weight cache for adapters (`_request_merges`) and
then looks up which adapters are merged. The loader threads and the model
runner work on the same cache meanwhile. `Engine` is the scheduler and the
cache together: the calls of a tick come in program order, with actions of
the other threads in between.

Nothing enters the cache unasked. Whatever is being loaded, merged or is
resident was asked for by a tick that found the adapter among the `K_hot`
hottest with half of `n*` tokens waiting (`Asks`); so a promoted token is one
of an adapter that was asked for.
-/

namespace AdapterSlots

open Lib AlignmentBuffer

namespace MergeSystem

variable {T W : Type} {merge : T → W} {s s' : MergeSystem T W} {a : MergeAction T} {out : Option W}
  {id : ℤ}

theorem places_pos_iff : 0 < s.places id ↔ id ∈ s.loading ∨ id ∈ s.cache.loaded
    ∨ s.runner.holds id = true ∨ id ∈ s.cache.weights := by
  have hcount : 0 < s.loading.count id ↔ id ∈ s.loading := List.count_pos_iff
  unfold places
  split <;> split <;> split <;> simp [*]

theorem mem_insertMerged {m : MergedWeightCache T W} {id' : ℤ} {merged : W}
    (h : id ∈ (m.insertMerged id' merged).weights) : id = id' ∨ id ∈ m.weights := by
  rcases Dict.mem_insert.mp h with rfl | hold
  · exact .inl rfl
  · exact .inr (((MergedWeightCache.evictLoop_sublist _ _ _).map Prod.fst).subset hold)

/-- Only a request brings an adapter in. -/
theorem Move.places_pos (h : Move merge s a out s') (hpos : 0 < s'.places id) :
    0 < s.places id ∨ a = .request id := by
  rw [places_pos_iff] at hpos ⊢
  cases h with
  | @request id' hacc =>
      rcases hpos with hload | hrest
      · rcases List.mem_append.mp hload with hold | hnew
        · exact .inl (.inl hold)
        · exact .inr (congrArg _ (List.mem_singleton.mp hnew).symm)
      · exact .inl (.inr hrest)
  | refuse => exact .inl hpos
  | @loadEnd id' tensors hid =>
      rcases hpos with hload | hloaded | hrest
      · exact .inl (.inl (List.mem_of_mem_erase hload))
      · rcases Dict.mem_insert.mp hloaded with rfl | hold
        · exact .inl (.inl hid)
        · exact .inl (.inr (.inl hold))
      · exact .inl (.inr (.inr hrest))
  | nothingLoaded => exact .inl hpos
  | @pop loaded id' tensors hidle hpop =>
      have hmem := (Dict.mem_popLast hpop).2
      rcases hpos with hload | hloaded | hholds | hweights
      · exact .inl (.inl hload)
      · exact .inl (.inr (.inl ((hmem id).mpr (.inl hloaded))))
      · exact .inl (.inr (.inl ((hmem id).mpr (.inr (of_decide_eq_true hholds)))))
      · exact .inl (.inr (.inr (.inr hweights)))
  | @size fit id' tensors hrun =>
      rcases hpos with hload | hloaded | hholds | hweights
      · exact .inl (.inl hload)
      · exact .inl (.inr (.inl hloaded))
      · refine .inl (.inr (.inr (.inl ?_)))
        rw [hrun]
        dsimp only at hholds
        split at hholds
        · cases hholds
        · exact hholds
      · exact .inl (.inr (.inr (.inr hweights)))
  | disable =>
      rcases hpos with hload | hloaded | hholds | hweights
      · exact .inl (.inl hload)
      · cases hloaded
      · cases hholds
      · exact .inl (.inr (.inr (.inr hweights)))
  | @insert id' tensors hrun =>
      rcases hpos with hload | hloaded | hholds | hweights
      · exact .inl (.inl hload)
      · exact .inl (.inr (.inl hloaded))
      · cases hholds
      · rcases mem_insertMerged hweights with rfl | hold
        · refine .inl (.inr (.inr (.inl ?_)))
          rw [hrun]
          exact decide_eq_true rfl
        · exact .inl (.inr (.inr (.inr hold)))
  | @get id' =>
      rw [MergedWeightCache.get_eq] at hpos
      rcases hpos with hload | hloaded | hholds | hweights
      · exact .inl (.inl hload)
      · exact .inl (.inr (.inl hloaded))
      · exact .inl (.inr (.inr (.inl hholds)))
      · exact .inl (.inr (.inr (.inr ((MergedWeightCache.mem_get _ id').mp hweights))))

/-- The adapters under way or resident satisfy `A`. -/
def Within (A : ℤ → Prop) (s : MergeSystem T W) : Prop := ∀ id, 0 < s.places id → A id

theorem within_init (A : ℤ → Prop) (kHotMax : ℕ) : Within A (init kHotMax : MergeSystem T W) := by
  intro id hpos
  rcases places_pos_iff.mp hpos with h | h | h | h <;> cases h

theorem Within.move {A : ℤ → Prop} (h : Within A s) (hmove : Move merge s a out s')
    (hasked : ∀ id, a = .request id → A id) : Within A s' := by
  intro id hpos
  rcases hmove.places_pos hpos with hold | hnew
  · exact h id hold
  · exact hasked id hnew

end MergeSystem

/-! ## The calls of a tick -/

namespace AlignmentAwareScheduler

variable {K : Type} [Field K] [LinearOrder K]

/-- The estimated rate of an adapter. -/
def rateOf (s : AlignmentAwareScheduler K) (k : String) : K := s.estimator.getAllRates.getD k 0

/-- `sorted(lambda_k_dict, key=..., reverse=True)[:self._k_hot]`; the order of equal
rates is kept. -/
def hottest (kHot : ℕ) (s : AlignmentAwareScheduler K) : List String :=
  (sortByKey (fun k => OrderDual.toDual (s.rateOf k)) s.estimator.getAllRates.keys).take kHot

/-- `pending.get(adapter_id, 0) >= math.ceil(n_star / 2)`. -/
def HalfFull (s : AlignmentAwareScheduler K) (nStar : ℤ) (k : String) : Prop :=
  (nStar + 1) / 2 ≤ (s.buffer.pendingCount.getD k 0 : ℤ)

instance (s : AlignmentAwareScheduler K) (nStar : ℤ) (k : String) :
    Decidable (s.HalfFull nStar k) :=
  inferInstanceAs (Decidable (_ ≤ _))

/-- `_request_merges`: number and path of the adapters asked for, in order. -/
def requestMerges (kHot : ℕ) (s : AlignmentAwareScheduler K) (nStar : ℤ) : List (ℕ × String) :=
  (s.hottest kHot).filterMap fun k => if s.HalfFull nStar k then s.loraInfo.get? k else none

/-- The hottest are up to `K_hot` adapters, and no other has a higher rate than one of them. -/
theorem hottest_spec (kHot : ℕ) (s : AlignmentAwareScheduler K) :
    (s.hottest kHot).length ≤ kHot ∧ s.hottest kHot ⊆ s.estimator.getAllRates.keys
      ∧ ∀ k ∈ s.hottest kHot, ∀ k' ∈ s.estimator.getAllRates.keys, k' ∉ s.hottest kHot →
        s.rateOf k' ≤ s.rateOf k := by
  have hperm := sortByKey_perm (fun k => OrderDual.toDual (s.rateOf k)) s.estimator.getAllRates.keys
  have hsorted := pairwise_sortByKey (fun k => OrderDual.toDual (s.rateOf k))
    s.estimator.getAllRates.keys
  unfold hottest
  refine ⟨List.length_take_le _ _, fun k hk => hperm.mem_iff.mp (List.mem_of_mem_take hk), ?_⟩
  intro k hk k' hk' hnot
  -- `k'` stands behind the cut
  rw [← hperm.mem_iff, ← List.take_append_drop kHot (sortByKey _ _), List.mem_append] at hk'
  rw [← List.take_append_drop kHot (sortByKey _ _), List.pairwise_append] at hsorted
  exact hsorted.2.2 k hk k' (hk'.resolve_left hnot)

/-- A call of a tick on the cache. -/
inductive CacheCall where
  | request (loraId : ℕ) (loraPath : String)
  | isMerged (loraId : ℕ) (answer : Bool)
deriving DecidableEq

/-- What a wgkp tick calls: the requests, and a lookup for every adapter it knows. -/
def tickCalls (cfg : Config K) (kHot : ℕ) (s : AlignmentAwareScheduler K) (isMerged : ℕ → Bool) :
    List CacheCall :=
  (s.requestMerges kHot (s.currentNStar cfg)).map (fun r => .request r.1 r.2)
    ++ s.loraInfo.entries.map fun e => .isMerged e.2.1 (isMerged e.2.1)

end AlignmentAwareScheduler

/-! ## The scheduler and the cache together -/

open AlignmentAwareScheduler

/-- The scheduler, and the cache with the threads that work on it. -/
structure Engine (K T W : Type) [Field K] [LinearOrder K] where
  scheduler : AlignmentAwareScheduler K
  merges : MergeSystem T W

inductive EngineLabel (K T : Type) where
  | tick (i : TickInput K)
  | other (a : MergeAction T)

namespace Engine

variable {K T W : Type} [Field K] [LinearOrder K]

def init (cfg : Config K) (kHot : ℕ) : Engine K T W := ⟨.init cfg, .init kHot⟩

/-- One call; a lookup gets the answer of the moment. -/
def Takes (merge : T → W) (m : MergeSystem T W) (c : CacheCall) (m' : MergeSystem T W) : Prop :=
  match c with
  | .request loraId _ => MergeSystem.Step merge m (.request loraId) none m'
  | .isMerged loraId answer => m' = m ∧ m.cache.isMerged loraId = answer

/-- A step of a loader thread or of the model runner. -/
def Others (merge : T → W) (m m' : MergeSystem T W) : Prop :=
  ∃ a out, (∀ id, a ≠ .request id) ∧ MergeSystem.Step merge m a out m'

/-- A tick with decode groups makes its calls amid the steps of the other threads;
what it looks up is what it flags. -/
inductive Step (cfg : Config K) (env : Env K) (kHot : ℕ) (merge : T → W) (e : Engine K T W) :
    EngineLabel K T → List SequenceGroup → Engine K T W → Prop
  | other {a : MergeAction T} {out : Option W} {m' : MergeSystem T W} :
      (∀ id, a ≠ .request id) → MergeSystem.Step merge e.merges a out m' →
      Step cfg env kHot merge e (.other a) [] ⟨e.scheduler, m'⟩
  | prefill {i : TickInput K} {out : List SequenceGroup} {s' : AlignmentAwareScheduler K} :
      i.sel.decodeGroups = [] → Tick cfg env e.scheduler i out s' →
      Step cfg env kHot merge e (.tick i) out ⟨s', e.merges⟩
  | decode {i : TickInput K} {isMerged : ℕ → Bool} {s₁ s' : AlignmentAwareScheduler K}
      {call : DispatchCall K} {m' : MergeSystem T W} {out : List SequenceGroup} :
      i.sel.decodeGroups ≠ [] → i.isMerged = some isMerged →
      e.scheduler.countCall.prepareTick cfg env i = .ok (s₁, call) →
      Amid (Takes merge) (Others merge) e.merges (s₁.tickCalls cfg kHot isMerged) m' →
      Tick cfg env e.scheduler i out s' → Step cfg env kHot merge e (.tick i) out ⟨s', m'⟩

/-- The event is a tick that asks for the adapter with the number `loraId`. -/
def Asks (cfg : Config K) (env : Env K) (kHot : ℕ)
    (ev : Event (Engine K T W) (EngineLabel K T) (List SequenceGroup)) (loraId : ℕ) : Prop :=
  ∃ i s₁ call k path, ev.label = .tick i ∧ i.sel.decodeGroups ≠ []
    ∧ ev.pre.scheduler.countCall.prepareTick cfg env i = .ok (s₁, call)
    ∧ s₁.loraInfo.get? k = some (loraId, path)
    ∧ k ∈ s₁.hottest kHot ∧ s₁.HalfFull (s₁.currentNStar cfg) k

variable {cfg : Config K} {env : Env K} {kHot : ℕ} {merge : T → W} {e : Engine K T W}
  {tr : List (Event (Engine K T W) (EngineLabel K T) (List SequenceGroup))}

/-- The numbers asked for in the history. -/
def Asked (cfg : Config K) (env : Env K) (kHot : ℕ)
    (tr : List (Event (Engine K T W) (EngineLabel K T) (List SequenceGroup))) (id : ℤ) : Prop :=
  ∃ loraId : ℕ, id = loraId ∧ ∃ ev ∈ tr, Asks cfg env kHot ev loraId

theorem Asked.mono {tr' : List (Event (Engine K T W) (EngineLabel K T) (List SequenceGroup))}
    {id : ℤ} (h : Asked cfg env kHot tr id) (hsub : tr ⊆ tr') : Asked cfg env kHot tr' id := by
  obtain ⟨loraId, rfl, ev, hev, hasks⟩ := h
  exact ⟨loraId, rfl, ev, hsub hev, hasks⟩

theorem asks_of_request {ev : Event (Engine K T W) (EngineLabel K T) (List SequenceGroup)}
    {i : TickInput K} {isMerged : ℕ → Bool} {s₁ : AlignmentAwareScheduler K}
    {call : DispatchCall K} {loraId : ℕ} {path : String} (hlabel : ev.label = .tick i)
    (hdec : i.sel.decodeGroups ≠ [])
    (hprep : ev.pre.scheduler.countCall.prepareTick cfg env i = .ok (s₁, call))
    (hcall : CacheCall.request loraId path ∈ s₁.tickCalls cfg kHot isMerged) :
    Asks cfg env kHot ev loraId := by
  rcases List.mem_append.mp hcall with hreq | hlook
  · obtain ⟨r, hr, heq⟩ := List.mem_map.mp hreq
    obtain ⟨rfl, rfl⟩ := CacheCall.request.inj heq
    obtain ⟨k, hk, hinfo⟩ := List.mem_filterMap.mp hr
    split at hinfo
    · rename_i hfull
      exact ⟨i, s₁, call, k, _, hlabel, hdec, hprep, hinfo, hk, hfull⟩
    · cases hinfo
  · obtain ⟨r, -, heq⟩ := List.mem_map.mp hlook
    cases heq

/-- The calls of a tick and the steps of the others bring in nothing unasked. -/
theorem within_calls {A : ℤ → Prop} {m m' : MergeSystem T W} {cs : List CacheCall}
    (h : Amid (Takes merge) (Others merge) m cs m') (hm : m.Within A)
    (hasked : ∀ loraId path, CacheCall.request loraId path ∈ cs → A loraId) :
    m'.Within A ∧ ∀ c ∈ cs, ∃ m₁ m₂ : MergeSystem T W, m₁.Within A ∧ Takes merge m₁ c m₂ := by
  refine h.invariant (MergeSystem.Within A) ?_ ?_ hm
  · rintro m₁ m₂ hm₁ ⟨a, out, hother, hstep⟩
    exact hm₁.move hstep.move fun id ha => absurd ha (hother id)
  · intro c hc m₁ m₂ hm₁ htakes
    cases c with
    | request loraId path =>
        refine hm₁.move (MergeSystem.Step.move htakes) fun id ha => ?_
        obtain rfl := MergeAction.request.inj ha
        exact hasked loraId path hc
    | isMerged loraId answer =>
        rw [htakes.1]
        exact hm₁

/-- The calls of a decode tick, with what they bring in. -/
theorem within_tick {ev : Event (Engine K T W) (EngineLabel K T) (List SequenceGroup)}
    {i : TickInput K} {isMerged : ℕ → Bool} {s₁ : AlignmentAwareScheduler K}
    {call : DispatchCall K} {m' : MergeSystem T W} (hlabel : ev.label = .tick i)
    (hdec : i.sel.decodeGroups ≠ [])
    (hprep : ev.pre.scheduler.countCall.prepareTick cfg env i = .ok (s₁, call))
    (h : Amid (Takes merge) (Others merge) ev.pre.merges (s₁.tickCalls cfg kHot isMerged) m')
    (hpre : ev.pre.merges.Within (Asked cfg env kHot tr)) :
    m'.Within (Asked cfg env kHot (tr ++ [ev]))
      ∧ ∀ c ∈ s₁.tickCalls cfg kHot isMerged, ∃ m₁ m₂ : MergeSystem T W,
        m₁.Within (Asked cfg env kHot (tr ++ [ev])) ∧ Takes merge m₁ c m₂ := by
  refine within_calls h (fun id hpos => (hpre id hpos).mono (List.subset_append_left ..)) ?_
  intro loraId path hcall
  exact ⟨loraId, rfl, ev, by simp, asks_of_request hlabel hdec hprep hcall⟩

/-- Whatever is under way or resident was asked for. -/
theorem within_of_run (h : Exec (Step cfg env kHot merge) (init cfg kHot) tr e) :
    e.merges.Within (Asked cfg env kHot tr) := by
  induction h with
  | nil => exact MergeSystem.within_init _ kHot
  | @snoc tr e e' label out hpath hstep ih =>
      cases hstep with
      | other hother hact =>
          intro id hpos
          have hid := (ih.move hact.move fun id ha => absurd ha (hother id)) id hpos
          exact hid.mono (List.subset_append_left ..)
      | prefill hnone htick =>
          exact fun id hpos => (ih id hpos).mono (List.subset_append_left ..)
      | decode hdec hmerged hprep hcalls htick => exact (within_tick rfl hdec hprep hcalls ih).1

/-- A promoted token is one of a flagged adapter. -/
theorem merged_of_promoted {b : AlignmentBuffer K} {ranked : List String} (hnd : ranked.Nodup)
    {tmaxK : Dict String K} {nStar : ℤ} {merged : List String} {m : Option ℤ} {t : K} {k : String}
    {x : ℕ} (h : (k, x, true) ∈ (b.formBatchWgkp ranked tmaxK nStar merged m t).2) :
    k ∈ merged := by
  have hc : (DispatchCall.wgkp ranked tmaxK nStar merged).RankedNodup := hnd
  rw [formBatchWgkp_eq_plan b hnd, DispatchCall.plan_eq_dispatchPlan hc] at h
  obtain ⟨blk, hblk, hmem⟩ := List.mem_flatMap.mp h
  obtain ⟨entry, -, heq⟩ := List.mem_map.mp hmem
  simp only [Prod.mk.injEq] at heq
  obtain ⟨rfl, -, hflag⟩ := heq
  obtain ⟨-, -, room, -, hv⟩ := mem_dispatchPlan hblk
  rw [hflag] at hv
  exact (wgkpRule_promoted hv).1

/-- **Promotion is asked for.** In every run of the scheduler and the cache, with any
steps of the loader threads and the model runner in between, what is under way or
resident was asked for by a tick that found the adapter among the `K_hot` hottest with
half of `n*` tokens waiting, and every token a tick flags as promoted is of an adapter
that was asked for in that tick or before. -/
theorem promotion_asked_for (hmode : cfg.mode = .wgkp)
    (h : Exec (Step cfg env kHot merge) (init cfg kHot) tr e) :
    (∀ id, 0 < e.merges.places id → Asked cfg env kHot tr id)
      ∧ ∀ tr₁ ev tr₂, tr = tr₁ ++ ev :: tr₂ → ∀ i s₁ ranked tmaxK nStar merged,
        ev.label = .tick i → i.sel.decodeGroups ≠ [] →
        ev.pre.scheduler.countCall.prepareTick cfg env i
          = .ok (s₁, .wgkp ranked tmaxK nStar merged) →
        ∀ k x, (k, x, true) ∈ (s₁.buffer.formBatchWgkp ranked tmaxK nStar merged
            (some i.sel.decodeGroups.length) i.clock.formBatch).2 →
          ∃ (loraId : ℕ) (path : String), s₁.loraInfo.get? k = some (loraId, path)
            ∧ Asked cfg env kHot (tr₁ ++ [ev]) loraId := by
  refine ⟨within_of_run h, ?_⟩
  intro tr₁ ev tr₂ heq i s₁ ranked tmaxK nStar merged hlabel hdec hprep k x hpromoted
  have hranked : ranked.Nodup := (prepared_of_prepareTick hprep).ranked
  obtain ⟨-, _, _, hcall⟩ := apt_prepareTick hmode hprep
  obtain ⟨-, -, -, rfl⟩ := DispatchCall.wgkp.inj hcall
  have hmem := merged_of_promoted hranked hpromoted
  have hpre := within_of_run (h.before_event heq)
  have hstep := h.step_of_mem ev (heq ▸ List.mem_append_right _ (List.mem_cons_self ..))
  obtain ⟨pre, label, out, post⟩ := ev
  dsimp only at hlabel hprep hpre hstep
  subst hlabel
  cases hstep with
  | prefill hnone _ => exact absurd hnone hdec
  | @decode _ isMerged s₂ s' _ m' _ _ hmerged hprep' hcalls _ =>
      obtain ⟨rfl, -⟩ := Prod.mk.inj (Except.ok.inj (hprep.symm.trans hprep'))
      have hlabel : Event.label (⟨pre, .tick i, out, ⟨s', m'⟩⟩ :
          Event (Engine K T W) (EngineLabel K T) (List SequenceGroup)) = .tick i := rfl
      rw [mergedIds, hmerged] at hmem
      obtain ⟨⟨k', loraId, path⟩, hentry, rfl⟩ := List.mem_map.mp hmem
      obtain ⟨hin, hresident⟩ := List.mem_filter.mp hentry
      refine ⟨loraId, path, Dict.mem_entries_iff.mp hin, ?_⟩
      obtain ⟨-, hall⟩ := within_tick hlabel hdec hprep hcalls hpre
      obtain ⟨m₁, m₂, hm₁, htakes⟩ := hall (.isMerged loraId _)
        (List.mem_append_right _ (List.mem_map.mpr ⟨_, hin, rfl⟩))
      have hweights : (loraId : ℤ) ∈ m₁.cache.weights :=
        of_decide_eq_true (htakes.2.trans hresident)
      exact hm₁ loraId (MergeSystem.places_pos_iff.mpr (.inr (.inr (.inr hweights))))

/-! ### Merged within one tick -/

/-- A threshold of one token. -/
def eagerConfig : Config ℚ := { Config.default .wgkp with wgkpThreshold := 1 }

/-- One sequence of adapter `a`, whose weights are merged when the tick looks. -/
def eagerTick : TickInput ℚ :=
  { sampleTick 0 [sampleGroup 1 "a" false] (by decide) with isMerged := some fun _ => true }

/-- The tick calls the cache twice and promotes the token. -/
def promotesOne (r : AlignmentAwareScheduler ℚ × DispatchCall ℚ) : Bool :=
  decide (r.1.tickCalls eagerConfig 1 (fun _ => true) = [.request 1 "lora", .isMerged 1 true])
    && match r.2 with
      | .wgkp ranked tmaxK nStar merged => decide (("a", 1, true) ∈
          (r.1.buffer.formBatchWgkp ranked tmaxK nStar merged (some 1) 0).2)
      | _ => false

/-- The adapter is loaded and merged between the two calls. -/
theorem eagerTick_promotes : ∃ tr e, ∃ s₁ : AlignmentAwareScheduler ℚ,
    ∃ ranked tmaxK nStar merged,
    Exec (Step eagerConfig sampleEnv 1 fun _ : Unit => ()) (init eagerConfig 1) tr e
      ∧ tr.map Event.label = [.tick eagerTick]
      ∧ ("a", 1, true) ∈ (s₁.buffer.formBatchWgkp ranked tmaxK nStar merged (some 1) 0).2
      ∧ ∃ (loraId : ℕ) (path : String), s₁.loraInfo.get? "a" = some (loraId, path)
        ∧ Asked eagerConfig sampleEnv 1 tr loraId := by
  have htest : ((AlignmentAwareScheduler.init eagerConfig).countCall.prepareTick eagerConfig
      sampleEnv eagerTick).toOption.any promotesOne = true := by decide +kernel
  have hreturns : ((AlignmentAwareScheduler.init eagerConfig).schedule eagerConfig sampleEnv
      eagerTick).toOption.isSome = true := by decide +kernel
  cases hprep : (AlignmentAwareScheduler.init eagerConfig).countCall.prepareTick eagerConfig
      sampleEnv eagerTick with
  | error err =>
      rw [hprep] at htest
      cases htest
  | ok r =>
      cases htick : (AlignmentAwareScheduler.init eagerConfig).schedule eagerConfig sampleEnv
          eagerTick with
      | error err =>
          rw [htick] at hreturns
          cases hreturns
      | ok r' =>
          rw [hprep] at htest
          obtain ⟨hcalls, hpromoted⟩ := Bool.and_eq_true_iff.mp htest
          obtain ⟨s₁, call⟩ := r
          cases call with
          | wgkp ranked tmaxK nStar merged =>
              obtain ⟨m', hamid⟩ : ∃ m', Amid (Takes fun _ : Unit => ())
                  (Others fun _ : Unit => ()) (MergeSystem.init 1)
                  (s₁.tickCalls eagerConfig 1 fun _ => true) m' := by
                rw [of_decide_eq_true hcalls]
                exact ⟨_, .call rfl (.other ⟨.loadEnd 1 (), _, by simp, rfl⟩
                  (.other ⟨.processStart, _, by simp, rfl⟩
                    (.other ⟨.processSize 1, _, by simp, rfl⟩
                      (.other ⟨.processEnd, _, by simp, rfl⟩ (.call ⟨rfl, rfl⟩ .done)))))⟩
              have hrun : Exec (Step eagerConfig sampleEnv 1 fun _ : Unit => ())
                  (init eagerConfig 1)
                  [⟨init eagerConfig 1, .tick eagerTick, r'.2, ⟨r'.1, m'⟩⟩] ⟨r'.1, m'⟩ :=
                Exec.single (.decode (by decide) rfl hprep hamid htick)
              exact ⟨_, _, s₁, ranked, tmaxK, nStar, merged, hrun, rfl,
                of_decide_eq_true hpromoted,
                (promotion_asked_for rfl hrun).2 [] _ [] rfl eagerTick s₁ ranked tmaxK nStar merged
                  rfl (by decide) hprep "a" 1 (of_decide_eq_true hpromoted)⟩
          | threshold => cases hpromoted
          | erlang => cases hpromoted
          | cash => cases hpromoted

end Engine

end AdapterSlots
