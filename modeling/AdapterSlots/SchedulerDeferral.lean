import Mathlib.Data.List.TakeWhile
import AdapterSlots.BufferProgress
import AdapterSlots.SchedulerLoss

/-!
# The deferral of cold adapters

With `AS_PCIE_MIN_DEFERRAL_S > 0` the cash and wgkp ticks score a cold
adapter lower until the deferral window after its first sighting is over.
The score only decides the place of the adapter in the visiting order; the
dispatch loop then treats its queue like any other. `HeldBack` is what the
queues and the selection show of this before the dispatch, and
`deferral_holds` says that it is enough, in every run.

The first half connects `_cold_first_seen` to the history of a run: the
entry of a cold adapter is the clock reading at which the present streak of
rankings that found it cold began (`firstColdSighting`).
-/

namespace AdapterSlots

open Lib AlignmentBuffer

variable {K : Type} [Field K] [LinearOrder K]

namespace AlignmentAwareScheduler

/-! ## One ranking -/

/-- Not in the warm set; without a warm set no adapter is cold. -/
def isCold (s : AlignmentAwareScheduler K) (k : String) : Bool :=
  s.cacheMgr.any fun m => !m.isWarm k

section Penalize

variable {cfg : Config K} {i : TickInput K} {m : WarmCacheManager K}

/-- The loop body keeps, sets or removes the entry of its own adapter. -/
theorem get?_penalizeOne (hD : 0 < cfg.pcieMinDeferralS) {a r : Dict String K × Dict String K}
    {e : String × K} (h : penalizeOne cfg i m a e = .ok r) (k : String) :
    r.1.get? k = if k = e.1 then
        (if m.isWarm k then none else some ((a.1.get? k).getD i.clock.penalizeCold))
      else a.1.get? k := by
  unfold penalizeOne at h
  split at h
  · rename_i hwarm
    obtain rfl := Except.ok.inj h
    rw [Dict.get?_erase]
    by_cases hk : k = e.1
    · rw [if_pos hk, if_pos hk, hk, if_pos hwarm]
    · rw [if_neg hk, if_neg hk]
  · rename_i hwarm
    obtain ⟨⟨x, o⟩, hscore, h⟩ := bind_eq_ok h
    obtain rfl := Except.ok.inj h
    have ho : o = some ((a.1.get? e.1).getD i.clock.penalizeCold) := by
      unfold coldScore at hscore
      rw [if_pos hD] at hscore
      cases hget : a.1.get? e.1 with
      | none =>
          rw [hget] at hscore
          exact (Prod.mk.inj (Except.ok.inj hscore)).2.symm
      | some t =>
          rw [hget] at hscore
          simp only at hscore
          split at hscore
          · split at hscore
            · cases hscore
            · exact (Prod.mk.inj (Except.ok.inj hscore)).2.symm
          · exact (Prod.mk.inj (Except.ok.inj hscore)).2.symm
    subst ho
    simp only [Dict.get?_insert, eq_comm (a := e.1)]
    by_cases hk : k = e.1
    · rw [if_pos hk, if_pos hk, hk, if_neg hwarm]
    · rw [if_neg hk, if_neg hk]

/-- The loop over the scores, entry by entry. -/
theorem get?_foldlM_penalizeOne (hD : 0 < cfg.pcieMinDeferralS) (k : String) :
    ∀ {es : List (String × K)} {a r : Dict String K × Dict String K}, (es.map Prod.fst).Nodup →
    es.foldlM (penalizeOne cfg i m) a = .ok r →
    r.1.get? k = if k ∈ es.map Prod.fst then
        (if m.isWarm k then none else some ((a.1.get? k).getD i.clock.penalizeCold))
      else a.1.get? k
  | [], a, r, _, h => by
      obtain rfl := Except.ok.inj h
      rfl
  | e :: es, a, r, hnd, h => by
      obtain ⟨hnot, hnd'⟩ := List.nodup_cons.mp hnd
      obtain ⟨a', ha', h⟩ := bind_eq_ok h
      have hstep := get?_penalizeOne hD ha' k
      rw [get?_foldlM_penalizeOne hD k hnd' h, hstep, List.map_cons]
      by_cases hk : k = e.1
      · subst hk
        simp [hnot]
      · simp only [List.mem_cons, hk, false_or, if_false]

end Penalize

section Ranking

variable {cfg : Config K} {env : Env K} {s s' s₁ : AlignmentAwareScheduler K} {i : TickInput K}
  {call : DispatchCall K} {out : List SequenceGroup}

/-- What a ranking does to `_cold_first_seen`, for every registered adapter. -/
structure Sighted (s : AlignmentAwareScheduler K) (i : TickInput K)
    (s₁ : AlignmentAwareScheduler K) : Prop where
  cache : s.cacheMgr ≠ none → s₁.cacheMgr ≠ none
  registered : ∀ k ∈ s.buffer.queues, k ∈ s₁.buffer.queues
  seen : s.cacheMgr ≠ none → ∀ k, s₁.coldFirstSeen.get? k =
    if k ∈ s₁.buffer.queues then
      (if s₁.isCold k then some ((s.coldFirstSeen.get? k).getD i.clock.penalizeCold) else none)
    else s.coldFirstSeen.get? k

/-- The scores are those of the registered adapters. -/
theorem sighted_of_cashOrder (hD : 0 < cfg.pcieMinDeferralS) {tmaxK : Dict String K}
    {r : AlignmentAwareScheduler K × List String} (h : s.cashOrder cfg env i tmaxK = .ok r) :
    Sighted s i r.1 := by
  unfold cashOrder at h
  obtain ⟨p, hp, h⟩ := bind_eq_ok h
  obtain rfl := Except.ok.inj h
  unfold penalizeCold at hp
  cases hm : s.cacheMgr with
  | none =>
      rw [hm] at hp
      obtain rfl := Except.ok.inj hp
      exact ⟨id, fun _ h => h, fun h => absurd hm h⟩
  | some m =>
      rw [hm] at hp
      obtain ⟨d, hd, hp⟩ := bind_eq_ok hp
      obtain rfl := Except.ok.inj hp
      refine ⟨fun _ => Option.some_ne_none m, fun _ h => h, fun _ k => ?_⟩
      refine (get?_foldlM_penalizeOne hD k (Dict.nodup _) hd).trans ?_
      have hkeys : k ∈ (CASHDispatcher.computeIndices env cfg.warpSize s.buffer.pendingCount
          (ages s.buffer i.clock.cashOrder) s.estimator.getAllRates
          (s.buffer.pendingCount.mapValues fun k _ => min (tmaxK.getD k (cfg.ttftSloMs / 1000))
            (cfg.ttftSloMs / 1000))).entries.map Prod.fst ↔ k ∈ s.buffer.queues := by
        show k ∈ Dict.keys _ ↔ k ∈ s.buffer.queues.keys
        rw [CASHDispatcher.computeIndices, Dict.keys_mapValues, pendingCount, Dict.keys_mapValues]
      simp only [hkeys, isCold, Option.any_some]
      refine if_congr Iff.rfl ?_ rfl
      by_cases hw : m.isWarm k
      · simp [hw]
      · simp [hw]

/-! ### The tick around the ranking -/

/-- What the tick does to the records before it ranks. -/
structure Before (s s' : AlignmentAwareScheduler K) : Prop where
  cache : s.cacheMgr ≠ none → s'.cacheMgr ≠ none
  registered : ∀ k ∈ s.buffer.queues, k ∈ s'.buffer.queues
  seen : s'.coldFirstSeen = s.coldFirstSeen

theorem Before.trans {s₂ : AlignmentAwareScheduler K} (h : Before s s₁) (h' : Before s₁ s₂) :
    Before s s₂ :=
  ⟨fun hc => h'.cache (h.cache hc), fun k hk => h'.registered k (h.registered k hk),
    h'.seen.trans h.seen⟩

theorem Before.sighted (h : Before s s') (h' : Sighted s' i s₁) : Sighted s i s₁ :=
  ⟨fun hc => h'.cache (h.cache hc), fun k hk => h'.registered k (h.registered k hk),
    fun hc k => h.seen ▸ h'.seen (h.cache hc) k⟩

theorem before_recordArrivals (groups : List SequenceGroup) :
    Before s (s.recordArrivals i groups).1 := by
  unfold recordArrivals
  suffices h : ∀ (gs : List SequenceGroup) (a : AlignmentAwareScheduler K × List String),
      Before a.1 (gs.foldl (recordArrival i) a).1 from h groups (s, [])
  intro gs
  induction gs with
  | nil => exact fun a => ⟨fun h => h, fun _ h => h, rfl⟩
  | cons g gs ih =>
      intro a
      rw [List.foldl_cons]
      refine Before.trans ?_ (ih _)
      have hreg : ∀ k ∈ a.1.buffer.queues,
          k ∈ (a.1.buffer.enqueue g.adapterId g.seqGroupId (i.clock.enqueue g.seqGroupId)).queues :=
        fun k hk => mem_queues_enqueue.mpr (.inr hk)
      unfold recordArrival
      split
      · exact ⟨fun h => h, hreg, rfl⟩
      · exact ⟨fun h => h, hreg, rfl⟩

theorem before_updatePrefetchCache {l : List String} (h : s.updatePrefetchCache env i l = .ok s') :
    Before s s' := by
  unfold updatePrefetchCache at h
  split at h
  · obtain rfl := Except.ok.inj h
    exact ⟨fun h => h, fun _ h => h, rfl⟩
  · obtain ⟨m', -, hm⟩ := bind_eq_ok h
    obtain rfl := Except.ok.inj hm
    exact ⟨fun _ => Option.some_ne_none m', fun _ h => h, rfl⟩

/-- The state in which the cash and wgkp ticks call their `form_batch` variant. -/
theorem sighted_of_prepareTick (hmode : cfg.mode = .cash ∨ cfg.mode = .wgkp)
    (hD : 0 < cfg.pcieMinDeferralS) (h : s.prepareTick cfg env i = .ok (s₁, call)) :
    Sighted s i s₁ := by
  unfold prepareTick at h
  rcases hmode with hmode | hmode
  · simp only [hmode, prepareCash] at h
    obtain ⟨s₂, hs₂, h⟩ := bind_eq_ok h
    obtain ⟨r, hr, h⟩ := bind_eq_ok h
    obtain ⟨rfl, -⟩ := Prod.mk.inj (Except.ok.inj h)
    exact ((before_recordArrivals _).trans (before_updatePrefetchCache hs₂)).sighted
      (sighted_of_cashOrder hD hr)
  · simp only [hmode, prepareWgkp] at h
    obtain ⟨s₂, hs₂, h⟩ := bind_eq_ok h
    obtain ⟨r, hr, h⟩ := bind_eq_ok h
    obtain ⟨rfl, -⟩ := Prod.mk.inj (Except.ok.inj h)
    have hforget : Before s ((s.forgetStale i).learnLora ((s.forgetStale i).firstTimeGroups i)) :=
      ⟨fun h => h, fun _ h => h, rfl⟩
    have hrank := (hforget.trans (before_recordArrivals _)).trans (before_updatePrefetchCache hs₂)
    have hsight := hrank.sighted (sighted_of_cashOrder hD hr)
    exact ⟨hsight.cache, hsight.registered, hsight.seen⟩

/-- What the tick does to the records from the dispatch on. -/
structure After (s s' : AlignmentAwareScheduler K) : Prop where
  cache : s'.cacheMgr = s.cacheMgr
  registered : ∀ k, k ∈ s'.buffer.queues ↔ k ∈ s.buffer.queues
  seen : s'.coldFirstSeen = s.coldFirstSeen

theorem After.trans {s₂ : AlignmentAwareScheduler K} (h : After s s₁) (h' : After s₁ s₂) :
    After s s₂ :=
  ⟨h'.cache.trans h.cache, fun k => (h'.registered k).trans (h.registered k),
    h'.seen.trans h.seen⟩

theorem after_dispatch : After s (s.dispatch i call).1 := by
  refine ⟨rfl, fun k => ?_, rfl⟩
  show k ∈ (call.apply s.buffer _ _).1.queues ↔ _
  rw [Dict.mem_def, keys_apply, ← Dict.mem_def]

theorem after_releaseGroups (groups : List SequenceGroup) : After s (s.releaseGroups groups) := by
  refine ⟨rfl, fun k => ?_, rfl⟩
  show k ∈ (groups.foldl (fun b g => b.release g.seqGroupId) s.buffer).queues ↔ _
  rw [queues_releaseGroups]

theorem after_logWarStats {batch : List SequenceGroup} (h : s.logWarStats cfg env batch = .ok s') :
    After s s' := by
  rcases logWarStats_eq h with rfl | rfl
  · exact ⟨rfl, fun _ => Iff.rfl, rfl⟩
  · exact after_releaseGroups batch

omit [Field K] [LinearOrder K] in
theorem mem_queues_drainAll (k : String) : ∀ (gs : List (String × ℕ)) (b : AlignmentBuffer K),
    k ∈ (gs.foldl (fun b g => b.drainSeq g.1 g.2) b).queues ↔ k ∈ b.queues
  | [], _ => Iff.rfl
  | g :: gs, b => by
      rw [List.foldl_cons, mem_queues_drainAll k gs, drainSeq]
      split
      · rename_i hg
        exact Dict.mem_insert.trans ⟨fun h => h.elim (fun heq => heq ▸ hg) id, .inr⟩
      · rfl

theorem after_drainBufferRemaining (groups : List SequenceGroup) (ids : List ℕ) :
    After s (s.drainBufferRemaining groups ids).1 := by
  refine ⟨rfl, fun k => ?_, rfl⟩
  show k ∈ (List.foldl (fun b (g : SequenceGroup) => b.release g.seqGroupId)
    (s.buffer.drainRemaining _ ids) _).queues ↔ _
  rw [queues_releaseGroups]
  exact mem_queues_drainAll k _ s.buffer

theorem after_emitTick (hmode : cfg.mode = .cash ∨ cfg.mode = .wgkp)
    (h : s.emitTick cfg env i call = .ok (s', out)) : After s s' := by
  unfold emitTick at h
  rcases hmode with hmode | hmode
  · simp only [hmode, emitBatch] at h
    obtain ⟨s₂, hlog, h⟩ := bind_eq_ok h
    obtain ⟨rfl, -⟩ := Prod.mk.inj (Except.ok.inj h)
    exact after_dispatch.trans (after_logWarStats hlog)
  · simp only [hmode, emitBatchWgkp] at h
    obtain ⟨s₂, hlog, h⟩ := bind_eq_ok h
    obtain ⟨rfl, -⟩ := Prod.mk.inj (Except.ok.inj h)
    refine After.trans ?_ (after_logWarStats hlog)
    unfold releaseEarly
    split
    · exact after_dispatch.trans
        ((after_releaseGroups _).trans (after_drainBufferRemaining _ _))
    · exact after_dispatch.trans (after_releaseGroups _)

end Ranking

/-! ## The rankings of a run -/

/-- The state in which a tick has ranked the queues, and the reading it took. -/
def ranking (cfg : Config K) (env : Env K)
    (e : Event (AlignmentAwareScheduler K) (TickInput K) (List SequenceGroup)) :
    Option (AlignmentAwareScheduler K × K) :=
  if e.label.sel.decodeGroups = [] then none
  else (e.pre.countCall.prepareTick cfg env e.label).toOption.map
    fun r => (r.1, e.label.clock.penalizeCold)

def rankings (cfg : Config K) (env : Env K) (tr : TickHistory K) :
    List (AlignmentAwareScheduler K × K) :=
  tr.filterMap (ranking cfg env)

/-- The reading of the first ranking of the present streak that found the adapter
cold; `none` when the last ranking did not. -/
def firstColdSighting (l : List (AlignmentAwareScheduler K × K)) (k : String) : Option K :=
  ((l.reverse.takeWhile fun r =>
    decide (k ∈ r.1.buffer.queues) && r.1.isCold k).getLast?).map Prod.snd

theorem firstColdSighting_snoc {l : List (AlignmentAwareScheduler K × K)}
    {r : AlignmentAwareScheduler K × K} {k : String} :
    firstColdSighting (l ++ [r]) k = if k ∈ r.1.buffer.queues then
        (if r.1.isCold k then some ((firstColdSighting l k).getD r.2) else none)
      else none := by
  rw [firstColdSighting, List.reverse_append, List.reverse_singleton, List.singleton_append,
    List.takeWhile_cons]
  by_cases hk : k ∈ r.1.buffer.queues
  · cases hcold : r.1.isCold k with
    | false => simp [hk]
    | true =>
        simp only [hk, decide_true, Bool.and_true, if_true, List.getLast?_cons, firstColdSighting,
          Option.map_some]
        cases (l.reverse.takeWhile _).getLast? <;> rfl
  · simp [hk]

section Runs

variable {cfg : Config K} {env : Env K} {s s₁ : AlignmentAwareScheduler K} {i : TickInput K}
  {call : DispatchCall K} {tr : TickHistory K}

/-- The entries of `_cold_first_seen` are the first sightings. -/
structure FirstSeen (l : List (AlignmentAwareScheduler K × K)) (s : AlignmentAwareScheduler K) :
    Prop where
  cache : s.cacheMgr ≠ none
  seen : ∀ k, s.coldFirstSeen.get? k = firstColdSighting l k
  registered : ∀ k, k ∉ s.buffer.queues → firstColdSighting l k = none

theorem Sighted.firstSeen {l : List (AlignmentAwareScheduler K × K)} (h : FirstSeen l s)
    (hs : Sighted s i s₁) : FirstSeen (l ++ [(s₁, i.clock.penalizeCold)]) s₁ := by
  refine ⟨hs.cache h.cache, fun k => ?_, fun k hk => ?_⟩
  · rw [hs.seen h.cache, h.seen, firstColdSighting_snoc]
    by_cases hk : k ∈ s₁.buffer.queues
    · rw [if_pos hk, if_pos hk]
    · rw [if_neg hk, if_neg hk, h.registered k fun hk' => hk (hs.registered k hk')]
  · rw [firstColdSighting_snoc, if_neg hk]

theorem After.firstSeen {l : List (AlignmentAwareScheduler K × K)}
    {s' : AlignmentAwareScheduler K} (h : FirstSeen l s) (ha : After s s') : FirstSeen l s' :=
  ⟨ha.cache ▸ h.cache, fun k => ha.seen ▸ h.seen k,
    fun k hk => h.registered k fun hk' => hk ((ha.registered k).mpr hk')⟩

theorem firstSeen_init (hcache : cfg.prefetch ≠ none) : FirstSeen [] (init cfg) := by
  refine ⟨?_, fun _ => rfl, fun _ _ => rfl⟩
  simpa [init] using hcache

/-- **First sightings.** In every run `_cold_first_seen` holds, for every adapter
the last ranking found cold, the reading at which its present streak began. -/
theorem firstSeen_of_run (hmode : cfg.mode = .cash ∨ cfg.mode = .wgkp)
    (hcache : cfg.prefetch ≠ none) (hD : 0 < cfg.pcieMinDeferralS)
    (h : Exec (Tick cfg env) (init cfg) tr s) : FirstSeen (rankings cfg env tr) s := by
  induction h with
  | nil => exact firstSeen_init hcache
  | @snoc tr s s' i out hpath htick ih =>
      rw [rankings, List.filterMap_append, ← rankings]
      have hcount : FirstSeen (rankings cfg env tr) s.countCall :=
        ⟨ih.cache, ih.seen, ih.registered⟩
      unfold Tick at htick
      rw [schedule_eq] at htick
      unfold scheduleInner at htick
      split at htick
      · rename_i hnone
        obtain ⟨rfl, -⟩ := Prod.mk.inj (Except.ok.inj htick)
        simpa [ranking, hnone] using hcount
      · rename_i hsome
        obtain ⟨⟨s₁, call⟩, hprep, hemit⟩ := bind_eq_ok htick
        have hrank : ranking cfg env ⟨s, i, out, s'⟩ = some (s₁, i.clock.penalizeCold) := by
          rw [ranking, if_neg hsome, hprep]
          rfl
        rw [List.filterMap_cons_some hrank, List.filterMap_nil]
        exact (after_emitTick hmode hemit).firstSeen
          ((sighted_of_prepareTick hmode hD hprep).firstSeen hcount)

/-! ## What a tick dispatches -/

/-- The adapter is cold when the tick ranks the queues, which ends the rankings `l`,
and its first sighting lies less than the deferral before the tick. -/
def InDeferral (cfg : Config K) (l : List (AlignmentAwareScheduler K × K))
    (s₁ : AlignmentAwareScheduler K) (i : TickInput K) (k : String) : Prop :=
  s₁.isCold k ∧ ∃ t ∈ firstColdSighting l k, i.clock.penalizeCold - t < cfg.pcieMinDeferralS

instance (l : List (AlignmentAwareScheduler K × K)) (k : String) :
    Decidable (InDeferral cfg l s₁ i k) :=
  inferInstanceAs (Decidable (_ ∧ _))

/-- No token of the adapter leaves the buffer in the tick, by the dispatch or by the
drain. -/
def DispatchesNone (cfg : Config K) (s₁ : AlignmentAwareScheduler K) (i : TickInput K)
    (call : DispatchCall K) (k : String) : Prop :=
  (∀ x, (k, x) ∉ s₁.dispatchedPairs i call)
    ∧ ∀ g ∈ s₁.drainedGroups cfg i call, g.adapterId ≠ k

/-- Before the dispatch: the call passes the queue of the adapter by, and a wgkp tick that may
have to drain has no first-time group of it. -/
structure HeldBack (cfg : Config K) (s₁ : AlignmentAwareScheduler K) (i : TickInput K)
    (call : DispatchCall K) (k : String) : Prop where
  queue : call.KeptOut s₁.buffer (some i.sel.decodeGroups.length) i.clock.formBatch k
  drain : cfg.mode = .wgkp → i.sel.prefillGroups ≠ [] ∨ s₁.postAlignmentGroups i ≠ []
    ∨ ∀ g ∈ s₁.firstTimeGroups i, g.adapterId ≠ k

/-- Nothing is dispatched from a queue no block is taken from. -/
theorem dispatchedPairs_none_iff {k : String} : (∀ x, (k, x) ∉ s₁.dispatchedPairs i call)
    ↔ k ∉ (s₁.blocks i call).map Block.adapter := by
  have hfit := call.fits_plan s₁.buffer (some i.sel.decodeGroups.length) i.clock.formBatch
  constructor
  · intro hnone hmem
    have hpos := taken_pos hfit hmem
    have hlen := taken_le_length k hfit
    have hne : (s₁.buffer.queue k).take (taken (s₁.blocks i call) k) ≠ [] := by
      rw [← List.length_pos_iff, List.length_take]
      exact Nat.lt_min.mpr ⟨hpos, hpos.trans_le hlen⟩
    obtain ⟨e, he⟩ := List.exists_mem_of_ne_nil _ hne
    exact hnone e.1 (mem_dispatchedPairs.mpr (List.mem_map_of_mem he))
  · intro hnot x hx
    have hx' := mem_dispatchedPairs.mp hx
    rw [taken_eq_zero hnot, List.take_zero] at hx'
    cases hx'

theorem HeldBack.dispatchesNone {k : String} (hranked : call.RankedNodup)
    (h : HeldBack cfg s₁ i call k) : DispatchesNone cfg s₁ i call k := by
  refine ⟨dispatchedPairs_none_iff.mpr (h.queue.not_mem_plan hranked), ?_⟩
  unfold drainedGroups
  split
  · rename_i hempty
    obtain ⟨hmode, hprefill, hpost, -⟩ := hempty
    exact ((h.drain hmode).resolve_left fun hne => hne hprefill).resolve_left fun hne => hne hpost
  · exact fun g hg => by cases hg

/-- The tick `e` of a run ranks the queues in the state `s₁`, as the last of the rankings `l`,
and goes on to make the call. -/
structure RanksAt (cfg : Config K) (env : Env K) (tr : TickHistory K)
    (e : Event (AlignmentAwareScheduler K) (TickInput K) (List SequenceGroup))
    (l : List (AlignmentAwareScheduler K × K)) (s₁ : AlignmentAwareScheduler K)
    (call : DispatchCall K) : Prop where
  selected : e.label.sel.decodeGroups ≠ []
  prepared : e.pre.countCall.prepareTick cfg env e.label = .ok (s₁, call)
  history : ∃ tr₁ tr₂, tr = tr₁ ++ e :: tr₂
    ∧ l = rankings cfg env tr₁ ++ [(s₁, e.label.clock.penalizeCold)]

/-- **The deferral.** In every run of cash or wgkp ticks, `_cold_first_seen` holds the
first sightings at every ranking; and when every tick finds its deferred adapters
held back, no tick dispatches a token of one. -/
theorem deferral_holds (hmode : cfg.mode = .cash ∨ cfg.mode = .wgkp)
    (hcache : cfg.prefetch ≠ none) (hD : 0 < cfg.pcieMinDeferralS)
    (h : Exec (Tick cfg env) (init cfg) tr s)
    (hheld : ∀ e l s₁ call, RanksAt cfg env tr e l s₁ call →
      ∀ k, InDeferral cfg l s₁ e.label k → HeldBack cfg s₁ e.label call k) :
    ∀ e l s₁ call, RanksAt cfg env tr e l s₁ call → FirstSeen l s₁
      ∧ ∀ k, InDeferral cfg l s₁ e.label k → DispatchesNone cfg s₁ e.label call k := by
  intro e l s₁ call hrank
  obtain ⟨tr₁, tr₂, htr, rfl⟩ := hrank.history
  have hseen := firstSeen_of_run hmode hcache hD (h.before_event htr)
  have hcount : FirstSeen (rankings cfg env tr₁) e.pre.countCall :=
    ⟨hseen.cache, hseen.seen, hseen.registered⟩
  have hspec : Prepared cfg e.pre e.label s₁ call :=
    (prepared_of_prepareTick hrank.prepared).of_countCall
  refine ⟨(sighted_of_prepareTick hmode hD hrank.prepared).firstSeen hcount, fun k hk => ?_⟩
  exact (hheld e _ s₁ call hrank k hk).dispatchesNone hspec.ranked

end Runs

/-! ### Two adapters and one warm slot -/

/-- One second of deferral; the deadline of a queue is 5 ms. -/
def deferringConfig : Config ℚ :=
  { Config.default .cash with
    fixedDeadline := true
    warpSize := 128
    warpSize_pos := by decide
    prefetch := some .lru
    kWarm := 1
    kWarm_pos := Nat.one_pos
    pcieMinDeferralS := 1 }

/-- New tokens of "a" and "b"; the request of "b" evicts "a". -/
def againAt (t : ℚ) : TickInput ℚ :=
  sampleTick t [sampleGroup 1 "a" false, sampleGroup 2 "b" false] nodup_oneTwo

/-- The tick finds "a" cold, and no queue is due. -/
def coldAndUndue (e : Event (AlignmentAwareScheduler ℚ) (TickInput ℚ) (List SequenceGroup)) :
    Bool :=
  (e.pre.countCall.prepareTick deferringConfig sampleEnv e.label).toOption.any fun r =>
    decide ("a" ∈ r.1.buffer.queues) && r.1.isCold "a"
      && r.1.buffer.queues.keys.all fun k =>
        decide (¬ r.2.Due r.1.buffer e.label.clock.formBatch k)

theorem coldAndUndue_iff
    {e : Event (AlignmentAwareScheduler ℚ) (TickInput ℚ) (List SequenceGroup)} :
    coldAndUndue e = true ↔ ∃ s₁ call,
      e.pre.countCall.prepareTick deferringConfig sampleEnv e.label = .ok (s₁, call)
        ∧ "a" ∈ s₁.buffer.queues ∧ s₁.isCold "a" = true
        ∧ ∀ k, ¬ call.Due s₁.buffer e.label.clock.formBatch k := by
  unfold coldAndUndue
  cases hprep : e.pre.countCall.prepareTick deferringConfig sampleEnv e.label with
  | error err => simp [Except.toOption]
  | ok r =>
      have hdue : (∀ k ∈ r.1.buffer.queues.keys, ¬ r.2.Due r.1.buffer e.label.clock.formBatch k)
          ↔ ∀ k, ¬ r.2.Due r.1.buffer e.label.clock.formBatch k :=
        ⟨fun h k hdue => h k (by by_contra hk; exact hdue.1 (queue_of_not_mem hk)) hdue,
          fun h k _ => h k⟩
      simp only [Except.toOption, Option.any_some, Bool.and_eq_true, decide_eq_true_eq,
        List.all_eq_true, hdue, and_assoc]
      constructor
      · exact fun h => ⟨r.1, r.2, rfl, h⟩
      · rintro ⟨s₁, call, hr, h⟩
        obtain rfl := Except.ok.inj hr
        exact h

/-- A second tick after 1 ms holds "a" back. -/
theorem evicted_holds_back : ∃ tr s,
    Exec (Tick deferringConfig sampleEnv) (init deferringConfig) tr s
      ∧ (∃ e l s₁ call, RanksAt deferringConfig sampleEnv tr e l s₁ call
        ∧ InDeferral deferringConfig l s₁ e.label "a")
      ∧ ∀ e l s₁ call, RanksAt deferringConfig sampleEnv tr e l s₁ call → FirstSeen l s₁
        ∧ ∀ k, InDeferral deferringConfig l s₁ e.label k →
          DispatchesNone deferringConfig s₁ e.label call k := by
  obtain ⟨tr, s, hexec, hlabels, htests⟩ := exists_run deferringConfig sampleEnv
    [againAt 0, againAt (1 / 1000)] coldAndUndue (by decide +kernel : _ = some [true, true])
  have htest : ∀ e ∈ tr, coldAndUndue e = true := fun e he => by
    have hmem := List.mem_map_of_mem (f := coldAndUndue) he
    rw [htests] at hmem
    simpa using hmem
  refine ⟨tr, s, hexec, ?_, deferral_holds (.inl rfl) (by simp [deferringConfig])
    (by decide +kernel) hexec fun e l s₁ call hrank k _ => ?_⟩
  · obtain ⟨e₁, tr', rfl, h₁, hrest⟩ := List.map_eq_cons_iff.mp hlabels
    obtain ⟨e₂, tr', rfl, h₂, hrest⟩ := List.map_eq_cons_iff.mp hrest
    obtain rfl := List.map_eq_nil_iff.mp hrest
    obtain ⟨s₁, call₁, hprep₁, hmem₁, hcold₁, -⟩ := coldAndUndue_iff.mp (htest e₁ (by simp))
    obtain ⟨s₂, call₂, hprep₂, hmem₂, hcold₂, -⟩ := coldAndUndue_iff.mp (htest e₂ (by simp))
    have hsome : ∀ t, (againAt t).sel.decodeGroups ≠ [] := fun t => List.cons_ne_nil _ _
    have hrank : rankings deferringConfig sampleEnv [e₁] = [(s₁, 0)] := by
      simp only [rankings, List.filterMap_cons, List.filterMap_nil, ranking, h₁, if_neg (hsome 0)]
      rw [← h₁, hprep₁, h₁]
      rfl
    refine ⟨e₂, _, s₂, call₂, ⟨h₂ ▸ hsome _, hprep₂, [e₁], [], rfl, rfl⟩, hcold₂, 0, ?_, ?_⟩
    · rw [hrank, ← List.nil_append [(s₁, (0 : ℚ))], Option.mem_def, firstColdSighting_snoc,
        if_pos hmem₂, if_pos hcold₂, firstColdSighting_snoc, if_pos hmem₁, if_pos hcold₁]
      rfl
    · rw [h₂]
      decide +kernel
  · obtain ⟨tr₁, tr₂, rfl, -⟩ := hrank.history
    obtain ⟨s₂, call₂, hprep, -, -, hdue⟩ := coldAndUndue_iff.mp (htest e (by simp))
    obtain ⟨rfl, rfl⟩ := Prod.mk.inj (Except.ok.inj (hprep.symm.trans hrank.prepared))
    exact ⟨.inl (hdue k), fun hmode => by cases hmode⟩

/-- A second tick after 10 ms dispatches the token of "a": its deadline is over, and
the deferral is not. -/
theorem evicted_dispatches :
    ∃ tr s i s₁ call,
      Exec (Tick deferringConfig sampleEnv) (init deferringConfig) tr s
      ∧ s.countCall.prepareTick deferringConfig sampleEnv i = .ok (s₁, call)
      ∧ InDeferral deferringConfig (rankings deferringConfig sampleEnv tr
          ++ [(s₁, i.clock.penalizeCold)]) s₁ i "a"
      ∧ ("a", 1) ∈ s₁.dispatchedPairs i call := by
  obtain ⟨tr, s, s₁, call, hexec, hprep, htest⟩ := exists_prepared deferringConfig sampleEnv
    [againAt 0] (againAt (1 / 100))
    (fun tr _ r => decide (InDeferral deferringConfig (rankings deferringConfig sampleEnv tr
        ++ [(r.1, 1 / 100)]) r.1 (againAt (1 / 100)) "a"
      ∧ ("a", 1) ∈ r.1.dispatchedPairs (againAt (1 / 100)) r.2))
    (by decide +kernel)
  obtain ⟨hin, hmem⟩ := of_decide_eq_true htest
  exact ⟨tr, s, againAt (1 / 100), s₁, call, hexec, hprep, hin, hmem⟩

end AlignmentAwareScheduler

end AdapterSlots
