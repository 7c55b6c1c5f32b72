import AdapterSlots.WarmCache

/-!
# The `lru` policy

The warm set keeps an ordered dictionary, the policy is about the past: the
adapters whose last touch is the most recent. A touch is a request, or a
prefetch of a cold adapter; `touches` reads them off the history of a run.
Under `lru` a call does to the dictionary what `lruTouch` does to a list
(`Outcome.keys_of_lru`), and so the dictionary is the end of the touched
adapters in the order of their last touches.
-/

namespace AdapterSlots

open Lib

namespace CountedWarmCache

variable {K : Type}

/-- The adapter a call touches. -/
def touched (e : Event (CountedWarmCache K) (Call K) (Except PyError (Reply K))) :
    Option String :=
  if e.label.isRequest ∨ e.label.adapterId ∉ e.pre.warm then some e.label.adapterId else none

/-- The touches of a run, oldest first. -/
def touches (tr : History K) : List String := tr.filterMap touched

theorem touches_snoc (tr : History K)
    (e : Event (CountedWarmCache K) (Call K) (Except PyError (Reply K))) :
    touches (tr ++ [e]) = touches tr ++ (touched e).toList := by
  rw [touches, List.filterMap_append, ← touches]
  cases h : touched e <;> simp [h]

variable [Field K] [LinearOrder K] {env : Env K} {c c' : CountedWarmCache K} {a : Call K}
  {out : Except PyError (Reply K)}

theorem chooseEviction_of_lru {m : WarmCacheManager K} (hpol : m.policy = .lru)
    (rates : Dict String K) : m.chooseEviction env rates = .ok m.warm.keys.head? := by
  unfold WarmCacheManager.chooseEviction
  split
  · rfl
  · rw [hpol]

/-- The order of the warm set after a call. -/
theorem Outcome.keys_of_lru (hpol : c.policy = .lru) (hout : Outcome env c a out c') :
    c'.warm.keys = match touched ⟨c, a, out, c'⟩ with
      | none => c.warm.keys
      | some k => lruTouch c.kWarmMax c.warm.keys k := by
  have hcold : ∀ {out c'}, a.adapterId ∉ c.warm →
      touched ⟨c, a, out, c'⟩ = some a.adapterId := fun hk => if_pos (.inr hk)
  cases hout with
  | hit hreq hk =>
      have htouched : touched ⟨c, a, .ok (.requested true 0),
          ⟨c.touch a.adapterId a.t, (c.stats.seen a.adapterId).hit a.adapterId⟩⟩
          = some a.adapterId := if_pos (.inl hreq)
      simp only [htouched]
      rw [keys_touch, lruTouch, if_pos (Dict.mem_def.mp hk)]
  | skip hreq hk =>
      have htouched : touched ⟨c, a, .ok (.prefetched false), c⟩ = none :=
        if_neg (not_or.mpr ⟨hreq, not_not.mpr hk⟩)
      rw [htouched]
  | load hk hroom =>
      simp only [hcold hk]
      rw [keys_touch, lruTouch, if_neg fun h => hk (Dict.mem_def.mpr h), if_pos hroom,
        filter_ne_of_not_mem fun h => hk (Dict.mem_def.mpr h)]
  | evict victim hk hfull hmem hv =>
      simp only [hcold hk]
      rw [chooseEviction_of_lru hpol] at hv
      have hhead : c.warm.keys.head? = some victim := Except.ok.inj hv
      obtain ⟨rest, hkeys⟩ := List.head?_eq_some_iff.mp hhead
      have hrest : (c.warm.erase victim).keys = rest := Dict.keys_erase_head hkeys
      have hk' : a.adapterId ∉ rest := fun h =>
        hk (Dict.mem_def.mpr (hkeys ▸ List.mem_cons_of_mem _ h))
      rw [keys_touch, hrest, lruTouch, if_neg fun h => hk (Dict.mem_def.mpr h),
        if_neg (Nat.not_lt.mpr hfull), filter_ne_of_not_mem hk', hkeys, List.tail_cons]
  | raise e hk hfull hv =>
      rw [chooseEviction_of_lru hpol] at hv
      cases hv

/-- What a request reports. -/
theorem Outcome.reported_of_lru (hpol : c.policy = .lru) (hout : Outcome env c a out c')
    (hreq : a.isRequest) : ∃ ms, out = .ok (.requested (decide (a.adapterId ∈ c.warm)) ms) := by
  cases hout with
  | hit _ hk => exact ⟨0, by rw [decide_eq_true hk]⟩
  | skip hnot _ => exact absurd hreq hnot
  | load hk _ => exact ⟨c.tauLoadMs, by rw [coldReply, if_pos hreq, decide_eq_false hk]⟩
  | evict _ hk _ _ _ => exact ⟨c.tauLoadMs, by rw [coldReply, if_pos hreq, decide_eq_false hk]⟩
  | raise e hk hfull hv =>
      rw [chooseEviction_of_lru hpol] at hv
      cases hv

section Runs

variable {kWarmMax : ℕ} {hk : 0 < kWarmMax} {tauLoadMs : K} {tr : History K}

/-- The dictionary is the end of the touched adapters in the order of their last
touches. -/
theorem keys_of_lru_run (h : Exec (Step env) (init kWarmMax hk tauLoadMs .lru) tr c) :
    c.warm.keys = (touches tr).dedup.rtake kWarmMax := by
  induction h with
  | nil => exact (List.rtake_nil kWarmMax).symm
  | @snoc tr c c' a out hrun hstep ih =>
      have hinv := consistent_of_run hrun
      have hkeys := (Outcome.of_step hstep).keys_of_lru hinv.policy
      rw [touches_snoc, hkeys, hinv.size, ih]
      cases htouched : touched ⟨c, a, out, c'⟩ with
      | none => rw [Option.toList_none, List.append_nil]
      | some k => exact lruTouch_recent hk (touches tr) k

/-- The warm set in every run under `lru`: the last touched adapters, as many as fit, in
the order of their last touches; and a request hits exactly if its adapter was touched
before, and fewer than `k_warm_max` others since. -/
theorem lru_is_exact (h : Exec (Step env) (init kWarmMax hk tauLoadMs .lru) tr c) :
    c.warm.keys = (touches tr).dedup.rtake kWarmMax
      ∧ c.warm.keys.length = min kWarmMax (touches tr).dedup.length
      ∧ OldestFirst (touches tr) c.warm.keys
      ∧ ∀ tr₁ e tr₂, tr = tr₁ ++ e :: tr₂ → e.label.isRequest →
        ∃ hit ms, e.out = .ok (.requested hit ms)
          ∧ (hit = true ↔ e.label.adapterId ∈ touches tr₁
            ∧ (usesSince (touches tr₁) e.label.adapterId).dedup.length < kWarmMax) := by
  have hkeys := keys_of_lru_run h
  refine ⟨hkeys, ?_, ?_, fun tr₁ e tr₂ heq hreq => ?_⟩
  · rw [hkeys, length_rtake]
  · rw [hkeys]
    exact (oldestFirst_dedup _).sublist (List.drop_sublist ..)
  · have hpre := h.before_event heq
    have hstep := h.step_of_mem e (heq ▸ List.mem_append_right _ (List.mem_cons_self ..))
    obtain ⟨ms, hout⟩ := (Outcome.of_step hstep).reported_of_lru
      (consistent_of_run hpre).policy hreq
    refine ⟨_, ms, hout, ?_⟩
    rw [decide_eq_true_eq, Dict.mem_def, keys_of_lru_run hpre, mem_recent_iff]

end Runs

/-- Requests for "a", "b", "b" and "c" with two places. -/
theorem lru_two_places : ∃ (tr : History ℝ) (c : CountedWarmCache ℝ),
    Exec (Step realEnv) (init 2 two_pos 200 .lru) tr c
      ∧ touches tr = ["a", "b", "b", "c"] ∧ c.warm.keys = ["b", "c"]
      ∧ c.warm.keys = (touches tr).dedup.rtake 2 := by
  have h : Exec (Step realEnv) (init 2 two_pos (200 : ℝ) .lru)
      [⟨_, ⟨true, "a", none, 0⟩, _, _⟩, ⟨_, ⟨true, "b", none, 1⟩, _, _⟩,
        ⟨_, ⟨true, "b", none, 2⟩, _, _⟩, ⟨_, ⟨true, "c", none, 3⟩, _, _⟩] _ :=
    .snoc (.snoc (.snoc (.snoc .nil rfl) rfl) rfl) rfl
  exact ⟨_, _, h, rfl, rfl, (lru_is_exact h).1⟩

end CountedWarmCache

end AdapterSlots
