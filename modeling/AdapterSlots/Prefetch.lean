import Mathlib.Data.Finset.Sort
import Mathlib.Data.List.TakeWhile
import AdapterSlots.WarmCache

/-!
# The prefetch schedule

`PredictivePrefetcher` of `predictor.py`: cold adapters by the probability
of a request within the load time, and the schedule that fills the free
slots of the warm set first and then swaps.

For a swap `prefetch_schedule` looks for its victim in
`warm_set - set(to_prefetch) | set(to_evict)`. No candidate is warm and
every victim is, so this is the warm set each time (`pool_eq`), and every
swap of a call names the same victim. `scheduleLoop_spec` says what comes
out; `prefetch_schedule_sound_iff` when that respects the capacity.
-/

namespace AdapterSlots

open Lib CountedWarmCache

/-- The bounds are checked by the constructor. -/
structure PredictivePrefetcher (K : Type) [Field K] [LinearOrder K] where
  tauLoadS : K
  pThresh : K
  tauLoadS_pos : 0 < tauLoadS
  pThresh_pos : 0 < pThresh
  pThresh_lt_one : pThresh < 1

namespace PredictivePrefetcher

variable {K : Type} [Field K] [LinearOrder K]

def init [IsStrictOrderedRing K] (tauLoadMs pThresh : K) :
    Except PyError (PredictivePrefetcher K) :=
  if htau : tauLoadMs ≤ 0 then .error .valueError
  else if hp : 0 < pThresh ∧ pThresh < 1 then
    .ok ⟨tauLoadMs / 1000, pThresh, div_pos (not_le.mp htau) (by positivity), hp.1, hp.2⟩
  else .error .valueError

variable (env : Env K) (p : PredictivePrefetcher K) (rates : Dict String K)

def score (lambdaK : K) : K := if lambdaK ≤ 0 then 0 else 1 - env.exp (-lambdaK * p.tauLoadS)

/-- `candidates[:top_n]`. -/
def pySlice {α : Type} (l : List α) (n : ℤ) : List α :=
  l.take (if 0 ≤ n then n else l.length + n).toNat

/-- Cold adapters with a score above the threshold, the highest first. -/
def getPrefetchPriorities (warmSet : Finset String) (topN : Option ℤ) : List (K × String) :=
  let candidates := (rates.entries.filter fun e =>
    decide (e.1 ∉ warmSet) && decide (p.pThresh < p.score env e.2)).map fun e =>
      (p.score env e.2, e.1)
  let sorted := candidates.insertionSort fun a b => ScoreLe b a
  match topN with
  | none => sorted
  | some n => pySlice sorted n

/-- The iteration order of the set does not matter: the scores are sorted. -/
def getEvictionTarget (warmSet : Finset String) : Option String :=
  WarmCacheManager.getEvictionTarget env p.tauLoadS rates warmSet.sort

/-- The loop of `prefetch_schedule` over the candidates. -/
def scheduleLoop (warmSet : Finset String) : List (K × String) → ℤ → List String → List String →
    List String × List String
  | [], _, toPrefetch, toEvict => (toPrefetch, toEvict)
  | (_, adapterId) :: candidates, nFreeSlots, toPrefetch, toEvict =>
      if 0 < nFreeSlots then
        scheduleLoop warmSet candidates (nFreeSlots - 1) (toPrefetch ++ [adapterId]) toEvict
      else
        match p.getEvictionTarget env rates
          ((warmSet \ toPrefetch.toFinset) ∪ toEvict.toFinset) with
        | none => (toPrefetch, toEvict)
        | some evictTarget =>
            let newScore := p.score env (rates.getD adapterId 0)
            let oldScore := p.score env (rates.getD evictTarget 0)
            if oldScore < newScore then
              scheduleLoop warmSet candidates nFreeSlots (toPrefetch ++ [adapterId])
                (toEvict ++ [evictTarget])
            else (toPrefetch, toEvict)

/-- `(to_prefetch, to_evict)`. -/
def prefetchSchedule (warmSet : Finset String) (kWarmMax : ℤ) : List String × List String :=
  p.scheduleLoop env rates warmSet (p.getPrefetchPriorities env rates warmSet none)
    (kWarmMax - warmSet.card) [] []

/-! ## Sorted lists -/

section Sorted

omit [Field K] [LinearOrder K]

variable {α : Type} {P : α → Bool}

/-- When `P` holds of everything before an element it holds of, the elements with `P`
come first. -/
theorem length_takeWhile_drop {l : List α} (h : l.Pairwise fun a b => P b = true → P a = true)
    (n : ℕ) : ((l.drop n).takeWhile P).length = (l.filter P).length - n := by
  induction l generalizing n with
  | nil => simp
  | cons a l ih =>
      obtain ⟨ha, hl⟩ := List.pairwise_cons.mp h
      cases n with
      | zero =>
          have hrest := ih hl 0
          rw [List.drop_zero, Nat.sub_zero] at hrest
          rw [List.drop_zero, Nat.sub_zero]
          by_cases hP : P a = true
          · rw [List.takeWhile_cons_of_pos hP, List.filter_cons_of_pos hP, List.length_cons,
              List.length_cons, hrest]
          · have hnone : l.filter P = [] :=
              List.filter_eq_nil_iff.mpr fun b hb hPb => hP (ha b hb hPb)
            rw [List.takeWhile_cons_of_neg hP, List.filter_cons_of_neg hP, hnone]
      | succ n =>
          rw [List.drop_succ_cons, ih hl n]
          by_cases hP : P a = true
          · rw [List.filter_cons_of_pos hP, List.length_cons, Nat.add_sub_add_right]
          · have hnone : l.filter P = [] :=
              List.filter_eq_nil_iff.mpr fun b hb hPb => hP (ha b hb hPb)
            rw [List.filter_cons_of_neg hP, hnone, List.length_nil, Nat.zero_sub, Nat.zero_sub]

end Sorted

/-! ## The candidates -/

theorem evictionScore_eq_score (lambdaK : K) :
    WarmCacheManager.evictionScore env lambdaK p.tauLoadS = p.score env lambdaK := by
  have htau : ¬ p.tauLoadS ≤ 0 := not_le.mpr p.tauLoadS_pos
  simp only [WarmCacheManager.evictionScore, score, htau, or_false]

/-- The victim in a set that is not empty has the lowest score. -/
theorem getEvictionTarget_cases (warmSet : Finset String) :
    (warmSet = ∅ ∧ p.getEvictionTarget env rates warmSet = none)
      ∨ ∃ v ∈ warmSet, p.getEvictionTarget env rates warmSet = some v
          ∧ ∀ w ∈ warmSet, p.score env (rates.getD v 0) ≤ p.score env (rates.getD w 0) := by
  rcases warmSet.eq_empty_or_nonempty with rfl | ⟨w, hw⟩
  · exact .inl ⟨rfl, by rw [getEvictionTarget, Finset.sort_empty]; rfl⟩
  · have hne : warmSet.sort ≠ [] := List.ne_nil_of_mem ((Finset.mem_sort _).mpr hw)
    obtain ⟨v, hv, htarget, hleast⟩ := getEvictionTarget_spec env p.tauLoadS rates hne
    refine .inr ⟨v, (Finset.mem_sort _).mp hv, htarget, fun w hw => ?_⟩
    have hle := hleast w ((Finset.mem_sort _).mpr hw)
    rwa [p.evictionScore_eq_score, p.evictionScore_eq_score] at hle

/-- The candidates are cold, distinct, scored, above the threshold and in
descending order. -/
structure Ranked (warmSet : Finset String) (candidates : List (K × String)) : Prop where
  cold : ∀ x ∈ candidates, x.2 ∉ warmSet
  distinct : (candidates.map Prod.snd).Nodup
  scored : ∀ x ∈ candidates, x.1 = p.score env (rates.getD x.2 0)
  sorted : candidates.Pairwise fun x y => y.1 ≤ x.1

theorem Ranked.tail {warmSet : Finset String} {x : K × String} {xs : List (K × String)}
    (h : p.Ranked env rates warmSet (x :: xs)) : p.Ranked env rates warmSet xs where
  cold y hy := h.cold y (List.mem_cons_of_mem _ hy)
  distinct := (List.nodup_cons.mp h.distinct).2
  scored y hy := h.scored y (List.mem_cons_of_mem _ hy)
  sorted := (List.pairwise_cons.mp h.sorted).2

theorem perm_priorities (warmSet : Finset String) :
    (p.getPrefetchPriorities env rates warmSet none).Perm
      ((rates.entries.filter fun e =>
        decide (e.1 ∉ warmSet) && decide (p.pThresh < p.score env e.2)).map fun e =>
          (p.score env e.2, e.1)) :=
  List.perm_insertionSort _ _

theorem mem_priorities {warmSet : Finset String} {x : K × String} :
    x ∈ p.getPrefetchPriorities env rates warmSet none
      ↔ x.2 ∈ rates ∧ x.2 ∉ warmSet ∧ x.1 = p.score env (rates.getD x.2 0) ∧ p.pThresh < x.1 := by
  rw [(p.perm_priorities env rates warmSet).mem_iff, List.mem_map]
  constructor
  · rintro ⟨⟨a, lam⟩, he, rfl⟩
    obtain ⟨hmem, hkeep⟩ := List.mem_filter.mp he
    have hget := Dict.mem_entries_iff.mp hmem
    have hrate : rates.getD a 0 = lam := by rw [Dict.getD, hget, Option.getD_some]
    rw [Bool.and_eq_true, decide_eq_true_eq, decide_eq_true_eq] at hkeep
    exact ⟨Dict.mem_iff_get?.mpr ⟨lam, hget⟩, hkeep.1, by rw [hrate], hkeep.2⟩
  · rintro ⟨hmem, hcold, hscore, hthresh⟩
    obtain ⟨lam, hget⟩ := Dict.mem_iff_get?.mp hmem
    have hrate : rates.getD x.2 0 = lam := by rw [Dict.getD, hget, Option.getD_some]
    rw [hrate] at hscore
    refine ⟨(x.2, lam), List.mem_filter.mpr ⟨Dict.mem_entries_iff.mpr hget, ?_⟩, ?_⟩
    · rw [Bool.and_eq_true, decide_eq_true_eq, decide_eq_true_eq, ← hscore]
      exact ⟨hcold, hthresh⟩
    · rw [← hscore]

theorem ranked_priorities (warmSet : Finset String) :
    p.Ranked env rates warmSet (p.getPrefetchPriorities env rates warmSet none) where
  cold x hx := ((p.mem_priorities env rates).mp hx).2.1
  distinct := by
    refine ((p.perm_priorities env rates warmSet).map Prod.snd).nodup_iff.mpr ?_
    rw [List.map_map]
    exact rates.nodup.sublist (List.Sublist.map _ List.filter_sublist)
  scored x hx := ((p.mem_priorities env rates).mp hx).2.2.1
  sorted := by
    have htotal : Std.Total fun a b : K × String => ScoreLe b a :=
      ⟨fun a b => (total_scoreLe (K := K)).total b a⟩
    have htrans : IsTrans (K × String) fun a b => ScoreLe b a :=
      ⟨fun a b c hab hbc => (isTrans_scoreLe (K := K)).trans c b a hbc hab⟩
    refine (List.pairwise_insertionSort (fun a b : K × String => ScoreLe b a) _).imp ?_
    rintro x y (hlt | ⟨heq, -⟩)
    · exact hlt.le
    · exact heq.le

/-! ## The loop -/

/-- No candidate is warm and every victim is: each swap looks at the warm set. -/
theorem pool_eq {warmSet : Finset String} {toPrefetch toEvict : List String}
    (hcold : ∀ a ∈ toPrefetch, a ∉ warmSet) (hwarm : ∀ a ∈ toEvict, a ∈ warmSet) :
    (warmSet \ toPrefetch.toFinset) ∪ toEvict.toFinset = warmSet := by
  ext a
  simp only [Finset.mem_union, Finset.mem_sdiff, List.mem_toFinset]
  constructor
  · rintro (h | h)
    · exact h.1
    · exact hwarm a h
  · exact fun h => .inl ⟨h, fun ha => hcold a ha h⟩

/-- The candidates that are worth a swap with `v`, behind those that get a free slot. -/
def swapped (v : String) (n : ℕ) (candidates : List (K × String)) : List (K × String) :=
  (candidates.drop n).takeWhile fun x => decide (p.score env (rates.getD v 0) < x.1)

theorem scheduleLoop_spec {warmSet : Finset String} {v : String}
    (hv : p.getEvictionTarget env rates warmSet = some v) (hmem : v ∈ warmSet) :
    ∀ {candidates : List (K × String)} {nFreeSlots : ℤ} {toPrefetch toEvict : List String},
      p.Ranked env rates warmSet candidates → (∀ a ∈ toPrefetch, a ∉ warmSet) →
      (∀ a ∈ toEvict, a ∈ warmSet) →
      p.scheduleLoop env rates warmSet candidates nFreeSlots toPrefetch toEvict
        = (toPrefetch ++ (candidates.take nFreeSlots.toNat).map Prod.snd
              ++ (p.swapped env rates v nFreeSlots.toNat candidates).map Prod.snd,
            toEvict ++ List.replicate (p.swapped env rates v nFreeSlots.toNat candidates).length v)
  | [], _, _, _, _, _, _ => by simp [scheduleLoop, swapped]
  | (s, a) :: candidates, nFreeSlots, toPrefetch, toEvict, hr, hcold, hwarm => by
      have hcold' : ∀ a' ∈ toPrefetch ++ [a], a' ∉ warmSet :=
        List.forall_mem_append.mpr
          ⟨hcold, List.forall_mem_singleton.mpr (hr.cold _ (List.mem_cons_self ..))⟩
      rw [scheduleLoop]
      by_cases hfree : 0 < nFreeSlots
      · obtain ⟨n, hn⟩ : ∃ n : ℕ, nFreeSlots.toNat = n + 1 := ⟨nFreeSlots.toNat - 1, by omega⟩
        have hn' : (nFreeSlots - 1).toNat = n := by omega
        rw [if_pos hfree, scheduleLoop_spec hv hmem hr.tail hcold' hwarm, hn, hn']
        simp [swapped]
      · have hn : nFreeSlots.toNat = 0 := by omega
        have hscore : p.score env (rates.getD a 0) = s :=
          (hr.scored (s, a) (List.mem_cons_self ..)).symm
        rw [if_neg hfree, pool_eq hcold hwarm, hv, hn]
        simp only [hscore]
        by_cases hgain : p.score env (rates.getD v 0) < s
        · have hwarm' : ∀ a' ∈ toEvict ++ [v], a' ∈ warmSet :=
            List.forall_mem_append.mpr ⟨hwarm, List.forall_mem_singleton.mpr hmem⟩
          rw [if_pos hgain, scheduleLoop_spec hv hmem hr.tail hcold' hwarm', hn]
          simp [swapped, hgain, List.replicate_succ]
        · rw [if_neg hgain]
          simp [swapped, hgain]

/-- Without a warm adapter there is nothing to swap with. -/
theorem scheduleLoop_of_empty : ∀ {candidates : List (K × String)} {nFreeSlots : ℤ}
    {toPrefetch : List String},
    p.scheduleLoop env rates ∅ candidates nFreeSlots toPrefetch []
      = (toPrefetch ++ (candidates.take nFreeSlots.toNat).map Prod.snd, [])
  | [], _, _ => by simp [scheduleLoop]
  | (s, a) :: candidates, nFreeSlots, toPrefetch => by
      have hnone : p.getEvictionTarget env rates ∅ = none := by
        rcases p.getEvictionTarget_cases env rates ∅ with ⟨-, h⟩ | ⟨v, hv, -⟩
        · exact h
        · cases hv
      rw [scheduleLoop]
      by_cases hfree : 0 < nFreeSlots
      · obtain ⟨n, hn⟩ : ∃ n : ℕ, nFreeSlots.toNat = n + 1 := ⟨nFreeSlots.toNat - 1, by omega⟩
        have hn' : (nFreeSlots - 1).toNat = n := by omega
        rw [if_pos hfree, scheduleLoop_of_empty, hn, hn']
        simp
      · have hn : nFreeSlots.toNat = 0 := by omega
        rw [if_neg hfree, hn, List.toFinset_nil, Finset.empty_sdiff, Finset.empty_union, hnone]
        simp

/-! ## When the schedule is sound -/

/-- What a caller that applies the schedule relies on. -/
structure ScheduleSound (warmSet : Finset String) (kWarmMax : ℤ)
    (toPrefetch toEvict : List String) : Prop where
  prefetch_nodup : toPrefetch.Nodup
  prefetch_cold : ∀ a ∈ toPrefetch, a ∉ warmSet
  evict_nodup : toEvict.Nodup
  evict_warm : ∀ a ∈ toEvict, a ∈ warmSet
  capacity : (((warmSet \ toEvict.toFinset) ∪ toPrefetch.toFinset).card : ℤ) ≤ kWarmMax
  /-- The last adapters to prefetch are those of the swaps, in the order of `to_evict`. -/
  swaps : ∀ x ∈ (toPrefetch.drop (toPrefetch.length - toEvict.length)).zip toEvict,
    p.score env (rates.getD x.2 0) < p.score env (rates.getD x.1 0)

/-- Cold adapters above the threshold that score more than some warm one. -/
def gainers (warmSet : Finset String) : List String :=
  rates.keys.filter fun a => decide (a ∉ warmSet ∧ p.pThresh < p.score env (rates.getD a 0)
    ∧ ∃ w ∈ warmSet, p.score env (rates.getD w 0) < p.score env (rates.getD a 0))

theorem mem_gainers {warmSet : Finset String} {a : String} :
    a ∈ p.gainers env rates warmSet
      ↔ a ∈ rates ∧ a ∉ warmSet ∧ p.pThresh < p.score env (rates.getD a 0)
        ∧ ∃ w ∈ warmSet, p.score env (rates.getD w 0) < p.score env (rates.getD a 0) := by
  unfold gainers
  rw [List.mem_filter, decide_eq_true_eq]
  rfl

/-- As many swaps as gainers that get no free slot. -/
theorem length_swapped {warmSet : Finset String} {v : String} (hmem : v ∈ warmSet)
    (hleast : ∀ w ∈ warmSet, p.score env (rates.getD v 0) ≤ p.score env (rates.getD w 0)) (n : ℕ) :
    (p.swapped env rates v n (p.getPrefetchPriorities env rates warmSet none)).length
      = (p.gainers env rates warmSet).length - n := by
  have hr := p.ranked_priorities env rates warmSet
  have hsorted : (p.getPrefetchPriorities env rates warmSet none).Pairwise fun x y =>
      decide (p.score env (rates.getD v 0) < y.1) = true →
        decide (p.score env (rates.getD v 0) < x.1) = true := by
    refine hr.sorted.imp fun hle hlt => ?_
    exact decide_eq_true ((of_decide_eq_true hlt).trans_le hle)
  have hperm : (((p.getPrefetchPriorities env rates warmSet none).filter fun x =>
      decide (p.score env (rates.getD v 0) < x.1)).map Prod.snd).Perm
        (p.gainers env rates warmSet) := by
    have hnd : (p.gainers env rates warmSet).Nodup := rates.nodup_keys.filter _
    refine (List.perm_ext_iff_of_nodup ?_ hnd).mpr fun a => ?_
    · exact hr.distinct.sublist (List.Sublist.map _ List.filter_sublist)
    · rw [List.mem_map, mem_gainers]
      constructor
      · rintro ⟨x, hx, rfl⟩
        obtain ⟨hx, hlt⟩ := List.mem_filter.mp hx
        obtain ⟨hin, hcold, hscore, hthresh⟩ := (p.mem_priorities env rates).mp hx
        rw [← hscore]
        exact ⟨hin, hcold, hthresh, v, hmem, of_decide_eq_true hlt⟩
      · rintro ⟨hin, hcold, hthresh, w, hw, hlt⟩
        refine ⟨(p.score env (rates.getD a 0), a), List.mem_filter.mpr ⟨?_, ?_⟩, rfl⟩
        · exact (p.mem_priorities env rates).mpr ⟨hin, hcold, rfl, hthresh⟩
        · exact decide_eq_true ((hleast w hw).trans_lt hlt)
  rw [swapped, length_takeWhile_drop hsorted, ← hperm.length_eq, List.length_map]

/-- All victims are the same one. -/
theorem prefetchSchedule_cases (warmSet : Finset String) (kWarmMax : ℤ) :
    ∃ free swaps : List (K × String), ∃ v : String,
      (free ++ swaps).Sublist (p.getPrefetchPriorities env rates warmSet none)
      ∧ free.length ≤ (kWarmMax - warmSet.card).toNat
      ∧ swaps.length = (p.gainers env rates warmSet).length - (kWarmMax - warmSet.card).toNat
      ∧ (swaps ≠ [] → v ∈ warmSet)
      ∧ (∀ x ∈ swaps, p.score env (rates.getD v 0) < x.1)
      ∧ p.prefetchSchedule env rates warmSet kWarmMax
        = ((free ++ swaps).map Prod.snd, List.replicate swaps.length v) := by
  have hr := p.ranked_priorities env rates warmSet
  rcases p.getEvictionTarget_cases env rates warmSet with ⟨rfl, -⟩ | ⟨v, hmem, hv, hleast⟩
  · have hnone : p.gainers env rates ∅ = [] :=
      List.filter_eq_nil_iff.mpr fun a _ h => by simp at h
    refine ⟨(p.getPrefetchPriorities env rates ∅ none).take (kWarmMax - (0 : ℕ)).toNat, [], "",
      ?_, ?_, ?_, fun h => absurd rfl h, fun x hx => (List.not_mem_nil hx).elim, ?_⟩
    · rw [List.append_nil]
      exact List.take_sublist ..
    · exact List.length_take_le ..
    · rw [hnone]
      exact (Nat.zero_sub _).symm
    · rw [prefetchSchedule, scheduleLoop_of_empty, List.nil_append, List.append_nil]
      rfl
  · refine ⟨_, p.swapped env rates v (kWarmMax - warmSet.card).toNat
      (p.getPrefetchPriorities env rates warmSet none), v, ?_,
      List.length_take_le (kWarmMax - warmSet.card).toNat
        (p.getPrefetchPriorities env rates warmSet none),
      p.length_swapped env rates hmem hleast _, fun _ => hmem, ?_, ?_⟩
    · conv_rhs => rw [← List.take_append_drop (kWarmMax - warmSet.card).toNat
        (p.getPrefetchPriorities env rates warmSet none)]
      exact (List.takeWhile_sublist _).append_left _
    · intro x hx
      unfold swapped at hx
      simpa using List.mem_takeWhile_imp hx
    · rw [prefetchSchedule, p.scheduleLoop_spec env rates hv hmem hr (by simp) (by simp)]
      simp

omit [Field K] [LinearOrder K] in
/-- One eviction of a warm adapter frees one slot. -/
theorem card_sdiff_replicate {warmSet : Finset String} {v : String} {n : ℕ} (hone : n ≤ 1)
    (hv : 0 < n → v ∈ warmSet) :
    (warmSet \ (List.replicate n v).toFinset).card + n ≤ warmSet.card := by
  rcases Nat.le_one_iff_eq_zero_or_eq_one.mp hone with rfl | rfl
  · rw [List.replicate_zero, List.toFinset_nil, Finset.sdiff_empty, Nat.add_zero]
  · have hcard := Finset.card_erase_add_one (hv Nat.one_pos)
    rw [List.replicate_one, List.toFinset_cons, List.toFinset_nil, insert_empty_eq,
      Finset.sdiff_singleton_eq_erase]
    omega

/-- One victim for all swaps: the schedule is sound with one swap at most. -/
theorem scheduleSound_iff_length {warmSet : Finset String} {kWarmMax : ℤ}
    (hsize : (warmSet.card : ℤ) ≤ kWarmMax) :
    p.ScheduleSound env rates warmSet kWarmMax (p.prefetchSchedule env rates warmSet kWarmMax).1
        (p.prefetchSchedule env rates warmSet kWarmMax).2
      ↔ (p.prefetchSchedule env rates warmSet kWarmMax).2.length ≤ 1 := by
  have hr := p.ranked_priorities env rates warmSet
  obtain ⟨free, swaps, v, hsub, hfree, -, hwarm, hgain, hsched⟩ :=
    p.prefetchSchedule_cases env rates warmSet kWarmMax
  rw [hsched, List.length_replicate]
  constructor
  · intro h
    exact List.nodup_replicate.mp h.evict_nodup
  · intro hone
    have hmem : ∀ x ∈ free ++ swaps, x ∈ p.getPrefetchPriorities env rates warmSet none :=
      fun x hx => hsub.subset hx
    have hlen : ((free ++ swaps).map Prod.snd).length = free.length + swaps.length := by
      rw [List.length_map, List.length_append]
    refine ⟨hr.distinct.sublist (hsub.map _), ?_, List.nodup_replicate.mpr hone, ?_, ?_, ?_⟩
    · intro a ha
      obtain ⟨x, hx, rfl⟩ := List.mem_map.mp ha
      exact hr.cold x (hmem x hx)
    · intro a ha
      obtain ⟨hne, rfl⟩ := List.mem_replicate.mp ha
      exact hwarm fun hnil => hne (by rw [hnil, List.length_nil])
    · -- what is loaded takes the free slots, and the one of the victim
      have hload : ((free ++ swaps).map Prod.snd).toFinset.card ≤ free.length + swaps.length :=
        (List.toFinset_card_le _).trans_eq hlen
      have hunion := Finset.card_union_le (warmSet \ (List.replicate swaps.length v).toFinset)
        ((free ++ swaps).map Prod.snd).toFinset
      have hstay := card_sdiff_replicate hone fun hpos =>
        hwarm (List.length_pos_iff.mp hpos)
      dsimp only
      omega
    · intro x hx
      rw [hlen, List.length_replicate, Nat.add_sub_cancel, List.map_append] at hx
      rw [List.drop_left' (by rw [List.length_map])] at hx
      obtain ⟨hx₁, hx₂⟩ := List.of_mem_zip hx
      obtain ⟨y, hy, hyx⟩ := List.mem_map.mp hx₁
      rw [(List.mem_replicate.mp hx₂).2, ← hyx, ← hr.scored y (hmem y (List.mem_append_right _ hy))]
      exact hgain y hy

theorem length_evict (warmSet : Finset String) (kWarmMax : ℤ) :
    (p.prefetchSchedule env rates warmSet kWarmMax).2.length
      = (p.gainers env rates warmSet).length - (kWarmMax - warmSet.card).toNat := by
  obtain ⟨free, swaps, v, -, -, hlen, -, -, hsched⟩ :=
    p.prefetchSchedule_cases env rates warmSet kWarmMax
  rw [hsched, List.length_replicate, hlen]

/-- The schedule is sound exactly when at most one gainer finds no free slot. -/
theorem prefetch_schedule_sound_iff {warmSet : Finset String} {kWarmMax : ℤ}
    (hsize : (warmSet.card : ℤ) ≤ kWarmMax) :
    p.ScheduleSound env rates warmSet kWarmMax (p.prefetchSchedule env rates warmSet kWarmMax).1
        (p.prefetchSchedule env rates warmSet kWarmMax).2
      ↔ ((p.gainers env rates warmSet).length : ℤ) ≤ kWarmMax - warmSet.card + 1 := by
  rw [scheduleSound_iff_length env p rates hsize, p.length_evict env rates]
  omega

/-! ### One warm adapter without a request -/

/-- `tau_load_ms = 200` and `p_thresh = 0.1`. -/
noncomputable def defaultPrefetcher : PredictivePrefetcher ℝ where
  tauLoadS := 2 / 10
  pThresh := 1 / 10
  tauLoadS_pos := by norm_num
  pThresh_pos := by norm_num
  pThresh_lt_one := by norm_num

/-- "a" is warm, and ten requests a second are known of each listed adapter. -/
theorem mem_gainers_of_rate {ks : List String} {k : String} (hk : k ∈ ks) (hne : k ≠ "a")
    (ha : "a" ∉ ks) : k ∈ defaultPrefetcher.gainers realEnv (.ofKeys ks 10) {"a"} := by
  have hexp : Real.exp (-10 * (2 / 10)) ≤ 1 / 3 := by
    have hthree : (3 : ℝ) ≤ Real.exp 2 := by
      have := Real.add_one_le_exp (2 : ℝ)
      linarith
    have hneg : (-10 * (2 / 10) : ℝ) = -2 := by norm_num
    rw [hneg, Real.exp_neg, one_div]
    exact inv_anti₀ (by norm_num) hthree
  have hscore : defaultPrefetcher.score realEnv ((Dict.ofKeys ks (10 : ℝ)).getD k 0)
      = 1 - Real.exp (-10 * (2 / 10)) := by
    rw [Dict.getD, Dict.get?_ofKeys, if_pos hk, Option.getD_some, score, if_neg (by norm_num)]
    rfl
  have hwarm : defaultPrefetcher.score realEnv ((Dict.ofKeys ks (10 : ℝ)).getD "a" 0) = 0 := by
    rw [Dict.getD, Dict.get?_ofKeys, if_neg ha, Option.getD_none, score, if_pos le_rfl]
  have hmem : k ∈ Dict.ofKeys ks (10 : ℝ) :=
    Dict.mem_iff_get?.mpr ⟨10, by rw [Dict.get?_ofKeys, if_pos hk]⟩
  refine (mem_gainers ..).mpr ⟨hmem, by simpa using hne, ?_, "a", by simp, ?_⟩
  · rw [hscore]
    show (1 / 10 : ℝ) < _
    linarith
  · rw [hwarm, hscore]
    linarith

/-- One gainer for a full warm set. -/
theorem oneGainer_sound :
    defaultPrefetcher.ScheduleSound realEnv (.ofKeys ["b"] 10) {"a"} 1
      (defaultPrefetcher.prefetchSchedule realEnv (.ofKeys ["b"] 10) {"a"} 1).1
      (defaultPrefetcher.prefetchSchedule realEnv (.ofKeys ["b"] 10) {"a"} 1).2 := by
  refine (prefetch_schedule_sound_iff _ _ _ (by simp)).mpr ?_
  have hle : (defaultPrefetcher.gainers realEnv (.ofKeys ["b"] 10) {"a"}).length ≤ 1 :=
    List.length_filter_le ..
  rw [Finset.card_singleton]
  omega

/-- Two gainers: "a" is evicted twice. -/
theorem twoGainers_not_sound :
    ¬ defaultPrefetcher.ScheduleSound realEnv (.ofKeys ["b", "c"] 10) {"a"} 1
      (defaultPrefetcher.prefetchSchedule realEnv (.ofKeys ["b", "c"] 10) {"a"} 1).1
      (defaultPrefetcher.prefetchSchedule realEnv (.ofKeys ["b", "c"] 10) {"a"} 1).2 := by
  have hboth : ["b", "c"] ⊆ defaultPrefetcher.gainers realEnv (.ofKeys ["b", "c"] 10) {"a"} := by
    intro k hk
    refine mem_gainers_of_rate hk ?_ (by decide)
    rintro rfl
    exact absurd hk (by decide)
  have htwo := (List.Nodup.subperm (by decide) hboth).length_le
  rw [scheduleSound_iff_length _ _ _ (by simp), length_evict, Finset.card_singleton]
  simp only [List.length_cons, List.length_nil] at htwo
  omega

end PredictivePrefetcher

end AdapterSlots
