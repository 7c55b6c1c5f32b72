import Mathlib.Algebra.Order.Ring.Defs
import Mathlib.Algebra.Order.Ring.Rat
import AdapterSlots.Admission

/-!
# The order of grouped admission

`_group_waiting_by_adapter` sorts the queue by keys of two shapes: the
requests that have waited long enough by their arrival, the others adapter by
adapter, the adapter with the longest queue first. `GroupedOrder` says what
that makes of the queue.

The requests in front of one that has aged are at every later call among
those that arrived before it, so grouping starves no request.
-/

namespace AdapterSlots

namespace Admission

open Lib

variable {K : Type} [Field K] [LinearOrder K]

/-- The request has waited for the limit. -/
def Aged (cfg : AdmissionConfig K) (now : K) (g : QueuedGroup K) : Prop :=
  cfg.groupMaxWaitS ≤ now - g.arrivalTime

instance (cfg : AdmissionConfig K) (now : K) (g : QueuedGroup K) : Decidable (Aged cfg now g) :=
  inferInstanceAs (Decidable (_ ≤ _))

/-- The waiting requests of an adapter, aged or not. -/
def waitingRequests (l : List (QueuedGroup K)) (a : ℤ) : ℕ :=
  l.countP fun g => decide (g.loraIntId = a)

/-- The requests that are grouped. -/
def young (cfg : AdmissionConfig K) (now : K) (l : List (QueuedGroup K)) :
    List (QueuedGroup K) :=
  l.filter fun g => decide (¬ Aged cfg now g)

/-- `out` is the queue `l` in the order of grouped admission. -/
structure GroupedOrder (cfg : AdmissionConfig K) (now : K) (l out : List (QueuedGroup K)) :
    Prop where
  perm : out.Perm l
  agedFirst : out.Pairwise fun g g' => Aged cfg now g' → Aged cfg now g
  agedByArrival : (out.filter fun g => decide (Aged cfg now g)).Pairwise
    fun g g' => g.arrivalTime ≤ g'.arrivalTime
  contiguous : Contiguous ((young cfg now out).map (·.loraIntId))
  adapterByArrival : (young cfg now out).Pairwise
    fun g g' => g.loraIntId = g'.loraIntId → g.arrivalTime ≤ g'.arrivalTime
  longestFirst : (young cfg now out).Pairwise
    fun g g' => waitingRequests l g'.loraIntId ≤ waitingRequests l g.loraIntId

/-- Every request in front of `g` arrived no later. -/
def NotOvertaken (g : QueuedGroup K) (l : List (QueuedGroup K)) : Prop :=
  ∀ before after, l = before ++ g :: after → ∀ g' ∈ before, g'.arrivalTime ≤ g.arrivalTime

/-! ### The keys -/

section Keys

variable {cfg : AdmissionConfig K} {now : K} {count : Dict ℤ ℕ} {g g' : QueuedGroup K}

theorem groupKey_of_aged (h : Aged cfg now g) :
    groupKey cfg now count g = toLex (.inl g.arrivalTime) := if_pos h

theorem groupKey_of_young (h : ¬ Aged cfg now g) : groupKey cfg now count g
    = toLex (.inr (toLex (-(count.getD g.loraIntId 0 : ℤ), toLex (g.loraIntId, g.arrivalTime)))) :=
  if_neg h

/-- A request in front of an aged one is aged, and arrived no later. -/
theorem aged_of_groupKey_le (h : groupKey cfg now count g ≤ groupKey cfg now count g')
    (haged : Aged cfg now g') : Aged cfg now g ∧ g.arrivalTime ≤ g'.arrivalTime := by
  rw [groupKey_of_aged haged] at h
  by_cases hg : Aged cfg now g
  · rw [groupKey_of_aged hg] at h
    exact ⟨hg, Sum.Lex.inl_le_inl_iff.mp h⟩
  · rw [groupKey_of_young hg] at h
    exact absurd h Sum.Lex.not_inr_le_inl

/-- Young requests: the longer queue first, then the adapter, then the arrival. -/
theorem young_of_groupKey_le (h : groupKey cfg now count g ≤ groupKey cfg now count g')
    (hg : ¬ Aged cfg now g) (hg' : ¬ Aged cfg now g') :
    toLex (-(count.getD g.loraIntId 0 : ℤ), g.loraIntId)
        ≤ toLex (-(count.getD g'.loraIntId 0 : ℤ), g'.loraIntId)
      ∧ (g.loraIntId = g'.loraIntId → g.arrivalTime ≤ g'.arrivalTime) := by
  rw [groupKey_of_young hg, groupKey_of_young hg', Sum.Lex.inr_le_inr_iff,
    Prod.Lex.toLex_le_toLex] at h
  rcases h with hlt | ⟨heq, hle⟩
  · refine ⟨Prod.Lex.toLex_le_toLex.mpr (.inl hlt), fun hsame => ?_⟩
    rw [hsame] at hlt
    exact absurd hlt (lt_irrefl _)
  · rw [Prod.Lex.toLex_le_toLex] at hle
    rcases hle with hlt | ⟨hsame, hle⟩
    · exact ⟨Prod.Lex.toLex_le_toLex.mpr (.inr ⟨heq, hlt.le⟩), fun hsame =>
        absurd hsame hlt.ne⟩
    · exact ⟨Prod.Lex.toLex_le_toLex.mpr (.inr ⟨heq, hsame.le⟩), fun _ => hle⟩

end Keys

/-! ### The queue -/

/-- The `count` of `_group_waiting_by_adapter`. -/
def queueCounts (l : List (QueuedGroup K)) : Dict ℤ ℕ :=
  l.foldl (fun d g => d.insert g.loraIntId (d.getD g.loraIntId 0 + 1)) .empty

omit [Field K] [LinearOrder K] in
theorem getD_queueCounts (l : List (QueuedGroup K)) (a : ℤ) :
    (queueCounts l).getD a 0 = waitingRequests l a := by
  rw [queueCounts, Dict.getD_foldl_count (fun g : QueuedGroup K => g.loraIntId)]
  exact Nat.zero_add _

theorem groupWaiting_eq (cfg : AdmissionConfig K) (now : K) (l : List (QueuedGroup K)) :
    groupWaiting cfg now l = sortByKey (groupKey cfg now (queueCounts l)) l := rfl

theorem pairwise_groupWaiting (cfg : AdmissionConfig K) (now : K) (l : List (QueuedGroup K)) :
    (groupWaiting cfg now l).Pairwise fun g g' =>
      groupKey cfg now (queueCounts l) g ≤ groupKey cfg now (queueCounts l) g' := by
  rw [groupWaiting_eq]
  exact pairwise_sortByKey (groupKey cfg now (queueCounts l)) l

theorem mem_young {cfg : AdmissionConfig K} {now : K} {l : List (QueuedGroup K)}
    {g : QueuedGroup K} (h : g ∈ young cfg now l) : ¬ Aged cfg now g :=
  of_decide_eq_true (List.mem_filter.mp h).2

theorem groupedOrder_groupWaiting (cfg : AdmissionConfig K) (now : K)
    (l : List (QueuedGroup K)) : GroupedOrder cfg now l (groupWaiting cfg now l) := by
  have hperm : (groupWaiting cfg now l).Perm l := sortByKey_perm _ _
  have hkeys := pairwise_groupWaiting cfg now l
  have hyoung : (young cfg now (groupWaiting cfg now l)).Pairwise fun g g' =>
      toLex (-((queueCounts l).getD g.loraIntId 0 : ℤ), g.loraIntId)
          ≤ toLex (-((queueCounts l).getD g'.loraIntId 0 : ℤ), g'.loraIntId)
        ∧ (g.loraIntId = g'.loraIntId → g.arrivalTime ≤ g'.arrivalTime) :=
    (hkeys.filter _).imp_of_mem fun hg hg' hle =>
      young_of_groupKey_le hle (mem_young hg) (mem_young hg')
  refine ⟨hperm, hkeys.imp fun hle haged => (aged_of_groupKey_le hle haged).1, ?_, ?_,
    hyoung.imp And.right, hyoung.imp ?_⟩
  · refine (hkeys.filter _).imp_of_mem fun _ hg' hle => ?_
    exact (aged_of_groupKey_le hle (of_decide_eq_true (List.mem_filter.mp hg').2)).2
  · refine contiguous_map_of_sorted (hyoung.imp And.left) fun g _ g' _ => ⟨fun h => ?_, fun h => ?_⟩
    · rw [h]
    · exact (Prod.mk.inj (toLex.injective h)).2
  · rintro g g' ⟨hle, -⟩
    rw [Prod.Lex.toLex_le_toLex, getD_queueCounts, getD_queueCounts] at hle
    rcases hle with hlt | ⟨heq, -⟩
    · exact Int.ofNat_le.mp (neg_lt_neg_iff.mp hlt).le
    · exact Int.ofNat_le.mp (neg_inj.mp heq).ge

omit [Field K] in
theorem NotOvertaken.of_pairwise {g : QueuedGroup K} {l : List (QueuedGroup K)}
    (h : l.Pairwise fun g' g'' => g'' = g → g'.arrivalTime ≤ g.arrivalTime) : NotOvertaken g l := by
  rintro before after rfl g' hg'
  obtain ⟨-, -, hbetween⟩ := List.pairwise_append.mp h
  exact hbetween g' hg' g (List.mem_cons_self ..) rfl

theorem pairwise_groupWaiting_of_aged {cfg : AdmissionConfig K} {now : K} {g : QueuedGroup K}
    (haged : Aged cfg now g) (l : List (QueuedGroup K)) :
    (groupWaiting cfg now l).Pairwise fun g' g'' => g'' = g → g'.arrivalTime ≤ g.arrivalTime := by
  refine (pairwise_groupWaiting cfg now l).imp fun hle heq => ?_
  rw [heq] at hle
  exact (aged_of_groupKey_le hle haged).2

section Later

variable [IsStrictOrderedRing K]

/-- A request stays aged. -/
theorem Aged.later {cfg : AdmissionConfig K} {now now' : K} {g : QueuedGroup K}
    (h : Aged cfg now g) (hlater : now ≤ now') : Aged cfg now' g :=
  h.trans (sub_le_sub_right hlater _)

/-- **Grouped admission** keeps `GroupedOrder`, and no request that joins later gets in
front of an aged one, neither in the queue nor in the part vLLM's call is offered. -/
theorem groupWaiting_no_starvation {X : Type} (cfg : AdmissionConfig K) (now : K)
    (l : List (QueuedGroup K)) :
    GroupedOrder cfg now l (groupWaiting cfg now l)
      ∧ ∀ g ∈ l, Aged cfg now g → ∀ now', now ≤ now' →
        (∀ l', NotOvertaken g (groupWaiting cfg now' l'))
        ∧ ∀ (c : PrefillCall K) (s : AdmissionState K X), cfg.admitGrouped → c.groupTime = now' →
          NotOvertaken g (atInner cfg c s).waiting := by
  refine ⟨groupedOrder_groupWaiting cfg now l, fun g _ haged now' hlater => ?_⟩
  have hpair := pairwise_groupWaiting_of_aged (haged.later hlater)
  refine ⟨fun l' => .of_pairwise (hpair l'), fun c s hgrouped hclock => .of_pairwise ?_⟩
  rw [waiting_atInner]
  refine List.Pairwise.filter _ ?_
  unfold offered
  split
  · rw [hclock]
    exact hpair s.waiting
  · -- a queue of at most one request
    rename_i hnot
    have hshort : s.waiting.length ≤ 1 := not_lt.mp fun hlong => hnot ⟨hgrouped, hlong⟩
    match hs : s.waiting with
    | [] => exact List.Pairwise.nil
    | [g'] => exact List.pairwise_singleton _ _
    | _ :: _ :: _ =>
        rw [hs] at hshort
        exact absurd hshort (by simp)

end Later

/-- Two newer requests of another adapter stay behind. -/
theorem agedRequest_not_overtaken :
    Aged oneSlotConfig 31 (queuedGroup 0 1 0 true)
      ∧ NotOvertaken (queuedGroup 0 1 0 true) (groupWaiting oneSlotConfig 40
        [queuedGroup 1 2 35 true, queuedGroup 2 2 36 true, queuedGroup 0 1 0 true]) := by
  have haged : Aged oneSlotConfig 31 (queuedGroup 0 1 0 true) := by decide +kernel
  exact ⟨haged, ((groupWaiting_no_starvation (X := Unit) oneSlotConfig 31
    [queuedGroup 0 1 0 true]).2 _ (List.mem_singleton.mpr rfl) haged 40 (by decide +kernel)).1 _⟩

end Admission

end AdapterSlots
