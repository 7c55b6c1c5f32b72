import Mathlib.Data.Finset.Basic
import Mathlib.Tactic.Common
import AdapterSlots.Lib.Dict
import AdapterSlots.Lib.Exec
import AdapterSlots.Lib.Recency

/-!
# The merged-weight cache

`MergedWeightCache` of `l3.py` and the threads that share it. The scheduler
asks for an adapter, a loader thread reads its LoRA tensors, and the model
runner takes one loaded adapter at a time, merges it and inserts the result,
evicting the adapter used least recently. The lock covers each of these
steps, not the way from one to the next: between pop and insert the adapter
is in neither map.

`_requested` is the record of what is under way. `Placed` counts the places
an adapter is in, and says that the set holds those that are in one.
-/

namespace AdapterSlots

open Lib

variable {T W : Type}

/-- `T` are the LoRA tensors of an adapter, `W` its merged weights. -/
structure MergedWeightCache (T W : Type) where
  kHotMax : ℕ
  kHot : Option ℕ
  weights : Dict ℤ W
  loaded : Dict ℤ T
  requested : Finset ℤ
  nMerges : ℕ

namespace MergedWeightCache

def init (kHotMax : ℕ) : MergedWeightCache T W := ⟨kHotMax, none, .empty, .empty, ∅, 0⟩

/-! ## Critical sections -/

/-- The test of `request`: the adapter is to be loaded. -/
def Accepts (m : MergedWeightCache T W) (loraId : ℤ) : Prop :=
  ¬ (m.kHot = some 0 ∨ loraId ∈ m.weights ∨ loraId ∈ m.requested)

instance (m : MergedWeightCache T W) (loraId : ℤ) : Decidable (m.Accepts loraId) :=
  inferInstanceAs (Decidable (¬ _))

def isMerged (m : MergedWeightCache T W) (loraId : ℤ) : Bool := decide (loraId ∈ m.weights)

/-- `_size`, with `fit` adapters in the free memory; the cache is sized once. -/
def size (m : MergedWeightCache T W) (fit : ℕ) : MergedWeightCache T W :=
  { m with kHot := some (m.kHot.getD (min m.kHotMax fit)) }

/-- Nothing fits: forget what was asked for. -/
def disable (m : MergedWeightCache T W) : MergedWeightCache T W :=
  { m with requested := ∅, loaded := .empty }

/-- `while len(self._weights) >= self.k_hot`, from the least recently used adapter
on. With `k_hot = 0` the loop would run into an empty map; it is not called then. -/
def evictLoop (kHot : ℕ) : List (ℤ × W) → Finset ℤ → List (ℤ × W) × Finset ℤ
  | [], requested => ([], requested)
  | e :: es, requested =>
      if kHot ≤ es.length + 1 then evictLoop kHot es (requested.erase e.1)
      else (e :: es, requested)

theorem evictLoop_sublist (kHot : ℕ) : ∀ (es : List (ℤ × W)) (requested : Finset ℤ),
    (evictLoop kHot es requested).1.Sublist es
  | [], _ => List.Sublist.refl _
  | e :: es, requested => by
      rw [evictLoop]
      split
      · exact (evictLoop_sublist kHot es _).cons e
      · exact List.Sublist.refl _

/-- The end of `process`. -/
def insertMerged (m : MergedWeightCache T W) (loraId : ℤ) (merged : W) : MergedWeightCache T W :=
  let kHot := m.kHot.getD 0
  let kept := evictLoop kHot m.weights.entries m.requested
  { m with
    weights := (m.weights.restrict kept.1 (evictLoop_sublist kHot _ _)).insert loraId merged
    requested := kept.2
    nMerges := m.nMerges + 1 }

def get (m : MergedWeightCache T W) (loraId : ℤ) : MergedWeightCache T W × Option W :=
  match m.weights.get? loraId with
  | none => (m, none)
  | some w => ({ m with weights := (m.weights.erase loraId).insert loraId w }, some w)

end MergedWeightCache

namespace MergedWeightCache

/-! ## Eviction -/

/-- The loop drops entries from the front until there is room for one more. -/
theorem evictLoop_spec {kHot : ℕ} (hk : 0 < kHot) : ∀ (es : List (ℤ × W)) (requested : Finset ℤ),
    ∃ evicted, es.map Prod.fst = evicted ++ (evictLoop kHot es requested).1.map Prod.fst
      ∧ evicted.length = es.length + 1 - kHot
      ∧ ∀ id, id ∈ (evictLoop kHot es requested).2 ↔ id ∈ requested ∧ id ∉ evicted
  | [], requested => by
      refine ⟨[], rfl, ?_, fun id => ?_⟩
      · rw [List.length_nil, List.length_nil]
        omega
      · exact (and_iff_left List.not_mem_nil).symm
  | e :: es, requested => by
      rw [evictLoop]
      split
      · rename_i hfull
        obtain ⟨evicted, hes, hlen, hreq⟩ := evictLoop_spec hk es (requested.erase e.1)
        refine ⟨e.1 :: evicted, ?_, ?_, fun id => ?_⟩
        · rw [List.map_cons, hes, List.cons_append]
        · rw [List.length_cons, List.length_cons, hlen]
          omega
        · rw [hreq, Finset.mem_erase, List.mem_cons, not_or]
          tauto
      · rename_i hroom
        refine ⟨[], rfl, ?_, fun id => ?_⟩
        · rw [List.length_nil, List.length_cons]
          omega
        · exact (and_iff_left List.not_mem_nil).symm

/-- What `process` inserts and evicts, in a cache within its size. -/
theorem insertMerged_spec {m : MergedWeightCache T W} {k : ℕ} {id : ℤ} (merged : W)
    (hk : m.kHot = some (k + 1)) (hlen : m.weights.keys.length ≤ k + 1) (hid : id ∉ m.weights) :
    ∃ evicted kept, m.weights.keys = evicted ++ kept ∧ evicted.length ≤ 1 ∧ kept.length ≤ k
      ∧ (m.insertMerged id merged).weights.keys = kept ++ [id]
      ∧ ∀ id', id' ∈ (m.insertMerged id merged).requested ↔ id' ∈ m.requested ∧ id' ∉ evicted := by
  obtain ⟨evicted, hkeys, hev, hreq⟩ := evictLoop_spec k.succ_pos m.weights.entries m.requested
  have hsub := evictLoop_sublist (k + 1) m.weights.entries m.requested
  have hnot : id ∉ m.weights.restrict _ hsub := fun h => hid ((hsub.map Prod.fst).subset h)
  have htotal := congrArg List.length hkeys
  rw [Dict.keys, List.length_map] at hlen
  rw [List.length_map, List.length_append] at htotal
  refine ⟨evicted, _, hkeys, by omega, by omega, ?_, fun id' => ?_⟩
  · simp only [insertMerged, hk, Option.getD_some]
    rw [Dict.keys_insert, if_neg hnot]
    rfl
  · simp only [insertMerged, hk, Option.getD_some]
    exact hreq id'

theorem keys_get (m : MergedWeightCache T W) (id : ℤ) : (m.get id).1.weights.keys
    = if id ∈ m.weights then m.weights.keys.filter (fun k => decide (k ≠ id)) ++ [id]
      else m.weights.keys := by
  unfold get
  cases hget : m.weights.get? id with
  | none => rw [if_neg (Dict.get?_eq_none.mp hget)]
  | some w =>
      have hnot : id ∉ m.weights.erase id := fun h => (Dict.mem_erase.mp h).2 rfl
      rw [if_pos (Dict.mem_iff_get?.mpr ⟨w, hget⟩), Dict.keys_insert, if_neg hnot, Dict.keys_erase]

theorem mem_get (m : MergedWeightCache T W) (id : ℤ) {id' : ℤ} :
    id' ∈ (m.get id).1.weights ↔ id' ∈ m.weights := by
  rw [Dict.mem_def, keys_get]
  split
  · rename_i hin
    rw [List.mem_append, List.mem_filter, List.mem_singleton, decide_eq_true_eq]
    exact ⟨fun h => h.elim And.left fun heq => heq ▸ hin, fun h => by tauto⟩
  · rfl

theorem length_keys_get (m : MergedWeightCache T W) (id : ℤ) :
    (m.get id).1.weights.keys.length = m.weights.keys.length := by
  rw [keys_get]
  split
  · rename_i hin
    rw [← Dict.keys_erase, List.length_append, List.length_singleton, Dict.length_keys_erase hin]
  · rfl

theorem get_eq (m : MergedWeightCache T W) (id : ℤ) :
    (m.get id).1 = { m with weights := (m.get id).1.weights } := by
  unfold get
  split <;> rfl

end MergedWeightCache

/-! ## The threads -/

/-- Where the model runner is in `process`. -/
inductive Runner (T : Type) where
  | idle
  | popped (loraId : ℤ) (tensors : T)
  | merging (loraId : ℤ) (tensors : T)
  | disabling

def Runner.holds (r : Runner T) (id : ℤ) : Bool :=
  match r with
  | .popped loraId _ => decide (id = loraId)
  | .merging loraId _ => decide (id = loraId)
  | _ => false

/-- The cache, the loader threads and the model runner. -/
structure MergeSystem (T W : Type) where
  cache : MergedWeightCache T W
  loading : List ℤ
  runner : Runner T

/-- The steps of the threads. -/
inductive MergeAction (T : Type) where
  | request (loraId : ℤ)
  | loadEnd (loraId : ℤ) (tensors : T)
  | processStart
  | processSize (fit : ℕ)
  | processDisable
  | processEnd
  | get (loraId : ℤ)

namespace MergeSystem

def init (kHotMax : ℕ) : MergeSystem T W := ⟨.init kHotMax, [], .idle⟩

/-- One step; `none` when the thread is not at that point. Only `get` has a result. -/
def step (merge : T → W) (s : MergeSystem T W) : MergeAction T → Option (MergeSystem T W × Option W)
  | .request id =>
      if s.cache.Accepts id then
        some ({ s with
          cache := { s.cache with requested := insert id s.cache.requested }
          loading := s.loading ++ [id] }, none)
      else some (s, none)
  | .loadEnd id tensors =>
      if id ∈ s.loading then
        some ({ s with
          cache := { s.cache with loaded := s.cache.loaded.insert id tensors }
          loading := s.loading.erase id }, none)
      else none
  | .processStart =>
      match s.runner with
      | .idle =>
          match s.cache.loaded.popLast with
          | none => some (s, none)
          | some (loaded, id, tensors) =>
              some ({ s with
                cache := { s.cache with loaded := loaded }
                runner := .popped id tensors }, none)
      | _ => none
  | .processSize fit =>
      match s.runner with
      | .popped id tensors =>
          let cache := s.cache.size fit
          some ({ s with
            cache := cache
            runner := if cache.kHot = some 0 then .disabling else .merging id tensors }, none)
      | _ => none
  | .processDisable =>
      match s.runner with
      | .disabling => some ({ s with cache := s.cache.disable, runner := .idle }, none)
      | _ => none
  | .processEnd =>
      match s.runner with
      | .merging id tensors =>
          some ({ s with cache := s.cache.insertMerged id (merge tensors), runner := .idle }, none)
      | _ => none
  | .get id =>
      some ({ s with cache := (s.cache.get id).1 }, (s.cache.get id).2)

def Step (merge : T → W) (s : MergeSystem T W) (a : MergeAction T) (out : Option W)
    (s' : MergeSystem T W) : Prop :=
  s.step merge a = some (s', out)

/-- The ways through a step. -/
inductive Move (merge : T → W) (s : MergeSystem T W) :
    MergeAction T → Option W → MergeSystem T W → Prop
  | request {id : ℤ} : s.cache.Accepts id → Move merge s (.request id) none { s with
      cache := { s.cache with requested := insert id s.cache.requested }
      loading := s.loading ++ [id] }
  | refuse {id : ℤ} : ¬ s.cache.Accepts id → Move merge s (.request id) none s
  | loadEnd {id : ℤ} {tensors : T} : id ∈ s.loading → Move merge s (.loadEnd id tensors) none
      { s with
        cache := { s.cache with loaded := s.cache.loaded.insert id tensors }
        loading := s.loading.erase id }
  | nothingLoaded : s.runner = .idle → Move merge s .processStart none s
  | pop {loaded : Dict ℤ T} {id : ℤ} {tensors : T} : s.runner = .idle →
      s.cache.loaded.popLast = some (loaded, id, tensors) → Move merge s .processStart none { s with
        cache := { s.cache with loaded := loaded }
        runner := .popped id tensors }
  | size {fit : ℕ} {id : ℤ} {tensors : T} : s.runner = .popped id tensors →
      Move merge s (.processSize fit) none { s with
        cache := s.cache.size fit
        runner := if (s.cache.size fit).kHot = some 0 then .disabling else .merging id tensors }
  | disable : s.runner = .disabling →
      Move merge s .processDisable none { s with cache := s.cache.disable, runner := .idle }
  | insert {id : ℤ} {tensors : T} : s.runner = .merging id tensors →
      Move merge s .processEnd none
        { s with cache := s.cache.insertMerged id (merge tensors), runner := .idle }
  | get {id : ℤ} :
      Move merge s (.get id) (s.cache.get id).2 { s with cache := (s.cache.get id).1 }

theorem Step.move {merge : T → W} {s s' : MergeSystem T W} {a : MergeAction T} {out : Option W}
    (h : Step merge s a out s') : Move merge s a out s' := by
  unfold Step at h
  cases a with
  | request id =>
      by_cases hacc : s.cache.Accepts id
      · rw [step, if_pos hacc] at h
        obtain ⟨rfl, rfl⟩ := Prod.mk.inj (Option.some.inj h)
        exact .request hacc
      · rw [step, if_neg hacc] at h
        obtain ⟨rfl, rfl⟩ := Prod.mk.inj (Option.some.inj h)
        exact .refuse hacc
  | loadEnd id tensors =>
      by_cases hid : id ∈ s.loading
      · rw [step, if_pos hid] at h
        obtain ⟨rfl, rfl⟩ := Prod.mk.inj (Option.some.inj h)
        exact .loadEnd hid
      · rw [step, if_neg hid] at h
        cases h
  | processStart =>
      cases hrun : s.runner with
      | idle =>
          cases hpop : s.cache.loaded.popLast with
          | none =>
              simp only [step, hrun, hpop] at h
              obtain ⟨rfl, rfl⟩ := Prod.mk.inj (Option.some.inj h)
              exact .nothingLoaded hrun
          | some p =>
              simp only [step, hrun, hpop] at h
              obtain ⟨rfl, rfl⟩ := Prod.mk.inj (Option.some.inj h)
              exact .pop hrun hpop
      | _ =>
          simp only [step, hrun] at h
          cases h
  | processSize fit =>
      cases hrun : s.runner with
      | popped id tensors =>
          simp only [step, hrun] at h
          obtain ⟨rfl, rfl⟩ := Prod.mk.inj (Option.some.inj h)
          exact .size hrun
      | _ =>
          simp only [step, hrun] at h
          cases h
  | processDisable =>
      cases hrun : s.runner with
      | disabling =>
          simp only [step, hrun] at h
          obtain ⟨rfl, rfl⟩ := Prod.mk.inj (Option.some.inj h)
          exact .disable hrun
      | _ =>
          simp only [step, hrun] at h
          cases h
  | processEnd =>
      cases hrun : s.runner with
      | merging id tensors =>
          simp only [step, hrun] at h
          obtain ⟨rfl, rfl⟩ := Prod.mk.inj (Option.some.inj h)
          exact .insert hrun
      | _ =>
          simp only [step, hrun] at h
          cases h
  | get id =>
      obtain ⟨rfl, rfl⟩ := Prod.mk.inj (Option.some.inj h)
      exact .get

/-! ## Places -/

/-- In how many places the adapter is: it counts once for each thread that loads it,
and for each of the maps and the merge under way. -/
def places (s : MergeSystem T W) (id : ℤ) : ℕ :=
  s.loading.count id + (if id ∈ s.cache.loaded then 1 else 0)
    + (if s.runner.holds id then 1 else 0) + if id ∈ s.cache.weights then 1 else 0

/-- `_requested` holds the adapters that are in one place; the others are in none. -/
def Placed (s : MergeSystem T W) : Prop :=
  ∀ id, s.places id = if id ∈ s.cache.requested then 1 else 0

/-- The adapter inserted or asked for by a step. -/
def usedAdapter (e : Event (MergeSystem T W) (MergeAction T) (Option W)) : Option ℤ :=
  match e.label, e.pre.runner with
  | .get id, _ => some id
  | .processEnd, .merging id _ => some id
  | _, _ => none

/-- The insertions and gets of a run in their order. -/
def uses (tr : List (Event (MergeSystem T W) (MergeAction T) (Option W))) : List ℤ :=
  tr.filterMap usedAdapter

/-- The invariant of a run with the insertions and gets `l`. -/
structure Sound (l : List ℤ) (s : MergeSystem T W) : Prop where
  placed : s.cache.kHot ≠ some 0 → s.Placed
  unsized : s.cache.kHot = none → s.cache.weights.keys = []
  capacity : ∀ k, s.cache.kHot = some k → s.cache.weights.keys.length ≤ k
  merging : ∀ id tensors, s.runner = .merging id tensors → ∃ k, s.cache.kHot = some (k + 1)
  disabling : s.runner = .disabling → s.cache.kHot = some 0
  order : OldestFirst l s.cache.weights.keys

section Steps

variable {merge : T → W} {l : List ℤ} {s s' : MergeSystem T W} {id : ℤ}

theorem sound_init (kHotMax : ℕ) : Sound [] (init kHotMax : MergeSystem T W) := by
  refine ⟨fun _ id => ?_, fun _ => rfl, nofun, nofun, nofun, OldestFirst.nil _⟩
  simp [places, init, MergedWeightCache.init, Runner.holds, Dict.mem_def, Dict.keys, Dict.empty]

/-- A request of an accepted adapter starts a load. -/
theorem Sound.request (h : Sound l s) (hacc : s.cache.Accepts id) :
    Sound l { s with
      cache := { s.cache with requested := insert id s.cache.requested }
      loading := s.loading ++ [id] } := by
  refine ⟨fun hk id' => ?_, h.unsized, h.capacity, h.merging, h.disabling, h.order⟩
  have hplaced := h.placed hk id'
  obtain ⟨-, hacc⟩ := not_or.mp hacc
  obtain ⟨-, hreq⟩ := not_or.mp hacc
  simp only [places, List.count_append, List.count_singleton, Finset.mem_insert] at hplaced ⊢
  by_cases hid : id' = id
  · subst hid
    rw [if_neg hreq] at hplaced
    simp only [beq_self_eq_true, if_true, true_or]
    omega
  · have hid' : (id == id') = false := beq_eq_false_iff_ne.mpr fun heq => hid heq.symm
    simp only [hid', Bool.false_eq_true, if_false, hid, false_or]
    omega

/-- A loader thread hands its tensors over. -/
theorem Sound.loadEnd (h : Sound l s) (hid : id ∈ s.loading) (tensors : T) :
    Sound l { s with
      cache := { s.cache with loaded := s.cache.loaded.insert id tensors }
      loading := s.loading.erase id } := by
  refine ⟨fun hk id' => ?_, h.unsized, h.capacity, h.merging, h.disabling, h.order⟩
  have hplaced := h.placed hk id'
  have hcount := List.count_pos_iff.mpr hid
  simp only [places, List.count_erase, Dict.mem_insert] at hplaced ⊢
  by_cases heq : id' = id
  · subst heq
    have hle : (if id' ∈ s.cache.requested then 1 else 0) ≤ 1 := by split <;> omega
    have hloaded : id' ∉ s.cache.loaded := by
      intro hmem
      rw [if_pos hmem] at hplaced
      omega
    rw [if_neg hloaded] at hplaced
    simp only [beq_self_eq_true, if_true, true_or]
    omega
  · have hne : (id == id') = false := beq_eq_false_iff_ne.mpr fun h => heq h.symm
    simp only [hne, Bool.false_eq_true, if_false, heq, false_or]
    omega

/-- The runner takes a loaded adapter. -/
theorem Sound.processStart (h : Sound l s) (hidle : s.runner = .idle) {loaded : Dict ℤ T}
    {tensors : T} (hpop : s.cache.loaded.popLast = some (loaded, id, tensors)) :
    Sound l { s with
      cache := { s.cache with loaded := loaded }
      runner := .popped id tensors } := by
  refine ⟨fun hk id' => ?_, h.unsized, h.capacity, nofun, nofun, h.order⟩
  have hplaced := h.placed hk id'
  obtain ⟨hnot, hmem⟩ := Dict.mem_popLast hpop
  simp only [places, hidle, Runner.holds, hmem id', decide_eq_true_eq, Bool.false_eq_true,
    if_false] at hplaced ⊢
  rw [← hplaced]
  by_cases heq : id' = id
  · simp only [heq, hnot, or_true, if_true, if_false]
  · simp only [heq, or_false, if_false]

/-- The cache is sized once. -/
theorem Sound.processSize (h : Sound l s) {tensors : T} (hpop : s.runner = .popped id tensors)
    (fit : ℕ) :
    Sound l { s with
      cache := s.cache.size fit
      runner := if (s.cache.size fit).kHot = some 0 then .disabling else .merging id tensors } := by
  have hkHot : (s.cache.size fit).kHot = some (s.cache.kHot.getD (min s.cache.kHotMax fit)) := rfl
  have hplaced : (s.cache.size fit).kHot ≠ some 0 → s.Placed := fun hk => h.placed fun hzero => by
    rw [hkHot, hzero] at hk
    exact hk rfl
  refine ⟨fun hk id' => ?_, nofun, fun k hk => ?_, fun id' tensors' hrun => ?_, fun hrun => ?_,
    h.order⟩
  · have hplaced := hplaced hk id'
    rw [places, hpop] at hplaced
    rw [places, if_neg hk]
    exact hplaced
  · cases hkh : s.cache.kHot with
    | none =>
        show s.cache.weights.keys.length ≤ k
        rw [h.unsized hkh]
        exact Nat.zero_le _
    | some k₀ =>
        rw [hkHot, hkh] at hk
        obtain rfl : k₀ = k := Option.some.inj hk
        exact h.capacity k₀ hkh
  · change (if (s.cache.size fit).kHot = some 0 then Runner.disabling else .merging id tensors)
      = .merging id' tensors' at hrun
    split at hrun
    · cases hrun
    · rename_i hne
      obtain ⟨k, hk⟩ := Nat.exists_eq_succ_of_ne_zero fun h => hne (congrArg some h)
      exact ⟨k, hkHot.trans (congrArg some hk)⟩
  · change (if (s.cache.size fit).kHot = some 0 then Runner.disabling else .merging id tensors)
      = .disabling at hrun
    split at hrun
    · assumption
    · cases hrun

theorem Sound.processDisable (h : Sound l s) (hrun : s.runner = .disabling) :
    Sound l { s with cache := s.cache.disable, runner := .idle } :=
  ⟨fun hk => absurd (h.disabling hrun) hk, h.unsized, h.capacity, nofun, nofun, h.order⟩

/-- An adapter under way is in no other place. -/
theorem Placed.not_mem_weights (h : s.Placed) (hid : s.runner.holds id) :
    id ∉ s.cache.weights := by
  intro hmem
  have hplaced := h id
  have hle : (if id ∈ s.cache.requested then 1 else 0) ≤ 1 := by split <;> omega
  rw [places, if_pos hid, if_pos hmem] at hplaced
  omega

/-- What the end of a merge does: it inserts its adapter, and a full cache loses the
one used least recently. -/
structure Evicts (l : List ℤ) (s : MergeSystem T W) (s' : MergeSystem T W) (victim : ℤ) : Prop where
  oldest : ∀ id ∈ s.cache.weights, lastUse l victim ≤ lastUse l id
  others : ∀ id ∈ s.cache.weights, id ≠ victim → id ∈ s'.cache.weights
  accepts : s'.cache.Accepts victim

/-- How the merged adapters change when the merge of `id` ends: the evicted ones
stood in front. -/
structure Inserted (s : MergeSystem T W) (id : ℤ) (merged : W) (evicted kept : List ℤ) : Prop where
  keys : s.cache.weights.keys = evicted ++ kept
  fresh : id ∉ s.cache.weights
  length_evicted : evicted.length ≤ 1
  length_kept : ∀ k, s.cache.kHot = some k → kept.length < k
  keys_new : (s.cache.insertMerged id merged).weights.keys = kept ++ [id]
  requested : ∀ id', id' ∈ (s.cache.insertMerged id merged).requested
    ↔ id' ∈ s.cache.requested ∧ id' ∉ evicted

section Inserted

variable {merged : W} {evicted kept : List ℤ}

theorem Inserted.mem_old (h : Inserted s id merged evicted kept) (id' : ℤ) :
    id' ∈ s.cache.weights ↔ id' ∈ evicted ∨ id' ∈ kept := by
  rw [Dict.mem_def, h.keys, List.mem_append]

theorem Inserted.mem_new (h : Inserted s id merged evicted kept) (id' : ℤ) :
    id' ∈ (s.cache.insertMerged id merged).weights ↔ id' ∈ kept ∨ id' = id := by
  rw [Dict.mem_def, h.keys_new, List.mem_append, List.mem_singleton]

theorem Inserted.not_kept (h : Inserted s id merged evicted kept) {id' : ℤ} (hev : id' ∈ evicted) :
    id' ∉ kept := by
  have hnd := s.cache.weights.nodup_keys
  rw [h.keys] at hnd
  exact fun hkeep => (List.nodup_append.mp hnd).2.2 id' hev id' hkeep rfl

/-- Every adapter keeps its place, but for the merged one, which takes one, and the
evicted ones, which lose theirs. -/
theorem Inserted.placed (h : Inserted s id merged evicted kept) {tensors : T}
    (hrun : s.runner = .merging id tensors) (hplaced : s.Placed) :
    Placed { s with cache := s.cache.insertMerged id merged, runner := .idle } := by
  intro id'
  have hidle : ({ s with cache := s.cache.insertMerged id merged, runner := .idle } :
      MergeSystem T W).places id' = s.loading.count id' + (if id' ∈ s.cache.loaded then 1 else 0)
        + 0 + if id' ∈ kept ∨ id' = id then 1 else 0 := by
    simp only [places, Runner.holds, Bool.false_eq_true, if_false, h.mem_new]
    rfl
  have hbusy : s.loading.count id' + (if id' ∈ s.cache.loaded then 1 else 0)
        + (if id' = id then 1 else 0) + (if id' ∈ evicted ∨ id' ∈ kept then 1 else 0)
      = if id' ∈ s.cache.requested then 1 else 0 := by
    have hp := hplaced id'
    simpa only [places, hrun, Runner.holds, decide_eq_true_eq, h.mem_old] using hp
  rw [hidle]
  simp only [h.requested]
  by_cases hev : id' ∈ evicted
  · have hnot := h.not_kept hev
    have hne : id' ≠ id := fun heq => h.fresh (heq ▸ (h.mem_old id').mpr (.inl hev))
    simp only [hev, hnot, hne, true_or, not_true_eq_false, and_false, or_self, if_true,
      if_false] at hbusy ⊢
    have hle : (if id' ∈ s.cache.requested then 1 else 0) ≤ 1 := by split <;> omega
    omega
  · simp only [hev, false_or, not_false_eq_true, and_true] at hbusy ⊢
    rw [← hbusy]
    by_cases hkeep : id' ∈ kept
    · have hne : id' ≠ id := fun heq => h.fresh (heq ▸ (h.mem_old id').mpr (.inr hkeep))
      simp only [hkeep, hne, true_or, if_true, if_false]
    · simp only [hkeep, false_or, if_false]
      omega

/-- Only the head is evicted. -/
theorem Inserted.eq_head (h : Inserted s id merged evicted kept) {victim : ℤ}
    (hv : victim ∈ s.cache.weights) (hnot : victim ∉ (s.cache.insertMerged id merged).weights) :
    s.cache.weights.keys = victim :: kept := by
  have hev : victim ∈ evicted := ((h.mem_old victim).mp hv).resolve_right fun hkeep =>
    hnot ((h.mem_new victim).mpr (.inl hkeep))
  rw [h.keys]
  cases evicted with
  | nil => cases hev
  | cons v vs =>
      obtain rfl : vs = [] := List.length_eq_zero_iff.mp (by
        have hone := h.length_evicted
        rw [List.length_cons] at hone
        omega)
      rw [List.mem_singleton.mp hev]
      rfl

end Inserted

theorem Sound.inserted (h : Sound l s) {tensors : T} (hrun : s.runner = .merging id tensors)
    (merged : W) : s.Placed ∧ ∃ evicted kept, Inserted s id merged evicted kept := by
  obtain ⟨k, hk⟩ := h.merging id tensors hrun
  have hplaced : s.Placed := by
    refine h.placed ?_
    rw [hk]
    simp
  have hid : id ∉ s.cache.weights :=
    hplaced.not_mem_weights (by rw [hrun, Runner.holds, decide_eq_true rfl])
  obtain ⟨evicted, kept, hkeys, hone, hkept, hnew, hreq⟩ :=
    MergedWeightCache.insertMerged_spec merged hk (h.capacity _ hk) hid
  refine ⟨hplaced, evicted, kept, hkeys, hid, hone, fun k' hk' => ?_, hnew, hreq⟩
  obtain rfl := Option.some.inj (hk.symm.trans hk')
  exact Nat.lt_succ_of_le hkept

theorem Sound.processEnd (h : Sound l s) {tensors : T} (hrun : s.runner = .merging id tensors)
    (merged : W) :
    Sound (l ++ [id]) { s with cache := s.cache.insertMerged id merged, runner := .idle } := by
  obtain ⟨hplaced, evicted, kept, hins⟩ := h.inserted hrun merged
  obtain ⟨k, hk⟩ := h.merging id tensors hrun
  refine ⟨fun _ => hins.placed hrun hplaced, fun hnone => ?_, fun k' hk' => ?_, nofun, nofun, ?_⟩
  · exact absurd (hk.symm.trans hnone) (by simp)
  · rw [hins.keys_new, List.length_append, List.length_singleton]
    exact hins.length_kept k' hk'
  · rw [hins.keys_new]
    refine OldestFirst.use_new (h.order.sublist ?_) fun hmem =>
      hins.fresh ((hins.mem_old id).mpr (.inr hmem))
    rw [hins.keys]
    exact List.sublist_append_right evicted kept

theorem Sound.processEnd_evicts (h : Sound l s) {tensors : T}
    (hrun : s.runner = .merging id tensors) (merged : W) {victim : ℤ}
    (hv : victim ∈ s.cache.weights) (hnot : victim ∉ (s.cache.insertMerged id merged).weights) :
    Evicts l s { s with cache := s.cache.insertMerged id merged, runner := .idle } victim := by
  obtain ⟨-, evicted, kept, hins⟩ := h.inserted hrun merged
  obtain ⟨k, hk⟩ := h.merging id tensors hrun
  have hkeys := hins.eq_head hv hnot
  refine ⟨fun id' hin => ?_, fun id' hin hne => ?_, ?_⟩
  · have hfirst : OldestFirst l (victim :: kept) := hkeys ▸ h.order
    exact hfirst.head_le (by rw [← hkeys]; exact hin)
  · rw [Dict.mem_def, hkeys] at hin
    exact (hins.mem_new id').mpr (.inl ((List.mem_cons.mp hin).resolve_left hne))
  · rintro (hzero | hin | hin)
    · exact absurd (hk.symm.trans hzero) (by simp)
    · exact hnot hin
    · have hev := ((hins.requested victim).mp hin).2
      exact hnot ((hins.mem_new victim).mpr (.inl (((hins.mem_old victim).mp hv).resolve_left hev)))

theorem Sound.get (h : Sound l s) (id : ℤ) :
    Sound (l ++ [id]) { s with cache := (s.cache.get id).1 } := by
  have hlen := s.cache.length_keys_get id
  rw [s.cache.get_eq id]
  refine ⟨fun hk id' => ?_, fun hnone => ?_, fun k hk => ?_, h.merging, h.disabling, ?_⟩
  · have hp := h.placed hk id'
    simp only [places, MergedWeightCache.mem_get] at hp ⊢
    exact hp
  · refine List.length_eq_zero_iff.mp (hlen.trans ?_)
    rw [h.unsized hnone, List.length_nil]
  · exact hlen.trans_le (h.capacity k hk)
  · show OldestFirst (l ++ [id]) (s.cache.get id).1.weights.keys
    rw [s.cache.keys_get id]
    split
    · exact h.order.use id
    · rename_i hnot
      exact h.order.use_other hnot

/-- Every step of every thread keeps the invariant. -/
theorem Sound.move (h : Sound l s) {a : MergeAction T} {out : Option W}
    (hmove : Move merge s a out s') : Sound (l ++ (usedAdapter ⟨s, a, out, s'⟩).toList) s' := by
  cases hmove with
  | request hacc => exact (List.append_nil l).symm ▸ h.request hacc
  | refuse hacc => exact (List.append_nil l).symm ▸ h
  | loadEnd hid => exact (List.append_nil l).symm ▸ h.loadEnd hid _
  | nothingLoaded hrun => exact (List.append_nil l).symm ▸ h
  | pop hrun hpop => exact (List.append_nil l).symm ▸ h.processStart hrun hpop
  | size hrun => exact (List.append_nil l).symm ▸ h.processSize hrun _
  | disable hrun => exact (List.append_nil l).symm ▸ h.processDisable hrun
  | @insert id tensors hrun =>
      have hend := h.processEnd hrun (merge tensors)
      simpa only [usedAdapter, hrun, Option.toList_some] using hend
  | @get id => exact h.get id

/-- Only the end of a merge evicts. -/
theorem Sound.evicts (h : Sound l s) {a : MergeAction T} {out : Option W}
    (hmove : Move merge s a out s') {victim : ℤ} (hin : victim ∈ s.cache.weights)
    (hout : victim ∉ s'.cache.weights) : Evicts l s s' victim := by
  cases hmove with
  | @insert id tensors hrun => exact h.processEnd_evicts hrun (merge tensors) hin hout
  | @get id => exact absurd ((s.cache.mem_get id).mpr hin) hout
  | _ => exact absurd hin hout

/-- The size is set once. -/
theorem kHot_move {k : ℕ} {a : MergeAction T} {out : Option W} (hk : s.cache.kHot = some k)
    (hmove : Move merge s a out s') : s'.cache.kHot = some k := by
  cases hmove with
  | size hrun =>
      show some (s.cache.kHot.getD _) = some k
      rw [hk]
      rfl
  | @get id =>
      rw [s.cache.get_eq id]
      exact hk
  | _ => exact hk

theorem sound_of_run {kHotMax : ℕ}
    {tr : List (Event (MergeSystem T W) (MergeAction T) (Option W))}
    (h : Exec (Step merge) (init kHotMax) tr s) : Sound (uses tr) s := by
  induction h with
  | nil => exact sound_init kHotMax
  | @snoc tr s s' a out _ hstep ih =>
      have hnext := ih.move hstep.move
      rw [uses, List.filterMap_append, ← uses]
      cases hu : usedAdapter (⟨s, a, out, s'⟩ :
          Event (MergeSystem T W) (MergeAction T) (Option W)) with
      | none =>
          rw [List.filterMap_cons_none hu]
          rwa [hu] at hnext
      | some id =>
          rw [List.filterMap_cons_some hu]
          rwa [hu] at hnext

theorem kHot_of_run {s₀ : MergeSystem T W} {k : ℕ} (hk : s₀.cache.kHot = some k)
    {tr : List (Event (MergeSystem T W) (MergeAction T) (Option W))}
    (h : Exec (Step merge) s₀ tr s) : s.cache.kHot = some k := by
  induction h with
  | nil => exact hk
  | snoc _ hstep ih => exact kHot_move ih hstep.move

/-- An adapter can be requested exactly when it is nowhere. -/
theorem Sound.accepts_iff (h : Sound l s) (hk : s.cache.kHot ≠ some 0) (id : ℤ) :
    s.cache.Accepts id ↔ s.places id = 0 := by
  have hplaced := h.placed hk id
  unfold MergedWeightCache.Accepts
  by_cases hreq : id ∈ s.cache.requested
  · rw [if_pos hreq] at hplaced
    exact iff_of_false (fun hacc => hacc (.inr (.inr hreq))) (by omega)
  · rw [if_neg hreq] at hplaced
    have hweights : id ∉ s.cache.weights := by
      intro hmem
      rw [places, if_pos hmem] at hplaced
      omega
    exact iff_of_true (by simp [hk, hweights, hreq]) hplaced

end Steps

/-- **The merged-weight cache** under every interleaving: it keeps to its size, an
adapter is under way or resident once, what is evicted was used least
recently and can be requested again, and without room nothing is merged. -/
theorem merges_stay_sound {merge : T → W} {kHotMax : ℕ} {s : MergeSystem T W}
    {tr : List (Event (MergeSystem T W) (MergeAction T) (Option W))}
    (h : Exec (Step merge) (init kHotMax) tr s) :
    (∀ k, s.cache.kHot = some k → s.cache.weights.keys.length ≤ k)
      ∧ (s.cache.kHot ≠ some 0 → ∀ id, (id ∈ s.cache.requested ↔ s.places id = 1)
        ∧ s.places id ≤ 1 ∧ (s.cache.Accepts id ↔ s.places id = 0))
      ∧ (∀ tr₁ e tr₂, tr = tr₁ ++ e :: tr₂ → ∀ victim ∈ e.pre.cache.weights,
        victim ∉ e.post.cache.weights → Evicts (uses tr₁) e.pre e.post victim)
      ∧ (s.cache.kHot = some 0 →
        ∀ e ∈ tr, e.pre.cache.weights.keys = [] ∧ e.post.cache.weights.keys = []) := by
  have hend := sound_of_run h
  refine ⟨hend.capacity, fun hk id => ?_, fun tr₁ e tr₂ heq victim hin hout => ?_,
    fun hzero e he => ?_⟩
  · have hplaced := hend.placed hk id
    refine ⟨?_, ?_, hend.accepts_iff hk id⟩
    · rw [hplaced]
      split <;> simp [*]
    · rw [hplaced]
      split <;> omega
  · have he : e ∈ tr := heq ▸ List.mem_append_right _ (List.mem_cons_self ..)
    exact (sound_of_run (h.before_event heq)).evicts (h.step_of_mem e he).move hin hout
  · obtain ⟨tr₁, tr₂, heq⟩ := List.append_of_mem he
    have hempty : ∀ {s₁ : MergeSystem T W} {tr₁ tr₂}, Exec (Step merge) (init kHotMax) tr₁ s₁ →
        Exec (Step merge) s₁ tr₂ s → s₁.cache.weights.keys = [] := by
      intro s₁ tr₁ tr₂ hbefore hafter
      have hsound := sound_of_run hbefore
      cases hk : s₁.cache.kHot with
      | none => exact hsound.unsized hk
      | some k =>
          obtain rfl : k = 0 := Option.some.inj ((kHot_of_run hk hafter).symm.trans hzero)
          exact List.length_eq_zero_iff.mp (Nat.le_zero.mp (hsound.capacity 0 hk))
    have hafter := h.after_event heq
    exact ⟨hempty (h.before_event heq) (.cons (h.step_of_mem e he) hafter),
      hempty (h.upto_event heq) hafter⟩

/-! ### Two adapters and room for one -/

/-- Adapter 1 is merged, and then adapter 2. -/
def mergeBoth : List (MergeAction Unit) :=
  [.request 1, .request 2, .loadEnd 1 (), .processStart, .processSize 1, .processEnd,
    .loadEnd 2 (), .get 1, .processStart, .processSize 3, .processEnd]

/-- The second merge evicts adapter 1, and it can be requested again. -/
theorem mergeBoth_evicts : ∃ tr s,
    Exec (Step fun _ : Unit => ()) (init 5) tr s ∧ tr.map Event.label = mergeBoth
      ∧ s.cache.weights.keys = [2] ∧ s.cache.Accepts 1 := by
  have h : Exec (Step fun _ : Unit => ()) (init 5)
      [⟨_, .request 1, _, _⟩, ⟨_, .request 2, _, _⟩, ⟨_, .loadEnd 1 (), _, _⟩,
        ⟨_, .processStart, _, _⟩, ⟨_, .processSize 1, _, _⟩, ⟨_, .processEnd, _, _⟩,
        ⟨_, .loadEnd 2 (), _, _⟩, ⟨_, .get 1, _, _⟩, ⟨_, .processStart, _, _⟩,
        ⟨_, .processSize 3, _, _⟩, ⟨_, .processEnd, _, _⟩] _ :=
    .cons rfl (.cons rfl (.cons rfl (.cons rfl (.cons rfl (.cons rfl (.cons rfl (.cons rfl
      (.cons rfl (.cons rfl (.cons rfl .nil))))))))))
  exact ⟨_, _, h, rfl, by decide +kernel,
    ((merges_stay_sound h).2.1 (by decide +kernel) 1).2.2.mpr (by decide +kernel)⟩

end MergeSystem

end AdapterSlots
