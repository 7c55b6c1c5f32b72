import AdapterSlots.Lib.Returns
import Mathlib.Algebra.GroupWithZero.Nat
import Mathlib.Algebra.Order.BigOperators.Group.List
import Mathlib.Algebra.Order.Group.Nat
import Mathlib.Data.List.Nodup

/-!
# Insertion-ordered dictionaries

A finite map that remembers the order in which its keys were first
inserted: writing a present key changes its value in place, writing an
absent key appends it. Iteration runs over `entries`, so a loop over the
dictionary visits the keys in insertion order.

Keys are distinct by construction (`Dict.nodup`); the lookup laws below
(`get?_insert`, `get?_erase`, `mem_entries_iff`) therefore need no
well-formedness hypothesis. `sumBy_insert` is the accounting law for
quantities summed over all values.
-/

namespace Lib

structure Dict (α β : Type) where
  entries : List (α × β)
  nodup : (entries.map Prod.fst).Nodup

/-! ## Lists without one element -/

section Without

variable {α : Type} [DecidableEq α] {a : α} {l : List α}

theorem filter_ne_of_not_mem (h : a ∉ l) : l.filter (fun k => decide (k ≠ a)) = l :=
  List.filter_eq_self.mpr fun _ hk => decide_eq_true fun heq => h (heq ▸ hk)

theorem length_filter_ne (hnd : l.Nodup) (h : a ∈ l) :
    (l.filter fun k => decide (k ≠ a)).length + 1 = l.length := by
  have herase : l.erase a = l.filter fun k => decide (k ≠ a) := by
    rw [hnd.erase_eq_filter]
    exact List.filter_congr fun k _ => by by_cases hk : k = a <;> simp [hk]
  rw [← herase, List.length_erase_of_mem h]
  exact Nat.sub_add_cancel (List.length_pos_of_mem h)

end Without

/-! ## Association lists -/

def assocGet {α β : Type} [DecidableEq α] : List (α × β) → α → Option β
  | [], _ => none
  | (k', v) :: es, k => if k' = k then some v else assocGet es k

def assocPut {α β : Type} [DecidableEq α] : List (α × β) → α → β → List (α × β)
  | [], k, v => [(k, v)]
  | (k', v') :: es, k, v =>
      if k' = k then (k, v) :: es else (k', v') :: assocPut es k v

section Assoc

variable {α β : Type} [DecidableEq α]

theorem keys_assocPut : ∀ (es : List (α × β)) (k : α) (v : β),
    (assocPut es k v).map Prod.fst
      = if k ∈ es.map Prod.fst then es.map Prod.fst else es.map Prod.fst ++ [k]
  | [], k, v => by simp [assocPut]
  | (k', v') :: es, k, v => by
      by_cases hk : k' = k
      · subst hk
        simp [assocPut]
      · have hk' : k ≠ k' := fun h => hk h.symm
        simp only [assocPut, if_neg hk, List.map_cons, keys_assocPut es k v]
        by_cases hmem : k ∈ es.map Prod.fst
        · rw [if_pos hmem, if_pos (List.mem_cons_of_mem _ hmem)]
        · rw [if_neg hmem, if_neg (by simpa [hk'] using hmem)]
          rfl

theorem assocPut_of_not_mem {k : α} : ∀ {es : List (α × β)}, k ∉ es.map Prod.fst →
    ∀ v : β, assocPut es k v = es ++ [(k, v)]
  | [], _, _ => rfl
  | (k', v') :: es, h, v => by
      rw [List.map_cons, List.mem_cons, not_or] at h
      rw [assocPut, if_neg fun heq => h.1 heq.symm, assocPut_of_not_mem h.2, List.cons_append]

theorem assocGet_put : ∀ (es : List (α × β)) (k k' : α) (v : β),
    assocGet (assocPut es k v) k' = if k = k' then some v else assocGet es k'
  | [], k, k', v => by simp [assocPut, assocGet]
  | (k₀, v₀) :: es, k, k', v => by
      by_cases hk : k₀ = k
      · subst hk
        by_cases hk' : k₀ = k' <;> simp [assocPut, assocGet, hk']
      · simp only [assocPut, if_neg hk, assocGet, assocGet_put es k k' v]
        by_cases h : k = k'
        · subst h
          simp [hk]
        · simp [h]

theorem assocGet_eq_none {k : α} : ∀ {es : List (α × β)},
    assocGet es k = none ↔ k ∉ es.map Prod.fst
  | [] => by simp [assocGet]
  | (k₀, v₀) :: es => by
      by_cases hk : k₀ = k
      · simp [assocGet, hk]
      · have hk' : k ≠ k₀ := fun h => hk h.symm
        simp only [assocGet, if_neg hk, assocGet_eq_none, List.map_cons, List.mem_cons, hk',
          false_or]

theorem assocGet_of_mem {k : α} {v : β} : ∀ {es : List (α × β)},
    (es.map Prod.fst).Nodup → (k, v) ∈ es → assocGet es k = some v
  | [], _, h => by cases h
  | (k₀, v₀) :: es, hnd, h => by
      obtain ⟨hnot, hnd'⟩ := List.nodup_cons.mp hnd
      rcases List.mem_cons.mp h with heq | hmem
      · obtain ⟨rfl, rfl⟩ := Prod.mk.injEq .. |>.mp heq
        simp [assocGet]
      · have hne : k₀ ≠ k := fun heq =>
          hnot (heq ▸ List.mem_map.mpr ⟨(k, v), hmem, rfl⟩)
        rw [assocGet, if_neg hne]
        exact assocGet_of_mem hnd' hmem

theorem mem_of_assocGet {k : α} {v : β} : ∀ {es : List (α × β)},
    assocGet es k = some v → (k, v) ∈ es
  | [], h => by cases h
  | (k₀, v₀) :: es, h => by
      rw [assocGet] at h
      split at h
      · rename_i heq
        obtain rfl := Option.some.inj h
        exact heq ▸ List.mem_cons_self ..
      · exact List.mem_cons_of_mem _ (mem_of_assocGet h)

theorem assocGet_mapValues {γ : Type} (f : α → β → γ) (k : α) : ∀ {es : List (α × β)},
    assocGet (es.map fun e => (e.1, f e.1 e.2)) k = (assocGet es k).map (f k)
  | [] => rfl
  | e :: es => by
      rw [List.map_cons, assocGet, assocGet, assocGet_mapValues f k]
      by_cases hk : e.1 = k
      · rw [if_pos hk, if_pos hk, ← hk, Option.map_some]
      · rw [if_neg hk, if_neg hk]

theorem assocGet_filter_keys (p : α → Bool) (k : α) : ∀ (es : List (α × β)),
    assocGet (es.filter fun e => p e.1) k = if p k then assocGet es k else none
  | [] => by simp [assocGet]
  | (k₀, v₀) :: es => by
      have ih := assocGet_filter_keys p k es
      by_cases hk : k₀ = k
      · subst hk
        by_cases hp : p k₀ = true <;> simp_all [assocGet]
      · by_cases hp : p k₀ = true <;> simp_all [assocGet]

theorem sum_assocPut (f : β → ℕ) : ∀ (es : List (α × β)) (k : α) (v : β),
    ((assocPut es k v).map fun e => f e.2).sum + (assocGet es k).elim 0 f
      = (es.map fun e => f e.2).sum + f v
  | [], k, v => by simp [assocPut, assocGet]
  | (k₀, v₀) :: es, k, v => by
      by_cases hk : k₀ = k
      · simp only [assocPut, assocGet, if_pos hk, List.map_cons, List.sum_cons, Option.elim_some]
        omega
      · have ih := sum_assocPut f es k v
        simp only [assocPut, assocGet, if_neg hk, List.map_cons, List.sum_cons]
        omega

theorem sum_eq_assocGet {f : β → ℕ} {k : α} : ∀ {es : List (α × β)},
    (es.map Prod.fst).Nodup → (∀ k' v, (k', v) ∈ es → k' ≠ k → f v = 0) →
    (es.map fun e => f e.2).sum = (assocGet es k).elim 0 f
  | [], _, _ => rfl
  | (k₀, v₀) :: es, hnd, h => by
      obtain ⟨hnot, hnd'⟩ := List.nodup_cons.mp hnd
      rw [List.map_cons, List.sum_cons, assocGet]
      split
      · rename_i heq
        have hzero : (es.map fun e => f e.2).sum = 0 :=
          List.sum_eq_zero fun n hn => by
            obtain ⟨⟨k', v⟩, he, rfl⟩ := List.mem_map.mp hn
            refine h k' v (List.mem_cons_of_mem _ he) fun hk => hnot ?_
            exact List.mem_map.mpr ⟨(k', v), he, hk.trans heq.symm⟩
        rw [hzero]
        rfl
      · rename_i hne
        rw [h k₀ v₀ (List.mem_cons_self ..) hne, Nat.zero_add]
        exact sum_eq_assocGet hnd' fun k' v he => h k' v (List.mem_cons_of_mem _ he)

theorem sum_filter_ne (f : β → ℕ) (k : α) : ∀ {es : List (α × β)},
    (es.map Prod.fst).Nodup →
    ((es.filter fun e => decide (e.1 ≠ k)).map fun e => f e.2).sum + (assocGet es k).elim 0 f
      = (es.map fun e => f e.2).sum
  | [], _ => rfl
  | (k₀, v₀) :: es, hnd => by
      obtain ⟨hnot, hnd'⟩ := List.nodup_cons.mp hnd
      have ih := sum_filter_ne f k hnd'
      rw [assocGet]
      by_cases heq : k₀ = k
      · have hnone : assocGet es k = none := assocGet_eq_none.mpr (heq ▸ hnot)
        rw [hnone] at ih
        simp only [heq, ne_eq, not_true_eq_false, decide_false, Bool.false_eq_true,
          not_false_eq_true, List.filter_cons_of_neg, if_true, List.map_cons, List.sum_cons,
          Option.elim] at ih ⊢
        omega
      · simp only [heq, ne_eq, not_false_eq_true, decide_true, List.filter_cons_of_pos, if_false,
          List.map_cons, List.sum_cons] at ih ⊢
        omega

end Assoc

namespace Dict

variable {α β : Type}

@[ext] theorem ext {d d' : Dict α β} (h : d.entries = d'.entries) : d = d' := by
  cases d; cases d'; cases h; rfl

def empty : Dict α β := ⟨[], List.nodup_nil⟩

instance : Inhabited (Dict α β) := ⟨empty⟩

def keys (d : Dict α β) : List α := d.entries.map Prod.fst

def values (d : Dict α β) : List β := d.entries.map Prod.snd

instance : Membership α (Dict α β) := ⟨fun d k => k ∈ d.keys⟩

theorem mem_def {d : Dict α β} {k : α} : k ∈ d ↔ k ∈ d.keys := Iff.rfl

theorem nodup_keys (d : Dict α β) : d.keys.Nodup := d.nodup

/-- Keep the entries whose key satisfies `p`. -/
def filterKeys (p : α → Bool) (d : Dict α β) : Dict α β :=
  ⟨d.entries.filter fun e => p e.1,
    d.nodup.sublist (List.Sublist.map _ (List.filter_sublist ..))⟩

def mapValues {γ : Type} (f : α → β → γ) (d : Dict α β) : Dict α γ :=
  ⟨d.entries.map fun e => (e.1, f e.1 e.2), by
    have h : (fun e : α × β => (e.1, f e.1 e.2).1) = Prod.fst := rfl
    simpa [List.map_map, Function.comp_def] using d.nodup⟩

/-- A quantity summed over all values. -/
def sumBy (f : β → ℕ) (d : Dict α β) : ℕ := (d.entries.map fun e => f e.2).sum

theorem keys_mapValues {γ : Type} (f : α → β → γ) (d : Dict α β) :
    (d.mapValues f).keys = d.keys := by
  rw [keys, mapValues, List.map_map]
  rfl

variable [DecidableEq α]

instance (d : Dict α β) (k : α) : Decidable (k ∈ d) :=
  inferInstanceAs (Decidable (k ∈ d.keys))

def get? (d : Dict α β) (k : α) : Option β := assocGet d.entries k

def getD (d : Dict α β) (k : α) (v : β) : β := (d.get? k).getD v

def insert (d : Dict α β) (k : α) (v : β) : Dict α β :=
  ⟨assocPut d.entries k v, by
    rw [keys_assocPut]
    split
    · exact d.nodup
    · rename_i h
      exact List.nodup_append.mpr ⟨d.nodup, List.nodup_singleton k,
        fun a ha b hb => by
          rw [List.mem_singleton.mp hb]
          exact fun heq => h (heq ▸ ha)⟩⟩

/-- Write a key only when it is absent. -/
def setDefault (d : Dict α β) (k : α) (v : β) : Dict α β :=
  if k ∈ d then d else d.insert k v

def erase (d : Dict α β) (k : α) : Dict α β := d.filterKeys fun k' => decide (k' ≠ k)

/-- A part of the entries, in their order. -/
def restrict (d : Dict α β) (es : List (α × β)) (h : es.Sublist d.entries) : Dict α β :=
  ⟨es, d.nodup.sublist (h.map Prod.fst)⟩

/-- The entry that was inserted last, and the others. -/
def popLast (d : Dict α β) : Option (Dict α β × α × β) :=
  d.entries.getLast?.map fun e => (d.restrict d.entries.dropLast (List.dropLast_sublist _), e)

/-- Write a list of entries, left to right. -/
def insertAll (d : Dict α β) (es : List (α × β)) : Dict α β :=
  es.foldl (fun d e => d.insert e.1 e.2) d

/-- The same value under every key of the list. -/
def ofKeys (ks : List α) (v : β) : Dict α β := empty.insertAll (ks.map fun k => (k, v))

/-! ## Lookup laws -/

@[simp] theorem get?_empty (k : α) : (empty : Dict α β).get? k = none := rfl

theorem get?_insert (d : Dict α β) (k k' : α) (v : β) :
    (d.insert k v).get? k' = if k = k' then some v else d.get? k' :=
  assocGet_put d.entries k k' v

theorem get?_eq_none {d : Dict α β} {k : α} : d.get? k = none ↔ k ∉ d :=
  assocGet_eq_none

theorem mem_iff_get? {d : Dict α β} {k : α} : k ∈ d ↔ ∃ v, d.get? k = some v := by
  rw [← Option.ne_none_iff_exists', ne_eq, get?_eq_none, not_not]

theorem mem_entries_iff {d : Dict α β} {k : α} {v : β} :
    (k, v) ∈ d.entries ↔ d.get? k = some v :=
  ⟨assocGet_of_mem d.nodup, mem_of_assocGet⟩

theorem get?_filterKeys (p : α → Bool) (d : Dict α β) (k : α) :
    (d.filterKeys p).get? k = if p k then d.get? k else none :=
  assocGet_filter_keys p k d.entries

theorem mem_filterKeys {p : α → Bool} {d : Dict α β} {k : α} :
    k ∈ d.filterKeys p ↔ k ∈ d ∧ p k = true := by
  rw [mem_iff_get?, mem_iff_get?, get?_filterKeys]
  by_cases hp : p k = true <;> simp [hp]

theorem get?_mapValues {γ : Type} (f : α → β → γ) (d : Dict α β) (k : α) :
    (d.mapValues f).get? k = (d.get? k).map (f k) :=
  assocGet_mapValues f k

theorem get?_erase (d : Dict α β) (k k' : α) :
    (d.erase k).get? k' = if k' = k then none else d.get? k' := by
  rw [erase, get?_filterKeys]
  by_cases h : k' = k <;> simp [h]

theorem mem_erase {d : Dict α β} {k k' : α} : k' ∈ d.erase k ↔ k' ∈ d ∧ k' ≠ k := by
  rw [erase, mem_filterKeys, decide_eq_true_eq]

omit [DecidableEq α] in
theorem mem_popLast {d d' : Dict α β} {k : α} {v : β} (h : d.popLast = some (d', k, v)) :
    k ∉ d' ∧ ∀ k', k' ∈ d ↔ k' ∈ d' ∨ k' = k := by
  obtain ⟨e, he, heq⟩ := Option.map_eq_some_iff.mp h
  obtain ⟨rfl, rfl⟩ := Prod.mk.inj heq
  have hsplit : d.entries.dropLast ++ [(k, v)] = d.entries :=
    List.dropLast_append_getLast? _ he
  have hkeys : d.keys = (d.entries.dropLast.map Prod.fst) ++ [k] := by
    rw [keys, ← hsplit, List.map_append, List.dropLast_concat]
    rfl
  constructor
  · have hnd := d.nodup_keys
    rw [hkeys] at hnd
    exact fun hk => (List.nodup_append.mp hnd).2.2 k hk k (List.mem_singleton_self k) rfl
  · intro k'
    rw [mem_def, hkeys, List.mem_append, List.mem_singleton]
    rfl

theorem get?_restrict {d : Dict α β} {es : List (α × β)} {h : es.Sublist d.entries} {k : α} {v : β}
    (hget : (d.restrict es h).get? k = some v) : d.get? k = some v :=
  mem_entries_iff.mp (h.subset (mem_entries_iff.mpr hget))

/-- The popped entry and the others come from the map. -/
theorem get?_popLast {d d' : Dict α β} {k : α} {v : β} (h : d.popLast = some (d', k, v)) :
    d.get? k = some v ∧ ∀ k' v', d'.get? k' = some v' → d.get? k' = some v' := by
  obtain ⟨e, he, heq⟩ := Option.map_eq_some_iff.mp h
  obtain ⟨rfl, rfl⟩ := Prod.mk.inj heq
  exact ⟨mem_entries_iff.mp (List.mem_of_getLast? he), fun k' v' => get?_restrict⟩

/-! ## Keys -/

theorem keys_insert (d : Dict α β) (k : α) (v : β) :
    (d.insert k v).keys = if k ∈ d then d.keys else d.keys ++ [k] :=
  keys_assocPut d.entries k v

theorem keys_erase (d : Dict α β) (k : α) :
    (d.erase k).keys = d.keys.filter fun k' => decide (k' ≠ k) := by
  rw [keys, keys, List.filter_map]
  rfl

theorem length_keys_erase {d : Dict α β} {k : α} (h : k ∈ d) :
    (d.erase k).keys.length + 1 = d.keys.length := by
  rw [keys_erase]
  exact length_filter_ne d.nodup_keys h

theorem keys_erase_head {d : Dict α β} {k : α} {ks : List α} (h : d.keys = k :: ks) :
    (d.erase k).keys = ks := by
  have hnd := h ▸ d.nodup_keys
  rw [keys_erase, h, List.filter_cons_of_neg (by simp)]
  exact filter_ne_of_not_mem (List.nodup_cons.mp hnd).1

theorem keys_insert_of_mem {d : Dict α β} {k : α} (h : k ∈ d) (v : β) :
    (d.insert k v).keys = d.keys := by
  rw [keys_insert, if_pos h]

@[simp] theorem mem_insert {d : Dict α β} {k k' : α} {v : β} :
    k' ∈ d.insert k v ↔ k' = k ∨ k' ∈ d := by
  rw [mem_iff_get?, mem_iff_get?, get?_insert]
  by_cases h : k = k'
  · simp [h]
  · have h' : k' ≠ k := fun heq => h heq.symm
    simp [h, h']

theorem entries_insert_of_not_mem {d : Dict α β} {k : α} (h : k ∉ d) (v : β) :
    (d.insert k v).entries = d.entries ++ [(k, v)] :=
  assocPut_of_not_mem h v

theorem mem_setDefault {d : Dict α β} {k k' : α} {v : β} :
    k' ∈ d.setDefault k v ↔ k' = k ∨ k' ∈ d := by
  unfold setDefault
  split
  · rename_i hk
    exact ⟨.inr, fun h => h.elim (fun heq => heq ▸ hk) id⟩
  · exact mem_insert

/-- New keys are appended in their order. -/
theorem entries_insertAll : ∀ {es : List (α × β)} {d : Dict α β}, (es.map Prod.fst).Nodup →
    (∀ k ∈ es.map Prod.fst, k ∉ d) → (d.insertAll es).entries = d.entries ++ es
  | [], d, _, _ => by simp [insertAll]
  | e :: es, d, hnd, hnew => by
      obtain ⟨hnot, hnd'⟩ := List.nodup_cons.mp hnd
      have he : e.1 ∉ d := hnew e.1 (List.mem_cons_self ..)
      have hnew' : ∀ k ∈ es.map Prod.fst, k ∉ d.insert e.1 e.2 := fun k hk hmem =>
        (mem_insert.mp hmem).elim (fun heq => hnot (heq ▸ hk))
          (hnew k (List.mem_cons_of_mem _ hk))
      rw [insertAll, List.foldl_cons, ← insertAll, entries_insertAll hnd' hnew',
        entries_insert_of_not_mem he, List.append_assoc, List.singleton_append]

theorem getD_setDefault (d : Dict α β) (k k' : α) (v : β) :
    (d.setDefault k v).getD k' v = d.getD k' v := by
  unfold setDefault
  split
  · rfl
  · rename_i h
    rw [getD, getD, get?_insert]
    split
    · rename_i heq
      rw [← heq, get?_eq_none.mpr h]
      rfl
    · rfl

/-- Writing a value for each key of a list, also one that repeats keys. -/
theorem get?_insertAll_map (f : α → β) (k : α) : ∀ (ks : List α) (d : Dict α β),
    (d.insertAll (ks.map fun k' => (k', f k'))).get? k
      = if k ∈ ks then some (f k) else d.get? k
  | [], d => by simp [insertAll]
  | k₀ :: ks, d => by
      have ih := get?_insertAll_map f k ks (d.insert k₀ (f k₀))
      simp only [insertAll, List.map_cons, List.foldl_cons] at ih ⊢
      rw [ih, get?_insert]
      by_cases hk : k ∈ ks
      · simp [hk]
      · by_cases h : k₀ = k
        · simp [h]
        · have h' : k ≠ k₀ := fun heq => h heq.symm
          simp [hk, h, h']

/-- Entries with distinct keys, written over a dictionary. -/
theorem get?_insertAll_of_nodup (k : α) : ∀ {es : List (α × β)} (d : Dict α β),
    (es.map Prod.fst).Nodup → (d.insertAll es).get? k = (assocGet es k).or (d.get? k)
  | [], d, _ => rfl
  | (k₀, v₀) :: es, d, h => by
      obtain ⟨hnot, hnd⟩ := List.nodup_cons.mp h
      have ih := get?_insertAll_of_nodup k (d.insert k₀ v₀) hnd
      rw [insertAll, List.foldl_cons, ← insertAll, ih, get?_insert, assocGet]
      by_cases hk : k₀ = k
      · have hnone : assocGet es k = none := assocGet_eq_none.mpr (hk ▸ hnot)
        rw [hnone, if_pos hk, if_pos hk]
        rfl
      · rw [if_neg hk, if_neg hk]

theorem get?_ofKeys (ks : List α) (v : β) (k : α) :
    (ofKeys ks v : Dict α β).get? k = if k ∈ ks then some v else none := by
  rw [ofKeys, get?_insertAll_map (fun _ => v), get?_empty]

/-- A loop that counts every element under its key. -/
theorem getD_foldl_count {γ : Type} (f : γ → α) (k : α) : ∀ (l : List γ) (d : Dict α ℕ),
    (l.foldl (fun d x => d.insert (f x) (d.getD (f x) 0 + 1)) d).getD k 0
      = d.getD k 0 + l.countP fun x => decide (f x = k)
  | [], _ => rfl
  | x :: l, d => by
      rw [List.foldl_cons, getD_foldl_count f k l, List.countP_cons, getD, get?_insert]
      by_cases hx : f x = k
      · rw [if_pos hx, if_pos (decide_eq_true hx), hx, Option.getD_some]
        omega
      · rw [if_neg hx, if_neg (by rwa [decide_eq_true_eq]), getD]
        omega

/-! ## Values computed by a loop -/

section MapValuesM

variable {ε γ : Type} {f : α → β → Except ε γ}

/-- `for k, v in d.items(): r[k] = f(k, v)`. -/
def mapValuesM (f : α → β → Except ε γ) (d : Dict α β) : Except ε (Dict α γ) :=
  d.entries.foldlM (fun r e => do
    let v ← f e.1 e.2
    pure (r.insert e.1 v)) .empty

theorem get?_foldlM_insert {k : α} : ∀ {es : List (α × β)} {r r' : Dict α γ},
    (es.map Prod.fst).Nodup →
    es.foldlM (fun r e => do
      let v ← f e.1 e.2
      pure (r.insert e.1 v)) r = .ok r' →
    (∀ v, assocGet es k = some v → ∃ w, f k v = .ok w ∧ r'.get? k = some w)
      ∧ (assocGet es k = none → r'.get? k = r.get? k)
  | [], r, r', _, h => by
      obtain rfl := Except.ok.inj h
      exact ⟨fun v hv => (by cases hv), fun _ => rfl⟩
  | e :: es, r, r', hnd, h => by
      obtain ⟨hnot, hnd'⟩ := List.nodup_cons.mp hnd
      rw [List.foldlM_cons] at h
      obtain ⟨r₁, hr₁, h⟩ := bind_eq_ok h
      obtain ⟨w, hw, hins⟩ := bind_eq_ok hr₁
      obtain rfl := Except.ok.inj hins
      obtain ⟨hsome, hnone⟩ := get?_foldlM_insert (k := k) hnd' h
      rw [get?_insert] at hnone
      rw [assocGet]
      by_cases hk : e.1 = k
      · have hrest : assocGet es k = none := assocGet_eq_none.mpr (hk ▸ hnot)
        rw [if_pos hk]
        refine ⟨fun v hv => ⟨w, ?_, ?_⟩, fun hv => by cases hv⟩
        · rw [← hk, ← Option.some.inj hv, hw]
        · rw [hnone hrest, if_pos hk]
      · rw [if_neg hk]
        rw [if_neg hk] at hnone
        exact ⟨hsome, hnone⟩

/-- Every entry of the result was computed. -/
theorem get?_mapValuesM {d : Dict α β} {r : Dict α γ} (h : d.mapValuesM f = .ok r) {k : α} {v : β}
    (hv : d.get? k = some v) : ∃ w, f k v = .ok w ∧ r.get? k = some w :=
  (get?_foldlM_insert d.nodup h).1 v hv

theorem mapValuesM_returns {d : Dict α β} (h : ∀ k v, d.get? k = some v → ∃ w, f k v = .ok w) :
    ∃ r, d.mapValuesM f = .ok r := by
  have hloop : Returns (d.mapValuesM f) fun _ => True := by
    refine Returns.foldlM (fun e he r _ => ?_) trivial
    obtain ⟨w, hw⟩ := h e.1 e.2 (mem_entries_iff.mp he)
    rw [hw]
    exact Returns.ok trivial
  obtain ⟨r, hr, -⟩ := hloop
  exact ⟨r, hr⟩

end MapValuesM

/-! ## Sums over the values -/

/-- Overwriting one key changes a sum over the values by the difference of
the new and the old summand. -/
theorem sumBy_insert (f : β → ℕ) (d : Dict α β) (k : α) (v : β) :
    (d.insert k v).sumBy f + (d.get? k).elim 0 f = d.sumBy f + f v :=
  sum_assocPut f d.entries k v

theorem sumBy_setDefault_zero (d : Dict α ℕ) (k : α) :
    (d.setDefault k 0).sumBy id = d.sumBy id := by
  unfold setDefault
  split
  · rfl
  · rename_i hk
    have hins := sumBy_insert id d k 0
    rw [get?_eq_none.mpr hk] at hins
    exact hins

/-- Counting under a key counts in the total. -/
theorem sumBy_count (d : Dict α ℕ) (k : α) :
    (d.insert k (d.getD k 0 + 1)).sumBy id = d.sumBy id + 1 := by
  have hins := sumBy_insert id d k (d.getD k 0 + 1)
  rw [getD] at hins ⊢
  cases hget : d.get? k with
  | none =>
      rw [hget] at hins
      exact hins
  | some n =>
      simp only [hget, Option.elim_some, Option.getD_some, id_eq] at hins ⊢
      omega

/-- A sum to which only the key `k` contributes. -/
theorem sumBy_eq_get? {f : β → ℕ} {d : Dict α β} {k : α}
    (h : ∀ k' v, d.get? k' = some v → k' ≠ k → f v = 0) :
    d.sumBy f = (d.get? k).elim 0 f :=
  sum_eq_assocGet d.nodup fun k' v he => h k' v (mem_entries_iff.mp he)

theorem sumBy_erase (f : β → ℕ) (d : Dict α β) (k : α) :
    (d.erase k).sumBy f + (d.get? k).elim 0 f = d.sumBy f :=
  sum_filter_ne f k d.nodup

/-- Distinct keys contribute no more than all keys. -/
theorem sum_map_get?_le (f : β → ℕ) : ∀ {ks : List α} (d : Dict α β), ks.Nodup →
    (ks.map fun k => (d.get? k).elim 0 f).sum ≤ d.sumBy f
  | [], _, _ => Nat.zero_le _
  | k :: ks, d, hnd => by
      obtain ⟨hnot, hnd'⟩ := List.nodup_cons.mp hnd
      have ih := sum_map_get?_le f (d.erase k) hnd'
      have hsum := sumBy_erase f d k
      have hrest : (ks.map fun k' => ((d.erase k).get? k').elim 0 f)
          = ks.map fun k' => (d.get? k').elim 0 f :=
        List.map_congr_left fun k' hk' => by
          have hne : k' ≠ k := fun heq => hnot (heq ▸ hk')
          rw [get?_erase, if_neg hne]
      rw [hrest] at ih
      rw [List.map_cons, List.sum_cons]
      omega

theorem sumBy_eq_zero {f : β → ℕ} {d : Dict α β} (h : ∀ k v, d.get? k = some v → f v = 0) :
    d.sumBy f = 0 :=
  List.sum_eq_zero fun n hn => by
    obtain ⟨⟨k, v⟩, he, rfl⟩ := List.mem_map.mp hn
    exact h k v (mem_entries_iff.mp he)

theorem sumBy_le {f : β → ℕ} {d : Dict α β} {n : ℕ} (h : ∀ k v, d.get? k = some v → f v ≤ n) :
    d.sumBy f ≤ d.keys.length * n := by
  have hle : ∀ m ∈ d.entries.map fun e => f e.2, m ≤ n := by
    intro m hm
    obtain ⟨⟨k, v⟩, he, rfl⟩ := List.mem_map.mp hm
    exact h k v (mem_entries_iff.mp he)
  have hsum := List.sum_le_card_nsmul _ n hle
  rwa [List.length_map, ← List.length_map Prod.fst] at hsum

end Dict

end Lib
