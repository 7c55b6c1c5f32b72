import Mathlib.Algebra.GroupWithZero.Nat
import Mathlib.Data.List.Destutter
import Mathlib.Data.List.Sort
import Mathlib.Data.Finset.Card
import Mathlib.Data.List.Dedup

/-!
# Contiguous lists

A list is *contiguous* when the occurrences of every value form one
block: a value that occurs again occurs right away. Collapsing adjacent
repetitions (`List.destutter`) then leaves every value once, so the
number of runs is the number of distinct values.

`contiguous_append` says what a join of two contiguous lists needs:
a value on both sides must close the first list and open the second.
`sortByKey`, the stable sort, makes a list contiguous in its key.
-/

namespace Lib

/-- Every value that occurs again further on occurs as the next element. -/
def Contiguous {α : Type} : List α → Prop
  | [] => True
  | a :: l => (a ∈ l → l.head? = some a) ∧ Contiguous l

instance decidableContiguous {α : Type} [DecidableEq α] : ∀ l : List α, Decidable (Contiguous l)
  | [] => .isTrue trivial
  | a :: l =>
      have := decidableContiguous l
      inferInstanceAs (Decidable ((a ∈ l → l.head? = some a) ∧ Contiguous l))

/-- The values of the maximal runs, in order. -/
def runs {α : Type} [DecidableEq α] (l : List α) : List α := l.destutter (· ≠ ·)

section

variable {α : Type}

theorem contiguous_replicate (a : α) : ∀ n, Contiguous (List.replicate n a)
  | 0 => trivial
  | n + 1 => ⟨fun h => by
      cases n with
      | zero => cases h
      | succ n => rfl, contiguous_replicate a n⟩

/-- Joining two lists: each side is contiguous, and a value on both sides is
the last one on the left and the first one on the right. -/
theorem contiguous_append {l₁ l₂ : List α} :
    Contiguous (l₁ ++ l₂) ↔ Contiguous l₁ ∧ Contiguous l₂
      ∧ ∀ a ∈ l₁, a ∈ l₂ → l₁.getLast? = some a ∧ l₂.head? = some a := by
  induction l₁ with
  | nil => simp [Contiguous]
  | cons b l ih =>
      cases l with
      | nil =>
          simp only [List.cons_append, List.nil_append, Contiguous, List.mem_singleton,
            forall_eq, List.getLast?_singleton, true_and, List.not_mem_nil, false_imp_iff]
          exact and_comm
      | cons c l =>
          rw [List.cons_append, Contiguous, ih]
          simp only [Contiguous, List.cons_append, List.head?_cons, List.mem_cons,
            List.mem_append, List.getLast?_cons_cons]
          constructor
          · rintro ⟨hb, ⟨hc, hl⟩, h₂, hjoin⟩
            refine ⟨⟨fun h => hb (h.elim .inl fun h => .inr (.inl h)), hc, hl⟩, h₂, ?_⟩
            rintro a (rfl | ha) ha₂
            · have hca : c = a := Option.some.inj (hb (.inr (.inr ha₂)))
              exact hjoin a (.inl hca.symm) ha₂
            · exact hjoin a ha ha₂
          · rintro ⟨⟨hb, hc, hl⟩, h₂, hjoin⟩
            refine ⟨?_, ⟨hc, hl⟩, h₂, fun a ha => hjoin a (.inr ha)⟩
            rintro (h | h | h)
            · exact hb (.inl h)
            · exact hb (.inr h)
            · -- `b` occurs on the right, so it closes the left part `b :: c :: l`
              obtain ⟨hlast, -⟩ := hjoin b (.inl rfl) h
              exact hb (List.mem_cons.mp (List.mem_of_getLast? hlast))

/-- A list sorted by a key is contiguous in every value that has one key and marks it. -/
theorem contiguous_map_of_sorted {β γ : Type} [LinearOrder γ] {k : β → γ} {f : β → α} :
    ∀ {l : List β}, l.Pairwise (fun b b' => k b ≤ k b') →
      (∀ b ∈ l, ∀ b' ∈ l, f b = f b' ↔ k b = k b') → Contiguous (l.map f)
  | [], _, _ => trivial
  | b :: l, hsorted, hkey => by
      obtain ⟨hle, hl⟩ := List.pairwise_cons.mp hsorted
      have hb := List.mem_cons_self (a := b) (l := l)
      refine ⟨fun hmem => ?_, contiguous_map_of_sorted hl fun c hc c' hc' =>
        hkey c (List.mem_cons_of_mem _ hc) c' (List.mem_cons_of_mem _ hc')⟩
      obtain ⟨b', hb', heq⟩ := List.mem_map.mp hmem
      have hkeys := (hkey b' (List.mem_cons_of_mem _ hb') b hb).mp heq
      cases l with
      | nil => cases hb'
      | cons c l =>
          have hc : c ∈ b :: c :: l := List.mem_cons_of_mem _ (List.mem_cons_self ..)
          have hcb : k c ≤ k b := by
            rcases List.mem_cons.mp hb' with rfl | hrest
            · exact hkeys.le
            · exact ((List.pairwise_cons.mp hl).1 b' hrest).trans hkeys.le
          have hsame : k c = k b := le_antisymm hcb (hle c (List.mem_cons_self ..))
          rw [List.map_cons, List.head?_cons, (hkey c hc b hb).mpr hsame]

/-- A sorted list is contiguous. -/
theorem contiguous_of_sorted [LinearOrder α] {l : List α} (h : l.Pairwise (· ≤ ·)) :
    Contiguous l := by
  have hid := contiguous_map_of_sorted (k := id) (f := id) h fun _ _ _ _ => Iff.rfl
  rwa [List.map_id] at hid

/-- In a sorted list the last element is the greatest one. -/
theorem getLast?_eq_iff_of_sorted [LinearOrder α] {l : List α} (h : l.Pairwise (· ≤ ·)) {a : α}
    (ha : a ∈ l) : l.getLast? = some a ↔ ∀ b ∈ l, b ≤ a := by
  obtain ⟨l', c, rfl⟩ := (List.eq_nil_or_concat l).resolve_left (List.ne_nil_of_mem ha)
  rw [List.concat_eq_append] at h ha ⊢
  rw [List.getLast?_concat, Option.some.injEq]
  obtain ⟨-, -, hle⟩ := List.pairwise_append.mp h
  have hc : ∀ b ∈ l' ++ [c], b ≤ c := fun b hb =>
    (List.mem_append.mp hb).elim (fun hb => hle b hb c (List.mem_singleton_self c))
      fun hb => (List.mem_singleton.mp hb).le
  constructor
  · rintro rfl
    exact hc
  · intro hmax
    exact le_antisymm (hmax c (List.mem_append_right _ (List.mem_singleton_self c))) (hc a ha)

/-! ## Blocks of one value each -/

section Blocks

variable {β : Type} {key : β → α} {f : β → ℕ}

/-- `f b` copies of `key b` for every `b`. -/
def copies (key : β → α) (f : β → ℕ) (l : List β) : List α :=
  l.flatMap fun b => List.replicate (f b) (key b)

/-- The values of the non-empty blocks. -/
def blockValues (key : β → α) (f : β → ℕ) (l : List β) : List α :=
  (l.filter fun b => decide (0 < f b)).map key

theorem length_copies (l : List β) : (copies key f l).length = (l.map f).sum := by
  rw [copies, List.length_flatMap]
  exact congrArg List.sum (List.map_congr_left fun _ _ => List.length_replicate)

theorem copies_append (l l' : List β) :
    copies key f (l ++ l') = copies key f l ++ copies key f l' := List.flatMap_append

theorem copies_cons (b : β) (l : List β) :
    copies key f (b :: l) = List.replicate (f b) (key b) ++ copies key f l := List.flatMap_cons

theorem mem_copies {a : α} {l : List β} : a ∈ copies key f l ↔ a ∈ blockValues key f l := by
  simp only [copies, blockValues, List.mem_flatMap, List.mem_replicate, List.mem_map,
    List.mem_filter, decide_eq_true_eq]
  constructor
  · rintro ⟨b, hb, hf, rfl⟩
    exact ⟨b, ⟨hb, by omega⟩, rfl⟩
  · rintro ⟨b, ⟨hb, hf⟩, rfl⟩
    exact ⟨b, hb, by omega, rfl⟩

theorem head?_copies : ∀ l : List β, (copies key f l).head? = (blockValues key f l).head?
  | [] => rfl
  | b :: l => by
      have ih := head?_copies l
      unfold copies blockValues at ih ⊢
      rw [List.flatMap_cons]
      cases hf : f b with
      | zero => simp [hf, ih]
      | succ n => simp [hf, List.replicate_succ]

/-- Concatenating blocks of distinct values gives a contiguous list. -/
theorem contiguous_copies : ∀ {l : List β}, (l.map key).Nodup → Contiguous (copies key f l)
  | [], _ => trivial
  | b :: l, h => by
      obtain ⟨hnot, hnd⟩ := List.nodup_cons.mp h
      rw [copies_cons, contiguous_append]
      refine ⟨contiguous_replicate _ _, contiguous_copies hnd, ?_⟩
      intro a ha ha'
      obtain ⟨b', hb', rfl⟩ := List.mem_map.mp (mem_copies.mp ha')
      have hkey := List.eq_of_mem_replicate ha
      exact absurd (List.mem_map.mpr ⟨b', (List.mem_filter.mp hb').1, hkey⟩) hnot

end Blocks

variable [DecidableEq α]

theorem runs_cons_cons (a b : α) (l : List α) :
    runs (a :: b :: l) = if a ≠ b then a :: runs (b :: l) else runs (b :: l) := by
  rw [runs, List.destutter_cons_cons]
  split
  · rw [← List.destutter_cons', runs]
  · rename_i heq
    obtain rfl : a = b := not_not.mp heq
    rw [← List.destutter_cons', runs]

theorem mem_runs {a : α} {l : List α} : a ∈ runs l ↔ a ∈ l := by
  induction l with
  | nil => simp [runs]
  | cons b l ih =>
      cases l with
      | nil => simp [runs]
      | cons c l =>
          rw [runs_cons_cons]
          split
          · rw [List.mem_cons, List.mem_cons]
            exact or_congr_right ih
          · rename_i heq
            obtain rfl : b = c := not_not.mp heq
            refine ih.trans ?_
            simp

/-- A list is contiguous exactly when no value heads two runs. -/
theorem contiguous_iff_nodup_runs : ∀ {l : List α}, Contiguous l ↔ (runs l).Nodup
  | [] => by simp [Contiguous, runs]
  | [a] => by simp [Contiguous, runs]
  | a :: b :: l => by
      have ih := contiguous_iff_nodup_runs (l := b :: l)
      rw [Contiguous, ih, runs_cons_cons]
      split
      · rename_i hne
        rw [List.nodup_cons, mem_runs]
        refine and_congr_left fun _ => ?_
        simp only [List.head?_cons, Option.some.injEq]
        exact ⟨fun h hmem => hne (h hmem).symm, fun h hmem => absurd hmem h⟩
      · rename_i heq
        obtain rfl : a = b := not_not.mp heq
        simp

/-- For a contiguous list, and only then, there are as many runs as distinct
values. -/
theorem contiguous_iff_length_runs {l : List α} :
    Contiguous l ↔ (runs l).length = l.toFinset.card := by
  have hset : (runs l).toFinset = l.toFinset := by
    ext a
    rw [List.mem_toFinset, List.mem_toFinset, mem_runs]
  rw [contiguous_iff_nodup_runs, ← hset]
  exact ⟨fun h => (List.toFinset_card_of_nodup h).symm,
    fun h => Multiset.toFinset_card_eq_card_iff_nodup.mp h.symm⟩

/-- A part of a list has no more runs than the list. -/
theorem length_runs_mono {l l' : List α} (h : l.Sublist l') :
    (runs l).length ≤ (runs l').length :=
  List.IsChain.length_le_length_destutter_ne ((List.destutter_sublist _ _).trans h)
    (List.isChain_destutter _ _)

/-- A join has no more runs than its two sides together. -/
theorem length_runs_append_le (l l' : List α) :
    (runs (l ++ l')).length ≤ (runs l).length + (runs l').length := by
  have hchain : (runs (l ++ l')).IsChain (· ≠ ·) := List.isChain_destutter _ _
  obtain ⟨r, r', heq, hr, hr'⟩ :=
    List.sublist_append_iff.mp (List.destutter_sublist (· ≠ ·) (l ++ l'))
  rw [runs, heq] at hchain ⊢
  rw [List.length_append]
  have hleft := List.IsChain.length_le_length_destutter_ne hr hchain.left_of_append
  have hright := List.IsChain.length_le_length_destutter_ne hr' hchain.right_of_append
  exact Nat.add_le_add hleft hright

/-- Renaming the values joins runs at most. -/
theorem length_runs_map_le {β : Type} [DecidableEq β] (f : β → α) (l : List β) :
    (runs (l.map f)).length ≤ (runs l).length := by
  have hchain : (runs (l.map f)).IsChain (· ≠ ·) := List.isChain_destutter _ _
  obtain ⟨r, hr, heq⟩ := List.sublist_map_iff.mp (List.destutter_sublist (· ≠ ·) (l.map f))
  rw [runs, heq] at hchain ⊢
  rw [List.length_map]
  refine List.IsChain.length_le_length_destutter_ne hr ?_
  exact ((List.isChain_map f).mp hchain).imp fun _ _ hne h => hne (congrArg f h)

theorem runs_repeat (a : α) : ∀ l l' : List α, runs (l ++ a :: a :: l') = runs (l ++ a :: l')
  | [], l' => by
      rw [List.nil_append, runs_cons_cons, if_neg (not_not.mpr rfl), List.nil_append]
  | [b], l' => by
      have ih := runs_repeat a [] l'
      rw [List.nil_append, List.nil_append] at ih
      rw [List.singleton_append, List.singleton_append, runs_cons_cons b, runs_cons_cons b, ih]
  | b :: c :: l, l' => by
      have ih := runs_repeat a (c :: l) l'
      rw [List.cons_append, List.cons_append] at ih ⊢
      rw [List.cons_append, List.cons_append, runs_cons_cons, runs_cons_cons, ih]

/-- A block of copies has no more runs than one copy. -/
theorem length_runs_replicate_le (a : α) (l l' : List α) : ∀ n,
    (runs (l ++ (List.replicate n a ++ l'))).length ≤ (runs (l ++ a :: l')).length
  | 0 => length_runs_mono (List.Sublist.append_left (List.sublist_cons_self a l') l)
  | 1 => le_refl _
  | n + 2 => by
      have ih := length_runs_replicate_le a l l' (n + 1)
      rw [List.replicate_succ, List.cons_append] at ih
      rw [List.replicate_succ, List.replicate_succ, List.cons_append, List.cons_append,
        runs_repeat]
      exact ih

/-- Blocks of copies have no more runs than the keys one by one. -/
theorem length_runs_copies_le {β : Type} {key : β → α} {f : β → ℕ} : ∀ (p : List α) (l : List β),
    (runs (p ++ copies key f l)).length ≤ (runs (p ++ l.map key)).length
  | _, [] => le_refl _
  | p, b :: l => by
      have ih : (runs (p ++ [key b] ++ copies key f l)).length
          ≤ (runs (p ++ [key b] ++ l.map key)).length := length_runs_copies_le (p ++ [key b]) l
      rw [List.append_assoc, List.append_assoc, List.singleton_append, List.singleton_append] at ih
      rw [copies_cons, List.map_cons]
      exact (length_runs_replicate_le (key b) p _ (f b)).trans ih

end

/-! ## Stable sorting by a key -/

/-- Sort by a key; elements with one key keep their order. -/
def sortByKey {α β : Type} [LinearOrder β] (f : α → β) (l : List α) : List α :=
  l.insertionSort fun a b => f a ≤ f b

section SortByKey

variable {α β : Type} [LinearOrder β] (f : α → β) (l : List α)

theorem sortByKey_perm : (sortByKey f l).Perm l := List.perm_insertionSort _ _

theorem pairwise_sortByKey : (sortByKey f l).Pairwise fun a b => f a ≤ f b := by
  have : Std.Total fun a b => f a ≤ f b := ⟨fun a b => le_total (f a) (f b)⟩
  have : IsTrans α fun a b => f a ≤ f b := ⟨fun _ _ _ h₁ h₂ => le_trans h₁ h₂⟩
  exact List.pairwise_insertionSort _ l

/-- Stability: the elements of one key are a sublist that does not move. -/
theorem filter_sortByKey (k : β) :
    ((sortByKey f l).filter fun a => decide (f a = k)) = l.filter fun a => decide (f a = k) := by
  have hkey : ∀ a ∈ l.filter fun a => decide (f a = k), f a = k := by
    intro a ha
    simpa using (List.mem_filter.mp ha).2
  have hsorted : (l.filter fun a => decide (f a = k)).Pairwise fun a b => f a ≤ f b :=
    List.pairwise_of_forall_mem_list fun a ha b hb => ((hkey a ha).trans (hkey b hb).symm).le
  have hsub := (List.sublist_insertionSort hsorted List.filter_sublist).filter
    fun a => decide (f a = k)
  rw [List.filter_filter] at hsub
  simp only [Bool.and_self] at hsub
  refine (hsub.eq_of_length ?_).symm
  exact ((sortByKey_perm f l).symm.filter _).length_eq

theorem contiguous_map_sortByKey : Contiguous ((sortByKey f l).map f) :=
  contiguous_of_sorted (List.pairwise_map.mpr (pairwise_sortByKey f l))

end SortByKey

end Lib
