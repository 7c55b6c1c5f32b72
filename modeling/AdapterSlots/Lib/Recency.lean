import AdapterSlots.Lib.Dict
import Mathlib.Data.List.Basic
import Mathlib.Data.List.Dedup
import Mathlib.Data.List.DropRight

/-!
# Keys in the order of their last use

A run uses keys one after the other; `lastUse` is the time of the last use of
a key. A cache that moves a key to the end of its list at every use, and
otherwise only drops keys, keeps the list in the order of the last uses
(`OldestFirst`), so its head is the key whose last use is the oldest.

`l.dedup` keeps the last occurrence of every key, and so lists all keys of a
run in this order. A cache of `n` places that drops its head when it is full
(`lruTouch`) holds the last `n` of them (`lruTouch_recent`). A key is among
these as long as fewer than `n` others were used since (`mem_recent_iff`).
-/

namespace Lib

variable {α : Type} [DecidableEq α] {l ks : List α} {a b k : α}

/-- The number of uses up to the last one of `a`; zero when there is none. -/
def lastUse (l : List α) (a : α) : ℕ := l.length - l.reverse.idxOf a

theorem lastUse_le_length (l : List α) (a : α) : lastUse l a ≤ l.length := Nat.sub_le ..

theorem lastUse_snoc_self (l : List α) (a : α) : lastUse (l ++ [a]) a = l.length + 1 := by
  rw [lastUse, List.reverse_append, List.reverse_singleton, List.singleton_append,
    List.idxOf_cons_self, List.length_append, List.length_singleton, Nat.sub_zero]

theorem lastUse_snoc_of_ne (l : List α) (h : b ≠ a) : lastUse (l ++ [a]) b = lastUse l b := by
  rw [lastUse, List.reverse_append, List.reverse_singleton, List.singleton_append,
    List.idxOf_cons_ne _ h.symm, List.length_append, List.length_singleton, lastUse]
  omega

/-- The keys stand in the order of their last uses. -/
def OldestFirst (l ks : List α) : Prop := ks.Pairwise fun a b => lastUse l a < lastUse l b

theorem OldestFirst.nil (l : List α) : OldestFirst l [] := List.Pairwise.nil

theorem OldestFirst.sublist (h : OldestFirst l ks) {ks' : List α} (hs : ks'.Sublist ks) :
    OldestFirst l ks' :=
  List.Pairwise.sublist hs h

/-- The head is the key whose last use is the oldest. -/
theorem OldestFirst.head_le (h : OldestFirst l (k :: ks)) (hb : b ∈ k :: ks) :
    lastUse l k ≤ lastUse l b := by
  rcases List.mem_cons.mp hb with rfl | hb
  · exact Nat.le_refl _
  · exact Nat.le_of_lt (List.rel_of_pairwise_cons h hb)

/-- A use of another key. -/
theorem OldestFirst.use_other (h : OldestFirst l ks) (ha : a ∉ ks) : OldestFirst (l ++ [a]) ks := by
  refine List.Pairwise.imp_of_mem (fun {b c} hb hc hlt => ?_) h
  have hba : b ≠ a := fun heq => ha (heq ▸ hb)
  have hca : c ≠ a := fun heq => ha (heq ▸ hc)
  rwa [lastUse_snoc_of_ne l hba, lastUse_snoc_of_ne l hca]

/-- A new key goes to the end. -/
theorem OldestFirst.use_new (h : OldestFirst l ks) (ha : a ∉ ks) :
    OldestFirst (l ++ [a]) (ks ++ [a]) := by
  refine List.pairwise_append.mpr ⟨h.use_other ha, List.pairwise_singleton .., fun b hb c hc => ?_⟩
  obtain rfl := List.mem_singleton.mp hc
  have hbc : b ≠ c := fun heq => ha (heq ▸ hb)
  rw [lastUse_snoc_of_ne l hbc, lastUse_snoc_self]
  exact Nat.lt_succ_of_le (lastUse_le_length l b)

/-- A use moves its key to the end. -/
theorem OldestFirst.use (h : OldestFirst l ks) (a : α) :
    OldestFirst (l ++ [a]) (ks.filter (fun k => decide (k ≠ a)) ++ [a]) := by
  refine (h.sublist List.filter_sublist).use_new fun hmem => ?_
  exact of_decide_eq_true (List.mem_filter.mp hmem).2 rfl

/-! ## The last `n` keys -/

theorem dedup_snoc (a : α) : ∀ l : List α,
    (l ++ [a]).dedup = l.dedup.filter (fun k => decide (k ≠ a)) ++ [a]
  | [] => rfl
  | b :: l => by
      have ih := dedup_snoc a l
      rw [List.cons_append]
      by_cases hb : b ∈ l
      · rw [List.dedup_cons_of_mem (List.mem_append_left _ hb), List.dedup_cons_of_mem hb, ih]
      · rw [List.dedup_cons_of_notMem hb]
        by_cases hba : b = a
        · have hmem : b ∈ l ++ [a] := List.mem_append_right _ (List.mem_singleton.mpr hba)
          rw [List.dedup_cons_of_mem hmem, ih, List.filter_cons_of_neg (by simpa using hba)]
        · have hmem : b ∉ l ++ [a] := by simp [hb, hba]
          rw [List.dedup_cons_of_notMem hmem, ih, List.filter_cons_of_pos (by simpa using hba),
            List.cons_append]

theorem oldestFirst_dedup (l : List α) : OldestFirst l l.dedup := by
  induction l using List.reverseRecOn with
  | nil => exact .nil _
  | append_singleton l a ih =>
      rw [dedup_snoc]
      exact ih.use a

/-- Serve `a` from a list with `n` places: a key that is there moves to the end, any other
one takes a free place or that of the head. -/
def lruTouch (n : ℕ) (ks : List α) (a : α) : List α :=
  if a ∈ ks then ks.filter (fun k => decide (k ≠ a)) ++ [a]
  else if ks.length < n then ks ++ [a]
  else ks.tail ++ [a]

section Recent

variable {n : ℕ}

omit [DecidableEq α] in
theorem length_rtake (l : List α) (n : ℕ) : (l.rtake n).length = min n l.length := by
  rw [List.rtake, List.length_drop]
  omega

omit [DecidableEq α] in
/-- The end of a list, when it has `n` elements or is all of the list. -/
theorem rtake_append {p s : List α} (h : s.length = n ∨ p = [] ∧ s.length ≤ n) :
    (p ++ s).rtake n = s := by
  rw [List.rtake, List.length_append]
  rcases h with rfl | ⟨rfl, hle⟩
  · rw [Nat.add_sub_cancel, List.drop_left]
  · rw [List.length_nil, Nat.zero_add, Nat.sub_eq_zero_of_le hle, List.drop_zero, List.nil_append]

/-- The list of the last `n` of distinct keys, one use later. -/
theorem lruTouch_rtake (hn : 0 < n) (hnd : ks.Nodup) (a : α) :
    lruTouch n (ks.rtake n) a = (ks.filter (fun k => decide (k ≠ a)) ++ [a]).rtake n := by
  obtain ⟨n, rfl⟩ := Nat.exists_eq_succ_of_ne_zero hn.ne'
  obtain ⟨p, s, hps, hs⟩ : ∃ p s, p ++ s = ks ∧ ks.rtake (n + 1) = s :=
    ⟨_, _, List.take_append_drop .., rfl⟩
  have hlen := hs ▸ length_rtake ks (n + 1)
  have hall : s.length < n + 1 → p = [] := fun hlt => by
    rw [← hps, List.length_append] at hlen
    exact List.eq_nil_of_length_eq_zero (by omega)
  have hdisjoint : ∀ b ∈ p, b ∉ s := fun b hp hs =>
    (List.nodup_append.mp (hps ▸ hnd)).2.2 b hp b hs rfl
  rw [List.rtake_concat_succ, hs, lruTouch, ← hps, List.filter_append]
  by_cases ha : a ∈ s
  · -- a hit: only the order changes
    have hshort := length_filter_ne (List.nodup_append.mp (hps ▸ hnd)).2.1 ha
    rw [if_pos ha, filter_ne_of_not_mem fun hp => hdisjoint a hp ha]
    rw [rtake_append]
    by_cases hfull : s.length < n + 1
    · exact .inr ⟨hall hfull, by omega⟩
    · exact .inl (by omega)
  · rw [if_neg ha, filter_ne_of_not_mem ha]
    by_cases hfull : s.length < n + 1
    · -- a free place
      rw [if_pos hfull, hall hfull, List.filter_nil, rtake_append (.inr ⟨rfl, by omega⟩)]
    · -- the head goes
      obtain ⟨b, s, rfl⟩ := List.exists_cons_of_length_pos (l := s) (by omega)
      have hlen' : s.length = n := by
        rw [List.length_cons] at hlen hfull
        omega
      have hcons : p.filter (fun k => decide (k ≠ a)) ++ b :: s
          = (p.filter (fun k => decide (k ≠ a)) ++ [b]) ++ s := by
        rw [List.append_assoc, List.singleton_append]
      rw [if_neg hfull, List.tail_cons, hcons, rtake_append (.inl hlen')]

/-- The last `n` keys of a run are what a list with `n` places holds. -/
theorem lruTouch_recent (hn : 0 < n) (l : List α) (a : α) :
    lruTouch n (l.dedup.rtake n) a = (l ++ [a]).dedup.rtake n := by
  rw [dedup_snoc, lruTouch_rtake hn (List.nodup_dedup l)]

/-- The uses since the last one of `a`. -/
def usesSince (l : List α) (a : α) : List α := l.rtakeWhile fun b => decide (b ≠ a)

theorem not_mem_usesSince (l : List α) (a : α) : a ∉ usesSince l a := fun h => by
  simpa using List.mem_rtakeWhile_imp h

theorem exists_usesSince (h : a ∈ l) : ∃ l₁, l = l₁ ++ a :: usesSince l a := by
  have hsplit := List.rdropWhile_append_rtakeWhile (p := fun b => decide (b ≠ a)) (l := l)
  have hne : l.rdropWhile (fun b => decide (b ≠ a)) ≠ [] := fun hnil => by
    have hall := List.rdropWhile_eq_nil_iff.mp hnil a h
    exact of_decide_eq_true hall rfl
  have hlast : (l.rdropWhile fun b => decide (b ≠ a)).getLast hne = a := by
    by_contra hba
    exact List.rdropWhile_last_not _ _ hne (decide_eq_true hba)
  have hinit := List.dropLast_append_getLast hne
  rw [hlast] at hinit
  refine ⟨(l.rdropWhile fun b => decide (b ≠ a)).dropLast, ?_⟩
  rw [usesSince, ← List.singleton_append, ← List.append_assoc, hinit, hsplit]

/-- A key is among the last `n` when fewer than `n` others were used since. -/
theorem mem_recent_iff : a ∈ l.dedup.rtake n ↔ a ∈ l ∧ (usesSince l a).dedup.length < n := by
  by_cases ha : a ∈ l
  · obtain ⟨l₁, hl⟩ := exists_usesSince ha
    have hsince : a ∉ (usesSince l a).dedup := fun h =>
      not_mem_usesSince l a (List.mem_dedup.mp h)
    obtain ⟨p, hp⟩ : ∃ p, p ++ a :: (usesSince l a).dedup = l.dedup := by
      have htail := List.dedup_cons_of_notMem (not_mem_usesSince l a)
      have hunion : l.dedup = l₁ ∪ (a :: (usesSince l a).dedup) := by
        rw [← htail, ← List.dedup_append, ← hl]
      rw [hunion]
      exact List.suffix_union_right ..
    have hnotp : a ∉ p := fun hin =>
      (List.nodup_append.mp (hp.symm ▸ List.nodup_dedup l)).2.2 a hin a (List.mem_cons_self ..) rfl
    rw [and_iff_right ha, List.rtake, ← hp, List.length_append, List.length_cons, List.drop_append,
      List.mem_append, or_iff_right fun hin => hnotp (List.mem_of_mem_drop hin)]
    by_cases hlt : (usesSince l a).dedup.length < n
    · rw [iff_true_right hlt, Nat.sub_eq_zero_of_le (by omega), List.drop_zero]
      exact List.mem_cons_self ..
    · refine iff_of_false (fun hin => hsince ?_) hlt
      have hdrop : p.length + ((usesSince l a).dedup.length + 1) - n - p.length
          = (usesSince l a).dedup.length - n + 1 := by omega
      rw [hdrop, List.drop_succ_cons] at hin
      exact List.mem_of_mem_drop hin
  · refine iff_of_false (fun hin => ha ?_) fun h => ha h.1
    exact List.mem_dedup.mp (List.mem_of_mem_drop hin)

end Recent

end Lib
