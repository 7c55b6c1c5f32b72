import Mathlib.Algebra.Order.BigOperators.Group.List
import Mathlib.Algebra.GroupWithZero.Nat
import Mathlib.Algebra.Order.Group.Nat
import AdapterSlots.Lib.Contiguous
import AdapterSlots.Lib.Runs

/-!
# Elements in long runs

`inLongRuns key t l` counts the elements of a list that stand in a maximal
run of at least `t`. Joining two lists can only merge runs, so the count of
the whole is at least the sum of the counts of its parts. An element in a
run of `t` has at least `t` elements of its key in the list
(`inLongRuns_le`), and when the list is contiguous in its key that is also
enough (`inLongRuns_of_contiguous`): no order of the elements has more of
them in long runs than a contiguous one.
-/

namespace Lib

variable {α κ : Type} [DecidableEq κ] {key : α → κ}

/-- What a run of length `n` adds. -/
def longPart (t : ℤ) (n : ℕ) : ℕ := if t ≤ n then n else 0

theorem longPart_le (t : ℤ) (n : ℕ) : longPart t n ≤ n := by
  unfold longPart
  split
  · exact Nat.le_refl n
  · exact Nat.zero_le n

theorem longPart_anti {t t' : ℤ} (h : t ≤ t') (n : ℕ) : longPart t' n ≤ longPart t n := by
  unfold longPart
  split
  · rename_i ht'
    rw [if_pos (h.trans ht')]
  · exact Nat.zero_le _

/-- Two runs that merge add as much as both, or more. -/
theorem longPart_add_le (t : ℤ) (m n : ℕ) :
    longPart t m + longPart t n ≤ longPart t (m + n) := by
  unfold longPart
  split_ifs <;> omega

/-- The number of elements in maximal runs of at least `t`. -/
def inLongRuns (key : α → κ) (t : ℤ) (l : List α) : ℕ :=
  ((maximalRuns key l).map fun run => longPart t run.length).sum

theorem inLongRuns_eq (t : ℤ) (l : List α) : inLongRuns key t l
    = ((maximalRuns key l).filter fun run => decide (t ≤ run.length)).flatten.length := by
  unfold inLongRuns
  induction maximalRuns key l with
  | nil => rfl
  | cons run runs ih =>
      rw [List.map_cons, List.sum_cons, ih, List.filter_cons]
      by_cases hlong : t ≤ run.length
      · rw [if_pos (decide_eq_true hlong), List.flatten_cons, List.length_append, longPart,
          if_pos hlong]
      · rw [if_neg (by simpa using hlong), longPart, if_neg hlong, Nat.zero_add]

/-- The lengths of the maximal runs add up to the length of the list. -/
theorem sum_length_maximalRuns (key : α → κ) (l : List α) :
    ((maximalRuns key l).map List.length).sum = l.length := by
  rw [← List.length_flatten, flatten_maximalRuns]

theorem inLongRuns_anti {t t' : ℤ} (h : t ≤ t') (l : List α) :
    inLongRuns key t' l ≤ inLongRuns key t l :=
  List.sum_le_sum fun run _ => longPart_anti h run.length

/-- Every run has an element. -/
theorem inLongRuns_of_le_one {t : ℤ} (ht : t ≤ 1) (l : List α) :
    inLongRuns key t l = l.length := by
  rw [← sum_length_maximalRuns key l, inLongRuns]
  refine congrArg List.sum (List.map_congr_left fun run hrun => ?_)
  have hpos := List.length_pos_of_ne_nil (ne_nil_of_mem_maximalRuns hrun)
  exact if_pos (by omega)

/-- No element is counted exactly when all runs are shorter. -/
theorem inLongRuns_eq_zero_iff {t : ℤ} {l : List α} :
    inLongRuns key t l = 0 ↔ ∀ run ∈ maximalRuns key l, (run.length : ℤ) < t := by
  unfold inLongRuns
  rw [List.sum_eq_zero_iff, List.forall_mem_map]
  refine forall₂_congr fun run hrun => ?_
  have hpos := List.length_pos_of_ne_nil (ne_nil_of_mem_maximalRuns hrun)
  unfold longPart
  split <;> omega

/-! ## Joining lists -/

/-- The elements of one key at the head are one run, or none. -/
theorem inLongRuns_split (key : α → κ) (t : ℤ) (c : κ) (l : List α) : inLongRuns key t l
    = longPart t (l.takeWhile fun b => decide (key b = c)).length
      + inLongRuns key t (l.dropWhile fun b => decide (key b = c)) := by
  have hnone : longPart t 0 = 0 := Nat.le_zero.mp (longPart_le t 0)
  cases l with
  | nil =>
      rw [List.takeWhile_nil, List.dropWhile_nil, List.length_nil, hnone, Nat.zero_add]
  | cons a l =>
      by_cases ha : key a = c
      · subst ha
        have hhead : decide (key a = key a) = true := decide_eq_true rfl
        rw [List.takeWhile_cons, List.dropWhile_cons, if_pos hhead, if_pos hhead, inLongRuns,
          maximalRuns_cons, List.map_cons, List.sum_cons]
        rfl
      · have hhead : ¬ decide (key a = c) = true := by simpa using ha
        rw [List.takeWhile_cons, List.dropWhile_cons, if_neg hhead, if_neg hhead,
          List.length_nil, hnone, Nat.zero_add]

/-- A list of one key is one run. -/
theorem inLongRuns_of_forall {c : κ} (t : ℤ) {l : List α} (h : ∀ a ∈ l, key a = c) :
    inLongRuns key t l = longPart t l.length := by
  have hall : ∀ a ∈ l, decide (key a = c) = true := fun a ha => decide_eq_true (h a ha)
  rw [inLongRuns_split key t c, List.takeWhile_eq_self_iff.mpr hall,
    List.dropWhile_eq_nil_iff.mpr hall]
  rfl

theorem inLongRuns_append_le (key : α → κ) (t : ℤ) : ∀ l₁ l₂ : List α,
    inLongRuns key t l₁ + inLongRuns key t l₂ ≤ inLongRuns key t (l₁ ++ l₂)
  | [], l₂ => (Nat.zero_add _).le
  | a :: l₁, l₂ => by
      have hwhole := inLongRuns_split key t (key a) ((a :: l₁) ++ l₂)
      have hleft := inLongRuns_split key t (key a) (a :: l₁)
      by_cases hall : ∀ b ∈ a :: l₁, decide (key b = key a) = true
      · -- the left list is one run, which may go on to the right
        have hright := inLongRuns_split key t (key a) l₂
        rw [List.takeWhile_append_of_pos hall, List.dropWhile_append_of_pos hall,
          List.length_append] at hwhole
        rw [List.takeWhile_eq_self_iff.mpr hall, List.dropWhile_eq_nil_iff.mpr hall] at hleft
        have hjoin := longPart_add_le t (a :: l₁).length
          (l₂.takeWhile fun b => decide (key b = key a)).length
        have hnil : inLongRuns key t ([] : List α) = 0 := rfl
        omega
      · -- the first run stays as it is
        have hrest : (a :: l₁).dropWhile (fun b => decide (key b = key a)) ≠ [] := fun h =>
          hall (List.dropWhile_eq_nil_iff.mp h)
        have hshort : ((a :: l₁).takeWhile fun b => decide (key b = key a)).length
            ≠ (a :: l₁).length := fun h =>
          hall (List.takeWhile_eq_self_iff.mp
            ((List.takeWhile_prefix _).eq_of_length h))
        rw [List.takeWhile_append, if_neg hshort, List.dropWhile_append,
          if_neg (by simpa using hrest)] at hwhole
        have hlt := Nat.lt_succ_of_le
          (List.length_dropWhile_le (fun b => decide (key b = key a)) l₁)
        have ih := inLongRuns_append_le key t
          ((a :: l₁).dropWhile fun b => decide (key b = key a)) l₂
        omega
termination_by l₁ => l₁.length

/-! ## Contiguous lists -/

/-- The number of elements with the key of `a`. -/
def sameKey (key : α → κ) (l : List α) (a : α) : ℕ := l.countP fun b => decide (key b = key a)

/-- The elements of a run have one key, so each of them has at least the run. -/
theorem length_le_sameKey {l run : List α} (hrun : run ∈ maximalRuns key l) {a : α}
    (ha : a ∈ run) : run.length ≤ sameKey key l a := by
  have hall : run.countP (fun b => decide (key b = key a)) = run.length :=
    List.countP_eq_length.mpr fun b hb => decide_eq_true (key_eq_of_mem_run hrun hb ha)
  have hsub : run.Sublist l := by
    have := List.sublist_flatten_of_mem hrun
    rwa [flatten_maximalRuns] at this
  rw [← hall]
  exact hsub.countP_le

/-- An element of a run of `t` has `t` elements of its key in the list. -/
theorem inLongRuns_le (key : α → κ) (t : ℤ) (l : List α) :
    inLongRuns key t l ≤ l.countP fun a => decide (t ≤ sameKey key l a) := by
  have hruns : (l.countP fun a => decide (t ≤ sameKey key l a))
      = ((maximalRuns key l).map
          (List.countP fun a => decide (t ≤ sameKey key l a))).sum := by
    rw [← List.countP_flatten, flatten_maximalRuns]
  rw [hruns]
  refine List.sum_le_sum fun run hrun => ?_
  unfold longPart
  split
  · rename_i hlong
    refine (List.countP_eq_length.mpr fun a ha => decide_eq_true ?_).ge
    have := length_le_sameKey hrun ha
    omega
  · exact Nat.zero_le _

omit [DecidableEq κ] in
theorem contiguous_of_suffix {l₁ l₂ : List κ} (h : Contiguous (l₁ ++ l₂)) : Contiguous l₂ :=
  (contiguous_append.mp h).2.1

/-- Behind its first run the value does not come back. -/
theorem notMem_dropWhile_of_contiguous {c : κ} : ∀ {l : List κ}, Contiguous (c :: l) →
    c ∉ l.dropWhile fun b => decide (b = c)
  | [], _ => List.not_mem_nil
  | b :: l, h => by
      by_cases hb : b = c
      · subst hb
        rw [List.dropWhile_cons, if_pos (decide_eq_true rfl)]
        exact notMem_dropWhile_of_contiguous h.2
      · rw [List.dropWhile_cons, if_neg (by simpa using hb)]
        exact fun hmem => hb (Option.some.inj (h.1 hmem))

theorem sameKey_append (l₁ l₂ : List α) (a : α) :
    sameKey key (l₁ ++ l₂) a = sameKey key l₁ a + sameKey key l₂ a := List.countP_append ..

theorem sameKey_of_forall {l : List α} {a : α} (h : ∀ b ∈ l, key b = key a) :
    sameKey key l a = l.length :=
  List.countP_eq_length.mpr fun b hb => decide_eq_true (h b hb)

theorem sameKey_eq_zero {l : List α} {a : α} (h : ∀ b ∈ l, key b ≠ key a) :
    sameKey key l a = 0 :=
  List.countP_eq_zero.mpr fun b hb => by simpa using h b hb

/-- All elements of one key in front, and none of it behind them. -/
theorem countP_sameKey_append (t : ℤ) {c : κ} {r d : List α} (hr : ∀ b ∈ r, key b = c)
    (hd : ∀ b ∈ d, key b ≠ c) :
    ((r ++ d).countP fun a => decide (t ≤ sameKey key (r ++ d) a))
      = longPart t r.length + d.countP fun a => decide (t ≤ sameKey key d a) := by
  rw [List.countP_append]
  refine congrArg₂ (· + ·) ?_ (List.countP_congr fun b hb => ?_)
  · have hall : ∀ b ∈ r, sameKey key (r ++ d) b = r.length := by
      intro b hb
      have hzero : sameKey key d b = 0 :=
        sameKey_eq_zero fun b' hb' heq => hd b' hb' (heq.trans (hr b hb))
      rw [sameKey_append, hzero, Nat.add_zero]
      exact sameKey_of_forall fun b' hb' => (hr b' hb').trans (hr b hb).symm
    unfold longPart
    split
    · rename_i hlong
      refine List.countP_eq_length.mpr fun b hb => decide_eq_true ?_
      rwa [hall b hb]
    · rename_i hshort
      refine List.countP_eq_zero.mpr fun b hb => ?_
      rw [hall b hb, decide_eq_true_eq]
      exact hshort
  · have hzero : sameKey key r b = 0 :=
      sameKey_eq_zero fun b' hb' heq => hd b hb (heq.symm.trans (hr b' hb'))
    rw [sameKey_append, hzero, Nat.zero_add]

/-- In a list that is contiguous in its key, the elements in runs of `t` are those
with `t` elements of their key. -/
theorem inLongRuns_of_contiguous (t : ℤ) : ∀ {l : List α}, Contiguous (l.map key) →
    inLongRuns key t l = l.countP fun a => decide (t ≤ sameKey key l a)
  | [], _ => rfl
  | a :: l, h => by
      have hlt := Nat.lt_succ_of_le (List.length_dropWhile_le (fun b => decide (key b = key a)) l)
      have hd : (a :: l).dropWhile (fun b => decide (key b = key a))
          = l.dropWhile fun b => decide (key b = key a) := by
        rw [List.dropWhile_cons, if_pos (decide_eq_true rfl)]
      have hjoin := List.takeWhile_append_dropWhile (p := fun b => decide (key b = key a))
        (l := a :: l)
      have hrun : ∀ b ∈ (a :: l).takeWhile (fun b => decide (key b = key a)), key b = key a :=
        fun b hb => by simpa using List.mem_takeWhile_imp hb
      have hrest : ∀ b ∈ l.dropWhile (fun b => decide (key b = key a)), key b ≠ key a := by
        intro b hb heq
        refine notMem_dropWhile_of_contiguous h ?_
        rw [List.dropWhile_map]
        exact List.mem_map.mpr ⟨b, hb, heq⟩
      have hcont : Contiguous ((l.dropWhile fun b => decide (key b = key a)).map key) := by
        have hwhole := h
        rw [← hjoin, List.map_append, hd] at hwhole
        exact contiguous_of_suffix hwhole
      have hcount := countP_sameKey_append t hrun hrest
      rw [← hd, hjoin] at hcount
      rw [inLongRuns_split key t (key a), hd, inLongRuns_of_contiguous t hcont, hcount, hd]
termination_by l => l.length

end Lib
