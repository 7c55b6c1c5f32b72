import Mathlib.Data.List.SplitBy
import Mathlib.Data.List.TakeWhile

/-!
# Maximal runs

`maximalRuns key l` cuts a list into its maximal runs of elements with one
key. `maximalRuns_cons` peels off the first run; `maximalRuns_flatten` reads
the runs off a list that is put together from blocks of one key each, where
neighbouring blocks have different keys.
-/

namespace Lib

variable {α β κ : Type} [DecidableEq κ] {key : α → κ}

def maximalRuns (key : α → κ) (l : List α) : List (List α) :=
  l.splitBy fun a b => decide (key a = key b)

@[simp] theorem maximalRuns_nil : maximalRuns key [] = [] := rfl

@[simp] theorem flatten_maximalRuns (l : List α) : (maximalRuns key l).flatten = l :=
  List.flatten_splitBy ..

theorem ne_nil_of_mem_maximalRuns {l run : List α} (h : run ∈ maximalRuns key l) : run ≠ [] :=
  List.ne_nil_of_mem_splitBy h

omit [DecidableEq κ] in
/-- Neighbours with equal keys: all keys are equal. -/
theorem key_eq_of_chain : ∀ {run : List α}, (run.IsChain fun a b => key a = key b) →
    ∀ {a b}, a ∈ run → b ∈ run → key a = key b
  | [], _, _, _, h, _ => by cases h
  | c :: run, hchain, a, b, ha, hb => by
      have hpair : (c :: run).Pairwise fun a b => key a = key b := by
        have htrans : Trans (fun a b : α => key a = key b) (fun a b => key a = key b)
            (fun a b => key a = key b) := ⟨fun h h' => h.trans h'⟩
        exact List.isChain_iff_pairwise.mp hchain
      have hhead : ∀ d ∈ c :: run, key c = key d := fun d hd => by
        rcases List.mem_cons.mp hd with rfl | hd
        · rfl
        · exact (List.pairwise_cons.mp hpair).1 d hd
      exact (hhead a ha).symm.trans (hhead b hb)

omit [DecidableEq κ] in
theorem chain_of_key_eq {run : List α} (h : ∀ a ∈ run, ∀ b ∈ run, key a = key b) :
    run.IsChain fun a b => key a = key b :=
  List.Pairwise.isChain (List.pairwise_of_forall_mem_list h)

/-- A run has one key. -/
theorem key_eq_of_mem_run {l run : List α} (h : run ∈ maximalRuns key l) {a b : α}
    (ha : a ∈ run) (hb : b ∈ run) : key a = key b := by
  have hchain : run.IsChain fun a b => decide (key a = key b) = true :=
    List.isChain_of_mem_splitBy h
  simp only [decide_eq_true_eq] at hchain
  exact key_eq_of_chain hchain ha hb

/-- Neighbouring runs have different keys. -/
theorem chain_maximalRuns (l : List α) :
    (maximalRuns key l).IsChain fun run run' => ∀ a ∈ run, ∀ b ∈ run', key a ≠ key b := by
  refine (List.isChain_getLast_head_splitBy _ l).imp_of_mem_imp fun run run' hrun hrun' h => ?_
  obtain ⟨hne, hne', hcut⟩ := h
  intro a ha b hb heq
  have hlast := key_eq_of_mem_run hrun ha (List.getLast_mem hne)
  have hhead := key_eq_of_mem_run hrun' hb (List.head_mem hne')
  exact of_decide_eq_false hcut (hlast.symm.trans (heq.trans hhead))

/-- Blocks of one key each, with different keys next to each other, are the
maximal runs of their concatenation. -/
theorem maximalRuns_flatten {blocks : List (List α)} (hne : ∀ run ∈ blocks, run ≠ [])
    (hkey : ∀ run ∈ blocks, ∀ a ∈ run, ∀ b ∈ run, key a = key b)
    (hdiff : blocks.IsChain fun run run' => ∀ a ∈ run, ∀ b ∈ run', key a ≠ key b) :
    maximalRuns key blocks.flatten = blocks := by
  have hnil : [] ∉ blocks := fun h => hne [] h rfl
  refine List.splitBy_flatten hnil (fun run hrun => ?_) ?_
  · simp only [decide_eq_true_eq]
    exact chain_of_key_eq (hkey run hrun)
  · refine hdiff.imp_of_mem_imp fun run run' hrun hrun' h => ?_
    refine ⟨hne run hrun, hne run' hrun', ?_⟩
    exact decide_eq_false (h _ (List.getLast_mem _) _ (List.head_mem _))

/-- The first run, and the runs of what follows it. -/
theorem maximalRuns_cons (a : α) (l : List α) :
    maximalRuns key (a :: l)
      = (a :: l.takeWhile fun b => decide (key b = key a))
          :: maximalRuns key (l.dropWhile fun b => decide (key b = key a)) := by
  have hfirst : ∀ b ∈ a :: l.takeWhile (fun b => decide (key b = key a)), key b = key a := by
    intro b hb
    rcases List.mem_cons.mp hb with rfl | hb
    · rfl
    · simpa using List.mem_takeWhile_imp hb
  have hcut : ∀ x ∈ (a :: l.takeWhile fun b => decide (key b = key a)).getLast?,
      ∀ y ∈ (l.dropWhile fun b => decide (key b = key a)).head?,
      decide (key x = key y) = false := by
    intro x hx y hy
    have hy' := List.head?_dropWhile_not (fun b => decide (key b = key a)) l
    rw [Option.mem_def.mp hy] at hy'
    have hne : key y ≠ key a := by simpa using hy'
    exact decide_eq_false fun h => hne (h ▸ hfirst x (List.mem_of_getLast? hx))
  have hjoin : a :: l = (a :: l.takeWhile fun b => decide (key b = key a))
      ++ l.dropWhile fun b => decide (key b = key a) := by
    rw [List.cons_append, List.takeWhile_append_dropWhile]
  have hsplit := List.splitBy_append hcut
  have hone : (a :: l.takeWhile fun b => decide (key b = key a)).splitBy
      (fun x y => decide (key x = key y)) = [a :: l.takeWhile fun b => decide (key b = key a)] := by
    refine List.splitBy_of_isChain (List.cons_ne_nil _ _) ?_
    simp only [decide_eq_true_eq]
    exact chain_of_key_eq fun x hx y hy => (hfirst x hx).trans (hfirst y hy).symm
  rw [← hjoin, hone] at hsplit
  exact hsplit

/-- The runs of an image are the images of the runs. -/
theorem maximalRuns_map {f : β → α} (l : List β) :
    maximalRuns key (l.map f) = (maximalRuns (fun b => key (f b)) l).map (List.map f) := by
  have hblocks : maximalRuns key ((maximalRuns (fun b => key (f b)) l).map (List.map f)).flatten
      = (maximalRuns (fun b => key (f b)) l).map (List.map f) := by
    refine maximalRuns_flatten ?_ ?_ ?_
    · intro run hrun
      obtain ⟨run, h, rfl⟩ := List.mem_map.mp hrun
      exact fun hnil => ne_nil_of_mem_maximalRuns h (List.map_eq_nil_iff.mp hnil)
    · intro run hrun
      obtain ⟨run, h, rfl⟩ := List.mem_map.mp hrun
      simp only [List.forall_mem_map]
      intro a ha b hb
      exact key_eq_of_mem_run h ha hb
    · rw [List.isChain_map]
      simp only [List.forall_mem_map]
      exact chain_maximalRuns l
  rwa [← List.map_flatten, flatten_maximalRuns] at hblocks

end Lib
