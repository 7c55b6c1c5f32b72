import Mathlib.Data.Finset.Card
import AdapterSlots.Gwar
import AdapterSlots.Lib.Binary64
import AdapterSlots.Policy

/-!
# The warp alignment ratio

`WAR` is the fraction of the complete warps of a batch whose tokens all have
one adapter; the partial warp at the end does not count. `war` is this
definition. `compute_war` takes the set of the adapters of each warp,
`compute_war_from_ids` the minimum and the maximum of its rows, after it has
stored the numbers as 32-bit integers.

The scheduler has names, which it turns into numbers first. The ratio is
then one over the numbers, so names with one number count as one adapter.
-/

namespace AdapterSlots

open Lib

/-- What a 64-bit integer can hold. -/
def Fits64 (n : ℤ) : Prop := -9223372036854775808 ≤ n ∧ n < 9223372036854775808

def Fits32 (n : ℤ) : Prop := -2147483648 ≤ n ∧ n < 2147483648

theorem wrap32_of_fits {n : ℤ} (h : Fits32 n) : wrap32 n = n := by
  obtain ⟨hlo, hhi⟩ := h
  unfold wrap32
  omega

theorem Fits32.fits64 {n : ℤ} (h : Fits32 n) : Fits64 n := by
  obtain ⟨hlo, hhi⟩ := h
  exact ⟨by omega, by omega⟩

/-! ## Warps -/

section Warps

variable {A B T : Type} {W : ℕ}

/-- The complete warps of a batch. -/
def warps (W : ℕ) (l : List A) : List (List A) :=
  (List.range (l.length / W)).map fun j => (l.drop (j * W)).take W

/-- All tokens have one adapter. -/
def Homogeneous (warp : List A) : Prop := ∀ a ∈ warp, ∀ b ∈ warp, a = b

instance [DecidableEq A] (warp : List A) : Decidable (Homogeneous warp) :=
  inferInstanceAs (Decidable (∀ a ∈ warp, ∀ b ∈ warp, a = b))

def homogeneousWarps [DecidableEq A] (W : ℕ) (l : List A) : ℕ :=
  (warps W l).countP fun warp => decide (Homogeneous warp)

/-- The definition of the ratio. -/
def war [DecidableEq A] {K : Type} [Field K] (W : ℕ) (l : List A) : K :=
  (homogeneousWarps W l : K) / (l.length / W : ℕ)

/-- `compute_war`; `adapterId` reads the key `"adapter_id"` of a token. -/
def computeWar [DecidableEq A] {K : Type} [Field K] (adapterId : T → A) (batchTokens : List T)
    (warpSize : ℕ) : K :=
  let n := batchTokens.length
  if n = 0 then 0
  else
    let m := n / warpSize
    if m = 0 then 0
    else
      let aligned := (List.range m).countP fun j =>
        let warp := (batchTokens.drop (j * warpSize)).take warpSize
        decide ((warp.map adapterId).toFinset.card = 1)
      (aligned : K) / m

theorem length_warps (l : List A) : (warps W l).length = l.length / W := by
  rw [warps, List.length_map, List.length_range]

/-- A complete warp has `W` tokens. -/
theorem length_of_mem_warps {l warp : List A} (h : warp ∈ warps W l) : warp.length = W := by
  obtain ⟨j, hj, rfl⟩ := List.mem_map.mp h
  have hj' := List.mem_range.mp hj
  have hend : (j + 1) * W ≤ l.length :=
    (Nat.mul_le_mul_right W hj').trans (Nat.div_mul_le_self _ _)
  rw [Nat.add_mul, Nat.one_mul] at hend
  rw [List.length_take, List.length_drop]
  omega

theorem warps_map (f : A → B) (l : List A) : warps W (l.map f) = (warps W l).map (List.map f) := by
  unfold warps
  rw [List.map_map, List.length_map]
  refine List.map_congr_left fun j _ => ?_
  rw [← List.map_drop, ← List.map_take]
  rfl

/-- Tokens of one adapter have one number. -/
theorem Homogeneous.map {warp : List A} (h : Homogeneous warp) (f : A → B) :
    Homogeneous (warp.map f) := by
  unfold Homogeneous
  simp only [List.forall_mem_map]
  exact fun a ha b hb => congrArg f (h a ha b hb)

variable [DecidableEq A]

theorem card_eq_one_iff {warp : List A} (hne : warp ≠ []) :
    warp.toFinset.card = 1 ↔ Homogeneous warp := by
  obtain ⟨a, ha⟩ := List.exists_mem_of_ne_nil warp hne
  rw [Finset.card_eq_one]
  constructor
  · rintro ⟨c, hc⟩ b hb b' hb'
    have hall : ∀ x ∈ warp, x = c := fun x hx =>
      Finset.mem_singleton.mp (hc ▸ List.mem_toFinset.mpr hx)
    exact (hall b hb).trans (hall b' hb').symm
  · intro h
    refine ⟨a, Finset.eq_singleton_iff_unique_mem.mpr ⟨List.mem_toFinset.mpr ha, ?_⟩⟩
    exact fun x hx => h x (List.mem_toFinset.mp hx) a ha

omit [DecidableEq A] in
/-- The minimum and the maximum agree when everything lies in between. -/
theorem min?_eq_max?_iff {warp : List ℤ} (hne : warp ≠ []) :
    warp.min? = warp.max? ↔ Homogeneous warp := by
  obtain ⟨lo, hlo⟩ := Option.isSome_iff_exists.mp (List.isSome_min?_of_ne_nil hne)
  obtain ⟨hi, hhi⟩ := Option.isSome_iff_exists.mp (List.isSome_max?_of_ne_nil hne)
  obtain ⟨hlomem, hlole⟩ := List.min?_eq_some_iff.mp hlo
  obtain ⟨himem, hhile⟩ := List.max?_eq_some_iff.mp hhi
  rw [hlo, hhi, Option.some.injEq]
  constructor
  · rintro rfl a ha b hb
    have heq : ∀ x ∈ warp, x = lo := fun x hx => le_antisymm (hhile x hx) (hlole x hx)
    exact (heq a ha).trans (heq b hb).symm
  · exact fun h => h lo hlomem hi himem

theorem homogeneousWarps_eq (l : List A) : homogeneousWarps W l
    = (List.range (l.length / W)).countP fun j =>
        decide (Homogeneous ((l.drop (j * W)).take W)) := by
  rw [homogeneousWarps, warps, List.countP_map]
  rfl

theorem homogeneousWarps_le (l : List A) : homogeneousWarps W l ≤ l.length / W := by
  rw [← length_warps]
  exact List.countP_le_length

omit [DecidableEq A] in
theorem ne_nil_of_mem_warps (hW : 0 < W) {l warp : List A} (h : warp ∈ warps W l) : warp ≠ [] :=
  List.ne_nil_of_length_pos (length_of_mem_warps h ▸ hW)

end Warps

/-! ### The implementations -/

section Implementations

variable {A T : Type} [DecidableEq A] {K : Type} [Field K] {W : ℕ}

/-- Counting warps by another test that agrees on them. -/
theorem countP_range_warps (W : ℕ) (l : List A) (test : List A → Bool)
    (h : ∀ warp ∈ warps W l, test warp = true ↔ Homogeneous warp) :
    ((List.range (l.length / W)).countP fun j => test ((l.drop (j * W)).take W))
      = homogeneousWarps W l := by
  rw [homogeneousWarps_eq]
  refine List.countP_congr fun j hj => ?_
  rw [decide_eq_true_eq]
  exact h _ (List.mem_map.mpr ⟨j, hj, rfl⟩)

theorem war_of_short {l : List A} (h : l.length / W = 0) : (war W l : K) = 0 := by
  rw [war, h, Nat.cast_zero, div_zero]

theorem computeWar_eq (hW : 0 < W) (adapterId : T → A) (tokens : List T) :
    (computeWar adapterId tokens W : K) = war W (tokens.map adapterId) := by
  have hlen : (tokens.map adapterId).length = tokens.length := List.length_map _
  have hcount := countP_range_warps W (tokens.map adapterId)
    (fun warp => decide (warp.toFinset.card = 1)) fun warp hwarp => by
      rw [decide_eq_true_eq]
      exact card_eq_one_iff (ne_nil_of_mem_warps hW hwarp)
  simp only [← List.map_drop, ← List.map_take, hlen] at hcount
  unfold computeWar
  dsimp only
  split
  · rename_i hnil
    exact (war_of_short (by rw [hlen, hnil, Nat.zero_div])).symm
  · split
    · rename_i hshort
      exact (war_of_short (hlen.symm ▸ hshort)).symm
    · rw [hcount, war, hlen]

/-- The ratio of the numbers as they are stored. -/
theorem computeWarFromIds_of_fits (hW : 0 < W) {ids : List ℤ} (h : ∀ n ∈ ids, Fits64 n) :
    (computeWarFromIds ids W : Except PyError K) = .ok (war W (ids.map wrap32)) := by
  have hcount := countP_range_warps W (ids.map wrap32)
    (fun warp => decide (warp.min? = warp.max?)) fun warp hwarp => by
      rw [decide_eq_true_eq]
      exact min?_eq_max?_iff (ne_nil_of_mem_warps hW hwarp)
  have hguard : ∀ n ∈ ids, -9223372036854775808 ≤ n ∧ n < 9223372036854775808 := h
  unfold computeWarFromIds
  rw [if_pos hguard]
  dsimp only
  split
  · rename_i hshort
    rw [war_of_short hshort]
  · rw [hcount, war]

theorem computeWarFromIds_of_not_fits {ids : List ℤ} (h : ¬ ∀ n ∈ ids, Fits64 n) :
    (computeWarFromIds ids W : Except PyError K) = .error .overflowError := if_neg h

end Implementations

/-! ### Runs -/

theorem Homogeneous.inLongRuns {A : Type} [DecidableEq A] {warp : List A} (h : Homogeneous warp)
    (t : ℤ) : inLongRuns (fun a => a) t warp = longPart t warp.length := by
  cases warp with
  | nil => exact (Nat.le_zero.mp (longPart_le t 0)).symm
  | cons a l => exact inLongRuns_of_forall t fun b hb => h b hb a (List.mem_cons_self ..)

/-- A homogeneous warp lies in one run, and the warps are disjoint. -/
theorem homogeneousWarps_mul_le {A : Type} [DecidableEq A] (W : ℕ) (l : List A) :
    homogeneousWarps W l * W ≤ inLongRuns (fun a => a) W l := by
  suffices h : ∀ (m : ℕ) (l : List A), m * W ≤ l.length →
      ((List.range m).countP fun j => decide (Homogeneous ((l.drop (j * W)).take W))) * W
        ≤ inLongRuns (fun a => a) W l by
    rw [homogeneousWarps_eq]
    exact h _ l (Nat.div_mul_le_self _ _)
  intro m
  induction m with
  | zero => exact fun l _ => (Nat.zero_mul W).trans_le (Nat.zero_le _)
  | succ m ih =>
      intro l hlen
      rw [Nat.add_mul, Nat.one_mul] at hlen
      have hrest := ih (l.drop W) (by rw [List.length_drop]; omega)
      have hjoin := inLongRuns_append_le (fun a => a) W (l.take W) (l.drop W)
      rw [List.take_append_drop] at hjoin
      have hfirst : (if Homogeneous (l.take W) then W else 0)
          ≤ inLongRuns (fun a => a) W (l.take W) := by
        split
        · rename_i hhom
          rw [hhom.inLongRuns, List.length_take_of_le (by omega), longPart, if_pos le_rfl]
        · exact Nat.zero_le _
      have hshift : ((List.range m).map Nat.succ).countP
            (fun j => decide (Homogeneous ((l.drop (j * W)).take W)))
          = (List.range m).countP fun j =>
            decide (Homogeneous (((l.drop W).drop (j * W)).take W)) := by
        rw [List.countP_map]
        refine List.countP_congr fun j _ => ?_
        rw [List.drop_drop, Function.comp_apply, Nat.succ_mul, Nat.add_comm]
      rw [List.range_succ_eq_map, List.countP_cons, hshift, Nat.zero_mul, List.drop_zero]
      simp only [decide_eq_true_eq]
      split at hfirst
      · rename_i hhom
        rw [if_pos hhom, Nat.add_mul, Nat.one_mul]
        omega
      · rename_i hhom
        rw [if_neg hhom, Nat.add_zero]
        omega

/-! ## Numbers -/

section Numbers

variable {T : Type} {K : Type} [Field K] [LinearOrder K] [IsStrictOrderedRing K] {W : ℕ}

theorem war_nonneg {A : Type} [DecidableEq A] (l : List A) : (0 : K) ≤ war W l :=
  div_nonneg (Nat.cast_nonneg _) (Nat.cast_nonneg _)

theorem war_le_one {A : Type} [DecidableEq A] (l : List A) : (war W l : K) ≤ 1 :=
  div_le_one_of_le₀ (Nat.cast_le.mpr (homogeneousWarps_le l)) (Nat.cast_nonneg _)

/-- **The two implementations** give one ratio, also as a double, and in exact arithmetic
the tokens of homogeneous warps are among those that `GWAR(W)` counts. -/
theorem war_implementations_agree (hW : 1 ≤ W) {ids : List ℤ} (hids : ∀ n ∈ ids, Fits32 n)
    {adapterId : T → ℤ} {tokens : List T} (htokens : tokens.map adapterId = ids) :
    (computeWarFromIds ids W = .ok (computeWar adapterId tokens W : K)
        ∧ 0 ≤ (computeWar adapterId tokens W : K) ∧ (computeWar adapterId tokens W : K) ≤ 1)
      ∧ ((computeWarFromIds ids W).map binary64 = .ok (binary64 (computeWar adapterId tokens W))
        ∧ 0 ≤ binary64 (computeWar adapterId tokens W)
        ∧ binary64 (computeWar adapterId tokens W) ≤ 1)
      ∧ ((homogeneousWarps W ids * W : ℕ) : K) ≤ ids.length * computeGwar ids W := by
  have hstored : ids.map wrap32 = ids :=
    (List.map_congr_left fun n hn => wrap32_of_fits (hids n hn)).trans (List.map_id _)
  have hwar : ∀ {F : Type} [Field F], (computeWar adapterId tokens W : F) = war W ids := by
    intro F _
    rw [computeWar_eq hW, htokens]
  have hfits : ∀ n ∈ ids, Fits64 n := fun n hn => (hids n hn).fits64
  rw [hwar, hwar, computeWarFromIds_of_fits hW hfits, computeWarFromIds_of_fits hW hfits, hstored]
  refine ⟨⟨rfl, war_nonneg ids, war_le_one ids⟩,
    ⟨rfl, binary64_nonneg (war_nonneg ids), binary64_le_one (war_nonneg ids) (war_le_one ids)⟩, ?_⟩
  rw [computeGwar_eq (by omega), longFraction]
  rcases Nat.eq_zero_or_pos ids.length with hnil | hpos
  · have hnone := homogeneousWarps_le (W := W) ids
    rw [hnil, Nat.zero_div] at hnone
    rw [Nat.le_zero.mp hnone, hnil, Nat.zero_mul, Nat.cast_zero, zero_mul]
  · rw [mul_div_cancel₀ _ (Nat.cast_ne_zero.mpr hpos.ne')]
    exact Nat.cast_le.mpr (homogeneousWarps_mul_le W ids)

/-- Two warps, one of them of one adapter. -/
theorem twoWarps_agree :
    (computeWarFromIds [5, 5, 5, 7] 2 : Except PyError ℚ) = .ok (1 / 2)
      ∧ computeWarFromIds [5, 5, 5, 7] 2
        = .ok (computeWar Prod.fst [((5 : ℤ), "a"), (5, "b"), (5, "c"), (7, "d")] 2 : ℚ)
      ∧ ((homogeneousWarps 2 [(5 : ℤ), 5, 5, 7] * 2 : ℕ) : ℚ)
        ≤ ([(5 : ℤ), 5, 5, 7].length : ℚ) * computeGwar [(5 : ℤ), 5, 5, 7] (2 : ℕ) := by
  have hids : ∀ n ∈ [(5 : ℤ), 5, 5, 7], Fits32 n := by
    unfold Fits32
    decide
  have htokens : [((5 : ℤ), "a"), (5, "b"), (5, "c"), (7, "d")].map Prod.fst = [5, 5, 5, 7] := rfl
  have h := war_implementations_agree (K := ℚ) (show 1 ≤ 2 by decide) hids htokens
  exact ⟨by decide +kernel, h.1.1, h.2.2⟩

/-- A homogeneous warp in front of 47 tokens of changing adapters. -/
def oneWarpOf49 : List ℤ := 7 :: 7 :: (List.range 47).map fun j => (j % 2 : ℕ)

/-- On doubles the product comes out below the number of tokens in the warp: the ratio 2 / 49
is rounded down, and 49 times it is not 2 again. -/
theorem oneWarpOf49_rounded : ¬ ∀ (ids : List ℤ) (W : ℕ), (∀ n ∈ ids, Fits32 n) → 1 ≤ W →
    ((homogeneousWarps W ids * W : ℕ) : ℚ)
      ≤ binary64 (ids.length * binary64 (computeGwar ids W)) := by
  intro h
  have hids : ∀ n ∈ oneWarpOf49, Fits32 n := by
    unfold Fits32
    decide +kernel
  have hbound := h oneWarpOf49 2 hids (by decide)
  revert hbound
  decide +kernel

end Numbers

end AdapterSlots
