import Mathlib.Algebra.BigOperators.Intervals
import Mathlib.Algebra.Order.Floor.Div
import Mathlib.Data.List.ProdSigma

/-!
# Launches of cellwise programs

A launch runs the programs of a grid one after the other, in any order. A
program is *cellwise*: it changes every memory cell by a function of that
cell alone. A launch is then a fold at every cell, and its result does not
depend on the order as soon as the programs that touch a cell add to it
(`launch_add`) or only one program touches it (`launch_single`).

The second part is about tiled loops: the index ranges of tiles, of a
split reduction and of its masked remainder together are the range of the
plain loop (`sum_kLoop`).
-/

namespace Lib

open Finset

/-- Run the programs in the given order; `eff p c v` is what program `p` makes
of cell `c` with content `v`. -/
def launch {P ι R : Type} (eff : P → ι → R → R) (order : List P) (mem : ι → R) : ι → R :=
  order.foldl (fun m p c => eff p c (m c)) mem

section Launch

variable {P ι R : Type} {eff : P → ι → R → R} {c : ι}

theorem launch_cons (p : P) (order : List P) (mem : ι → R) :
    launch eff (p :: order) mem = launch eff order fun c => eff p c (mem c) := rfl

theorem launch_unchanged : ∀ {order : List P} {mem : ι → R},
    (∀ p ∈ order, ∀ v, eff p c v = v) → launch eff order mem c = mem c
  | [], _, _ => rfl
  | p :: order, mem, h => by
      rw [launch_cons, launch_unchanged fun q hq => h q (List.mem_cons_of_mem _ hq)]
      exact h p (List.mem_cons_self ..) (mem c)

/-- A launch reads of the memory, and of its programs, what they do at the cell. -/
theorem launch_congr {eff' : P → ι → R → R} : ∀ {order : List P} {mem mem' : ι → R},
    (∀ p ∈ order, ∀ v, eff p c v = eff' p c v) → mem c = mem' c →
    launch eff order mem c = launch eff' order mem' c
  | [], _, _, _, hmem => hmem
  | p :: order, mem, mem', h, hmem => by
      rw [launch_cons, launch_cons]
      refine launch_congr (fun q hq => h q (List.mem_cons_of_mem _ hq)) ?_
      rw [h p (List.mem_cons_self ..), hmem]

/-- A launch whose programs do at a cell what those of another launch do at another
one. -/
theorem launch_map {Q κ : Type} {eff' : Q → κ → R → R} (g : P → Q) (f : κ → ι) (c' : κ) :
    ∀ {order : List P} {mem : ι → R}, (∀ p ∈ order, ∀ v, eff p (f c') v = eff' (g p) c' v) →
    launch eff order mem (f c') = launch eff' (order.map g) (fun c => mem (f c)) c'
  | [], _, _ => rfl
  | p :: order, mem, h => by
      rw [launch_cons, launch_map g f c' fun q hq => h q (List.mem_cons_of_mem _ hq), List.map_cons,
        launch_cons]
      refine launch_congr (fun _ _ _ => rfl) ?_
      exact h p (List.mem_cons_self ..) _

/-- A program that overwrites the cell hides what the memory held. -/
theorem launch_overwritten {p : P} (h : ∀ v v', eff p c v = eff p c v') :
    ∀ {order : List P} (mem mem' : ι → R), p ∈ order →
    launch eff order mem c = launch eff order mem' c
  | [], _, _, hp => by cases hp
  | q :: order, mem, mem', hp => by
      rw [launch_cons, launch_cons]
      rcases List.mem_cons.mp hp with rfl | hp
      · exact launch_congr (fun _ _ _ => rfl) (h _ _)
      · exact launch_overwritten h _ _ hp

/-- One program touches the cell. -/
theorem launch_single {p : P} : ∀ {order : List P} {mem : ι → R}, order.Nodup → p ∈ order →
    (∀ q ∈ order, q ≠ p → ∀ v, eff q c v = v) → launch eff order mem c = eff p c (mem c)
  | [], _, _, hp, _ => by cases hp
  | q :: order, mem, hnd, hp, h => by
      obtain ⟨hnot, hnd'⟩ := List.nodup_cons.mp hnd
      rw [launch_cons]
      rcases List.mem_cons.mp hp with rfl | hp
      · refine launch_unchanged fun q' hq' => ?_
        exact h q' (List.mem_cons_of_mem _ hq') fun heq => hnot (heq ▸ hq')
      · have hq : q ≠ p := fun heq => hnot (heq ▸ hp)
        rw [launch_single hnd' hp fun q' hq' => h q' (List.mem_cons_of_mem _ hq'),
          h q (List.mem_cons_self ..) hq]

/-- The programs add to the cell. -/
theorem launch_add [AddCommMonoid R] {a : P → R} : ∀ {order : List P} {mem : ι → R},
    (∀ p ∈ order, ∀ v, eff p c v = v + a p) →
    launch eff order mem c = mem c + (order.map a).sum
  | [], mem, _ => by simp [launch]
  | p :: order, mem, h => by
      rw [launch_cons, launch_add fun q hq => h q (List.mem_cons_of_mem _ hq),
        h p (List.mem_cons_self ..), List.map_cons, List.sum_cons, add_assoc]

/-- A sum over distinct programs of which only `e 0, ..., e (m - 1)` contribute. -/
theorem sum_map_eq_sum_range [AddCommMonoid R] {order : List P} (hnd : order.Nodup) {m : ℕ}
    {e : ℕ → P} (he : ∀ z < m, e z ∈ order) (hinj : ∀ z < m, ∀ z' < m, e z = e z' → z = z')
    {a : P → R} (ha : ∀ p ∈ order, (∀ z < m, p ≠ e z) → a p = 0) :
    (order.map a).sum = ∑ z ∈ range m, a (e z) := by
  classical
  rw [← List.sum_toFinset a hnd]
  have himage : ∑ z ∈ range m, a (e z) = ∑ p ∈ (range m).image e, a p :=
    (Finset.sum_image fun z hz z' hz' h =>
      hinj z (mem_range.mp hz) z' (mem_range.mp hz') h).symm
  rw [himage]
  refine (Finset.sum_subset (fun p hp => ?_) fun p hp hnot => ?_).symm
  · obtain ⟨z, hz, rfl⟩ := mem_image.mp hp
    exact List.mem_toFinset.mpr (he z (mem_range.mp hz))
  · refine ha p (List.mem_toFinset.mp hp) fun z hz heq => hnot ?_
    exact mem_image.mpr ⟨z, mem_range.mpr hz, heq.symm⟩

end Launch

/-! ## Grids -/

/-- The program ids of a three-dimensional grid. -/
def grid (gx gy gz : ℕ) : List (ℕ × ℕ × ℕ) :=
  List.range gx ×ˢ (List.range gy ×ˢ List.range gz)

theorem mem_grid {gx gy gz : ℕ} {p : ℕ × ℕ × ℕ} :
    p ∈ grid gx gy gz ↔ p.1 < gx ∧ p.2.1 < gy ∧ p.2.2 < gz := by
  obtain ⟨x, y, z⟩ := p
  rw [grid, List.mem_product, List.mem_product, List.mem_range, List.mem_range, List.mem_range]

theorem nodup_grid (gx gy gz : ℕ) : (grid gx gy gz).Nodup :=
  List.nodup_range.product (List.nodup_range.product List.nodup_range)

/-! ## Tiles -/

/-- `cdiv(a, b)`. -/
def cdiv (a b : ℕ) : ℕ := (a + b - 1) / b

theorem cdiv_eq_ceilDiv (a b : ℕ) : cdiv a b = a ⌈/⌉ b := rfl

theorem lt_cdiv_iff {a b c : ℕ} (hb : 0 < b) : c < cdiv a b ↔ c * b < a := by
  rw [cdiv_eq_ceilDiv, ← not_le, ceilDiv_le_iff_le_mul hb, not_le, Nat.mul_comm]

theorem le_cdiv_mul {a b : ℕ} (hb : 0 < b) : a ≤ cdiv a b * b := by
  rw [← not_lt, ← lt_cdiv_iff hb]
  exact Nat.lt_irrefl _

/-- The tile and the offset of a position. -/
theorem tile_eq_iff {b q t : ℕ} (hb : 0 < b) : t * b ≤ q ∧ q < t * b + b ↔ t = q / b := by
  rw [eq_comm (a := t), Nat.div_eq_iff hb]
  omega

theorem mul_add_inj {b q q' r r' : ℕ} (hr : r < b) (hr' : r' < b)
    (h : q * b + r = q' * b + r') : q = q' ∧ r = r' := by
  have hb : 0 < b := by omega
  have hq : q = (q * b + r) / b := (tile_eq_iff hb).mp ⟨by omega, by omega⟩
  have hq' : q' = (q' * b + r') / b := (tile_eq_iff hb).mp ⟨by omega, by omega⟩
  obtain rfl : q = q' := by rw [hq, hq', h]
  exact ⟨rfl, by omega⟩

theorem mul_add_lt {b q r n : ℕ} (hq : q < n) (hr : r < b) : q * b + r < n * b := by
  have := Nat.mul_le_mul_right b hq
  rw [Nat.succ_mul] at this
  omega

/-- Larger tiles are not more. -/
theorem cdiv_le_cdiv {a b b' : ℕ} (hb : 0 < b) (h : b ≤ b') : cdiv a b' ≤ cdiv a b := by
  refine not_lt.mp fun hlt => ?_
  have hin := (lt_cdiv_iff (by omega)).mp hlt
  exact Nat.lt_irrefl _ ((lt_cdiv_iff hb).mpr ((Nat.mul_le_mul_left _ h).trans_lt hin))

/-- One program's share of a reduction over `range K`: for every `k` a block of
`BK` terms from `off + k * step` on, masked at the end of the range unless
`step` divides it. -/
def kLoop {R : Type} [AddCommMonoid R] (K step off BK : ℕ) (f : ℕ → R) : R :=
  ∑ k ∈ range (cdiv K step), ∑ kk ∈ range BK,
    if K % step = 0 ∨ off + kk < K - k * step then f (off + kk + k * step) else 0

section KLoop

variable {R : Type} [AddCommMonoid R]

theorem sum_range_mul (f : ℕ → R) (m : ℕ) : ∀ n,
    ∑ t ∈ range (n * m), f t = ∑ k ∈ range n, ∑ j ∈ range m, f (k * m + j)
  | 0 => by simp
  | n + 1 => by
      rw [Nat.add_mul, Nat.one_mul, sum_range_add, sum_range_mul f m n, sum_range_succ]

/-- `f` on `range K`, zero behind it. -/
def cutOff (K : ℕ) (f : ℕ → R) (t : ℕ) : R := if t < K then f t else 0

theorem sum_cutOff {K n : ℕ} (h : K ≤ n) (f : ℕ → R) :
    ∑ t ∈ range n, cutOff K f t = ∑ t ∈ range K, f t := by
  have hzero : ∀ t ∈ range n, t ∉ range K → cutOff K f t = 0 := fun t _ ht =>
    if_neg fun hlt => ht (mem_range.mpr hlt)
  rw [← sum_subset (range_mono h) hzero]
  exact sum_congr rfl fun t ht => if_pos (mem_range.mp ht)

/-- The mask of a share keeps exactly the terms of the range. -/
theorem mask_iff {K BK SK sk k kk : ℕ} (hstep : 0 < BK * SK) (hsk : sk < SK)
    (hk : k < cdiv K (BK * SK)) (hkk : kk < BK) :
    (K % (BK * SK) = 0 ∨ sk * BK + kk < K - k * (BK * SK))
      ↔ k * (BK * SK) + (sk * BK + kk) < K := by
  have hlt := (lt_cdiv_iff hstep).mp hk
  have hoff : sk * BK + kk < BK * SK := by
    have := Nat.mul_le_mul_right BK hsk
    rw [Nat.succ_mul, Nat.mul_comm SK BK] at this
    omega
  constructor
  · rintro (hdiv | hlt')
    · -- the range is a whole number of steps, so the block ends inside it
      obtain ⟨q, hq⟩ := Nat.dvd_of_mod_eq_zero hdiv
      have hkq : k < q := by
        rw [hq, Nat.mul_comm] at hlt
        exact Nat.lt_of_mul_lt_mul_left hlt
      have := Nat.mul_le_mul_left (BK * SK) hkq
      rw [Nat.mul_succ, ← hq, Nat.mul_comm] at this
      omega
    · omega
  · intro h
    exact Or.inr (by omega)

/-- One share as blocks of the whole range. -/
theorem kLoop_eq_sum_cutOff {K BK SK sk : ℕ} (hstep : 0 < BK * SK) (hsk : sk < SK)
    (f : ℕ → R) :
    kLoop K (BK * SK) (sk * BK) BK f
      = ∑ k ∈ range (cdiv K (BK * SK)), ∑ kk ∈ range BK,
          cutOff K f (k * (BK * SK) + (sk * BK + kk)) := by
  refine sum_congr rfl fun k hk => sum_congr rfl fun kk hkk => ?_
  have hiff := mask_iff hstep hsk (mem_range.mp hk) (mem_range.mp hkk)
  have hidx : k * (BK * SK) + (sk * BK + kk) = sk * BK + kk + k * (BK * SK) := Nat.add_comm ..
  simp only [cutOff, hiff, hidx]

/-- The shares of `SK` programs with blocks of `BK` terms are the whole
reduction. -/
theorem sum_kLoop {K BK SK : ℕ} (hBK : 0 < BK) (hSK : 0 < SK) (f : ℕ → R) :
    ∑ sk ∈ range SK, kLoop K (BK * SK) (sk * BK) BK f = ∑ t ∈ range K, f t := by
  have hstep : 0 < BK * SK := Nat.mul_pos hBK hSK
  have hblock : ∀ k, ∑ sk ∈ range SK, ∑ kk ∈ range BK, cutOff K f (k * (BK * SK) + (sk * BK + kk))
      = ∑ j ∈ range (BK * SK), cutOff K f (k * (BK * SK) + j) := by
    intro k
    rw [Nat.mul_comm BK SK, sum_range_mul (fun j => cutOff K f (k * (SK * BK) + j)) BK SK]
  calc ∑ sk ∈ range SK, kLoop K (BK * SK) (sk * BK) BK f
      = ∑ sk ∈ range SK, ∑ k ∈ range (cdiv K (BK * SK)), ∑ kk ∈ range BK,
          cutOff K f (k * (BK * SK) + (sk * BK + kk)) :=
        sum_congr rfl fun sk hsk => kLoop_eq_sum_cutOff hstep (mem_range.mp hsk) f
    _ = ∑ k ∈ range (cdiv K (BK * SK)), ∑ j ∈ range (BK * SK),
          cutOff K f (k * (BK * SK) + j) := by
        rw [sum_comm]
        exact sum_congr rfl fun k _ => hblock k
    _ = ∑ t ∈ range (cdiv K (BK * SK) * (BK * SK)), cutOff K f t :=
        (sum_range_mul (cutOff K f) (BK * SK) (cdiv K (BK * SK))).symm
    _ = ∑ t ∈ range K, f t := sum_cutOff (le_cdiv_mul hstep) f

/-- `SK` slices of whole blocks of `b` terms, cut off at the end of the range, are
the whole reduction. -/
theorem sum_slices {K SK b : ℕ} (hSK : 0 < SK) (hb : 0 < b) (f : ℕ → R) :
    ∑ s ∈ range SK, ∑ k ∈ range (cdiv (cdiv K SK) b), ∑ j ∈ range b,
        cutOff K f (s * (cdiv (cdiv K SK) b * b) + (k * b + j))
      = ∑ t ∈ range K, f t := by
  have hcover : K ≤ SK * (cdiv (cdiv K SK) b * b) := by
    have hslice : cdiv K SK ≤ cdiv (cdiv K SK) b * b := le_cdiv_mul hb
    have hwhole : K ≤ cdiv K SK * SK := le_cdiv_mul hSK
    rw [Nat.mul_comm SK]
    exact hwhole.trans (Nat.mul_le_mul_right SK hslice)
  have hblocks : ∀ s, ∑ k ∈ range (cdiv (cdiv K SK) b), ∑ j ∈ range b,
        cutOff K f (s * (cdiv (cdiv K SK) b * b) + (k * b + j))
      = ∑ j ∈ range (cdiv (cdiv K SK) b * b),
          cutOff K f (s * (cdiv (cdiv K SK) b * b) + j) := fun s =>
    (sum_range_mul (fun j => cutOff K f (s * (cdiv (cdiv K SK) b * b) + j)) b _).symm
  calc ∑ s ∈ range SK, ∑ k ∈ range (cdiv (cdiv K SK) b), ∑ j ∈ range b,
        cutOff K f (s * (cdiv (cdiv K SK) b * b) + (k * b + j))
      = ∑ s ∈ range SK, ∑ j ∈ range (cdiv (cdiv K SK) b * b),
          cutOff K f (s * (cdiv (cdiv K SK) b * b) + j) :=
        sum_congr rfl fun s _ => hblocks s
    _ = ∑ t ∈ range (SK * (cdiv (cdiv K SK) b * b)), cutOff K f t :=
        (sum_range_mul (cutOff K f) _ SK).symm
    _ = ∑ t ∈ range K, f t := sum_cutOff hcover f

end KLoop

end Lib
