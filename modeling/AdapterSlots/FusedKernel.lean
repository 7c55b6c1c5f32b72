import Mathlib.Algebra.BigOperators.Ring.Finset
import Mathlib.Algebra.Ring.Rat
import Mathlib.Tactic.Ring
import AdapterSlots.Lib.Dict
import AdapterSlots.Lib.LastArrival
import AdapterSlots.Lib.Launch

/-!
# The fused LoRA kernel

One launch computes `Y = X Wᵀ + alpha (X Aᵀ) Bᵀ`. Program `(n, s, m)` covers
one output tile and one slice of the inner dimension. With `SPLIT_K` above 1
the slices of a tile meet in a workspace, and the program that arrives last
at the tile's counter writes the tile out and leaves workspace and counter
zero for the next launch.

The arithmetic is exact; tensors are functions of their indices, and the
workspace, the counters and `Y` are memory. The programs of a launch
interleave freely: `Lib.SplitReduction` is the protocol, `splitReduction`
its instance. `sum_sliceAcc` says that the slices of a tile add up to the
result, the injectivity fields of `splitReduction` that tiles do not meet in
memory. `fused_launches_sound` composes the two over any number of launches.
-/

namespace AdapterSlots

open Lib Finset

namespace FusedLoRAKernel

/-- Block sizes; `_get_workspace` is called for the smallest ones. -/
structure FusedConfig where
  blockM : ℕ
  blockN : ℕ
  blockK : ℕ
  splitK : ℕ
  le_blockM : 16 ≤ blockM
  le_blockN : 32 ≤ blockN
  blockK_pos : 0 < blockK
  splitK_pos : 0 < splitK

/-- `X` is `M × K`, `W` is `N × K`, `A` is `R × K` and `B` is `N × R`. -/
structure FusedArgs (F : Type) where
  X : ℕ → ℕ → F
  W : ℕ → ℕ → F
  A : ℕ → ℕ → F
  B : ℕ → ℕ → F
  M : ℕ
  N : ℕ
  K : ℕ
  R : ℕ
  alpha : F

variable {F : Type} [CommSemiring F]

/-- `_fused_lora_cpu_reference`, one element. -/
def fusedLoraCpuReference (a : FusedArgs F) (m n : ℕ) : F :=
  let baseOut := ∑ k ∈ range a.K, a.X m k * a.W n k
  let h := fun r => ∑ k ∈ range a.K, a.X m k * a.A r k
  let loraOut := ∑ r ∈ range a.R, h r * a.B n r
  baseOut + a.alpha * loraOut

/-! ## One program -/

/-- `tl.dot(x, tl.trans(w), acc)` over `n` columns. -/
def dot (n : ℕ) (x w acc : ℕ → ℕ → F) : ℕ → ℕ → F := fun i j =>
  acc i j + ∑ kk ∈ range n, x i kk * w j kk

section Program

variable (a : FusedArgs F) (c : FusedConfig)

def offsM (c : FusedConfig) (pidM i : ℕ) : ℕ := pidM * c.blockM + i

def offsN (c : FusedConfig) (pidN j : ℕ) : ℕ := pidN * c.blockN + j

def kChunk : ℕ := cdiv (cdiv a.K c.splitK) c.blockK * c.blockK

def kLo (pidS : ℕ) : ℕ := pidS * kChunk a c

/-- `tl.load(x_ptrs, mask=m_mask & k_mask, other=0.0)`. -/
def loadX (pidM pidS k : ℕ) : ℕ → ℕ → F := fun i kk =>
  if offsM c pidM i < a.M ∧ kLo a c pidS + k + kk < a.K
  then a.X (offsM c pidM i) (kLo a c pidS + k + kk) else 0

def loadW (pidN pidS k : ℕ) : ℕ → ℕ → F := fun j kk =>
  if offsN c pidN j < a.N ∧ kLo a c pidS + k + kk < a.K
  then a.W (offsN c pidN j) (kLo a c pidS + k + kk) else 0

def loadA (pidS k : ℕ) : ℕ → ℕ → F := fun r kk =>
  if kLo a c pidS + k + kk < a.K then a.A r (kLo a c pidS + k + kk) else 0

def loadB (pidN : ℕ) : ℕ → ℕ → F := fun j r =>
  if offsN c pidN j < a.N then a.B (offsN c pidN j) r else 0

/-- `acc` and `h` after `n` rounds of the loop over the slice. -/
def kLoopAcc (pid : ℕ × ℕ × ℕ) (n : ℕ) : (ℕ → ℕ → F) × (ℕ → ℕ → F) :=
  (List.range n).foldl (fun r it =>
    let k := it * c.blockK
    let x := loadX a c pid.2.2 pid.2.1 k
    let w := loadW a c pid.1 pid.2.1 k
    let aT := loadA a c pid.2.1 k
    (dot c.blockK x w r.1, dot c.blockK x aT r.2)) (fun _ _ => 0, fun _ _ => 0)

/-- The accumulator of program `pid` when its slice is done, with the slice's share
of the LoRA term. -/
def sliceAcc (pid : ℕ × ℕ × ℕ) : ℕ → ℕ → F :=
  let r := kLoopAcc a c pid (cdiv (kChunk a c) c.blockK)
  dot a.R (fun i r' => r.2 i r' * a.alpha) (loadB a c pid.1) r.1

/-- `y_mask`: the elements of tile `(n, m)`. -/
def yMask (t : ℕ × ℕ) : Finset (ℕ × ℕ) :=
  {ij ∈ range c.blockM ×ˢ range c.blockN | offsM c t.2 ij.1 < a.M ∧ offsN c t.1 ij.2 < a.N}

def wsPtrs (t ij : ℕ × ℕ) : ℕ := offsM c t.2 ij.1 * a.N + offsN c t.1 ij.2

/-- `Y = torch.empty((M, N))`: its strides are `N` and 1. -/
def yPtrs (t ij : ℕ × ℕ) : ℕ := offsM c t.2 ij.1 * a.N + offsN c t.1 ij.2 * 1

/-- `pid_m * tl.num_programs(0) + pid_n`. -/
def cntPtr (t : ℕ × ℕ) : ℕ := t.2 * cdiv a.N c.blockN + t.1

def programs : Finset (ℕ × ℕ × ℕ) :=
  range (cdiv a.N c.blockN) ×ˢ range c.splitK ×ˢ range (cdiv a.M c.blockM)

end Program

/-! ## The slices of a tile -/

section Slices

variable {a : FusedArgs F} {c : FusedConfig} {pid : ℕ × ℕ × ℕ}

/-- The terms of slice `pidS` in a sum over the inner dimension. -/
def sliceSum (a : FusedArgs F) (c : FusedConfig) (pidS n : ℕ) (f : ℕ → F) : F :=
  ∑ it ∈ range n, ∑ kk ∈ range c.blockK, cutOff a.K f (pidS * kChunk a c + (it * c.blockK + kk))

theorem loadX_mul_loadW {i j k kk : ℕ} (hi : offsM c pid.2.2 i < a.M)
    (hj : offsN c pid.1 j < a.N) :
    loadX a c pid.2.2 pid.2.1 k i kk * loadW a c pid.1 pid.2.1 k j kk
      = cutOff a.K (fun t => a.X (offsM c pid.2.2 i) t * a.W (offsN c pid.1 j) t)
          (pid.2.1 * kChunk a c + (k + kk)) := by
  unfold loadX loadW cutOff kLo
  rw [← Nat.add_assoc]
  by_cases hk : pid.2.1 * kChunk a c + k + kk < a.K
  · rw [if_pos ⟨hi, hk⟩, if_pos ⟨hj, hk⟩, if_pos hk]
  · rw [if_neg fun h => hk h.2, if_neg hk, zero_mul]

theorem loadX_mul_loadA {i r k kk : ℕ} (hi : offsM c pid.2.2 i < a.M) :
    loadX a c pid.2.2 pid.2.1 k i kk * loadA a c pid.2.1 k r kk
      = cutOff a.K (fun t => a.X (offsM c pid.2.2 i) t * a.A r t)
          (pid.2.1 * kChunk a c + (k + kk)) := by
  unfold loadX loadA cutOff kLo
  rw [← Nat.add_assoc]
  by_cases hk : pid.2.1 * kChunk a c + k + kk < a.K
  · rw [if_pos ⟨hi, hk⟩, if_pos hk, if_pos hk]
  · rw [if_neg fun h => hk h.2, zero_mul, if_neg hk]

/-- The loop sums the slice, for the base product and for `H`. -/
theorem kLoopAcc_eq (pid : ℕ × ℕ × ℕ) {i : ℕ} (hi : offsM c pid.2.2 i < a.M) (n : ℕ) :
    (∀ j, offsN c pid.1 j < a.N → (kLoopAcc a c pid n).1 i j
      = sliceSum a c pid.2.1 n fun t => a.X (offsM c pid.2.2 i) t * a.W (offsN c pid.1 j) t)
    ∧ ∀ r, (kLoopAcc a c pid n).2 i r
      = sliceSum a c pid.2.1 n fun t => a.X (offsM c pid.2.2 i) t * a.A r t := by
  induction n with
  | zero => exact ⟨fun _ _ => rfl, fun _ => rfl⟩
  | succ n ih =>
      have hstep : kLoopAcc a c pid (n + 1)
          = (dot c.blockK (loadX a c pid.2.2 pid.2.1 (n * c.blockK))
              (loadW a c pid.1 pid.2.1 (n * c.blockK)) (kLoopAcc a c pid n).1,
            dot c.blockK (loadX a c pid.2.2 pid.2.1 (n * c.blockK))
              (loadA a c pid.2.1 (n * c.blockK)) (kLoopAcc a c pid n).2) := by
        unfold kLoopAcc
        rw [List.range_succ, List.foldl_append]
        rfl
      constructor
      · intro j hj
        rw [hstep, sliceSum, sum_range_succ, ← sliceSum, ← ih.1 j hj]
        exact congrArg (_ + ·) (sum_congr rfl fun kk _ => loadX_mul_loadW hi hj)
      · intro r
        rw [hstep, sliceSum, sum_range_succ, ← sliceSum, ← ih.2 r]
        exact congrArg (_ + ·) (sum_congr rfl fun kk _ => loadX_mul_loadA hi)

omit [CommSemiring F] in
theorem cdiv_kChunk (a : FusedArgs F) (c : FusedConfig) :
    cdiv (kChunk a c) c.blockK = cdiv (cdiv a.K c.splitK) c.blockK := by
  refine le_antisymm (not_lt.mp fun h => ?_) (not_lt.mp fun h => ?_)
  · exact Nat.lt_irrefl _ ((lt_cdiv_iff c.blockK_pos).mp h)
  · have := le_cdiv_mul (a := kChunk a c) c.blockK_pos
    exact Nat.not_lt.mpr this (Nat.mul_lt_mul_of_pos_right h c.blockK_pos)

/-- The slices cover the inner dimension. -/
theorem sum_sliceSum (f : ℕ → F) :
    ∑ pidS ∈ range c.splitK, sliceSum a c pidS (cdiv (kChunk a c) c.blockK) f
      = ∑ k ∈ range a.K, f k := by
  rw [cdiv_kChunk]
  exact sum_slices c.splitK_pos c.blockK_pos f

/-- The slices of a tile add up to the result. -/
theorem sum_sliceAcc {t ij : ℕ × ℕ} (hij : ij ∈ yMask a c t) :
    ∑ pidS ∈ range c.splitK, sliceAcc a c (t.1, pidS, t.2) ij.1 ij.2
      = fusedLoraCpuReference a (offsM c t.2 ij.1) (offsN c t.1 ij.2) := by
  obtain ⟨-, hi, hj⟩ := mem_filter.mp hij
  have hslice : ∀ pidS, sliceAcc a c (t.1, pidS, t.2) ij.1 ij.2
      = sliceSum a c pidS (cdiv (kChunk a c) c.blockK)
          (fun k => a.X (offsM c t.2 ij.1) k * a.W (offsN c t.1 ij.2) k)
        + ∑ r ∈ range a.R, a.alpha * (sliceSum a c pidS (cdiv (kChunk a c) c.blockK)
          (fun k => a.X (offsM c t.2 ij.1) k * a.A r k) * a.B (offsN c t.1 ij.2) r) := by
    intro pidS
    obtain ⟨hacc, hh⟩ := kLoopAcc_eq (t.1, pidS, t.2) hi (cdiv (kChunk a c) c.blockK)
    unfold sliceAcc dot
    simp only [hacc _ hj, hh]
    refine congrArg (_ + ·) (sum_congr rfl fun r _ => ?_)
    rw [loadB, if_pos hj]
    ring
  calc ∑ pidS ∈ range c.splitK, sliceAcc a c (t.1, pidS, t.2) ij.1 ij.2
      = ∑ k ∈ range a.K, a.X (offsM c t.2 ij.1) k * a.W (offsN c t.1 ij.2) k
          + ∑ r ∈ range a.R, a.alpha * ((∑ k ∈ range a.K, a.X (offsM c t.2 ij.1) k * a.A r k)
            * a.B (offsN c t.1 ij.2) r) := by
        simp only [hslice]
        rw [sum_add_distrib, sum_sliceSum, sum_comm]
        refine congrArg (_ + ·) (sum_congr rfl fun r _ => ?_)
        rw [← mul_sum, ← sum_mul, sum_sliceSum]
    _ = fusedLoraCpuReference a (offsM c t.2 ij.1) (offsN c t.1 ij.2) := by
        simp only [fusedLoraCpuReference]
        rw [mul_sum]

end Slices

/-! ## Tiles in memory -/

section Tiles

variable {a : FusedArgs F} {c : FusedConfig} {t t' ij ij' : ℕ × ℕ}

/-- The tiles of a launch, `(pid_n, pid_m)`. -/
def tiles (a : FusedArgs F) (c : FusedConfig) : Finset (ℕ × ℕ) :=
  range (cdiv a.N c.blockN) ×ˢ range (cdiv a.M c.blockM)

def tileOf (pid : ℕ × ℕ × ℕ) : ℕ × ℕ := (pid.1, pid.2.2)

omit [CommSemiring F] in
theorem tileOf_mem {pid : ℕ × ℕ × ℕ} (hpid : pid ∈ programs a c) : tileOf pid ∈ tiles a c := by
  obtain ⟨hn, hsm⟩ := mem_product.mp hpid
  exact mem_product.mpr ⟨hn, (mem_product.mp hsm).2⟩

omit [CommSemiring F] in
/-- The programs of a tile are its slices. -/
theorem filter_tileOf (ht : t ∈ tiles a c) :
    {pid ∈ programs a c | tileOf pid = t}
      = (range c.splitK).image fun pidS => (t.1, pidS, t.2) := by
  obtain ⟨hn, hm⟩ := mem_product.mp ht
  ext ⟨pidN, pidS, pidM⟩
  rw [mem_filter, programs, mem_product, mem_product, mem_image]
  simp only [tileOf, Prod.mk.injEq]
  constructor
  · rintro ⟨⟨-, hs, -⟩, rfl⟩
    exact ⟨pidS, hs, rfl, rfl, rfl⟩
  · rintro ⟨s, hs, rfl, rfl, rfl⟩
    exact ⟨⟨hn, hs, hm⟩, rfl⟩

theorem slice_injective (t : ℕ × ℕ) :
    Function.Injective fun pidS : ℕ => (t.1, pidS, t.2) := fun _ _ h =>
  (Prod.mk.inj (Prod.mk.inj h).2).1

omit [CommSemiring F] in
/-- Tiles do not overlap. -/
theorem offs_inj (hij : ij ∈ yMask a c t) (hij' : ij' ∈ yMask a c t')
    (hm : offsM c t.2 ij.1 = offsM c t'.2 ij'.1) (hn : offsN c t.1 ij.2 = offsN c t'.1 ij'.2) :
    t = t' ∧ ij = ij' := by
  obtain ⟨hin, -⟩ := mem_filter.mp hij
  obtain ⟨hin', -⟩ := mem_filter.mp hij'
  rw [mem_product, mem_range, mem_range] at hin hin'
  obtain ⟨htm, hi⟩ := mul_add_inj hin.1 hin'.1 hm
  obtain ⟨htn, hj⟩ := mul_add_inj hin.2 hin'.2 hn
  exact ⟨Prod.ext htn htm, Prod.ext hi hj⟩

omit [CommSemiring F] in
theorem wsPtrs_inj (hij : ij ∈ yMask a c t) (hij' : ij' ∈ yMask a c t')
    (h : wsPtrs a c t ij = wsPtrs a c t' ij') : t = t' ∧ ij = ij' := by
  obtain ⟨-, -, hn⟩ := mem_filter.mp hij
  obtain ⟨-, -, hn'⟩ := mem_filter.mp hij'
  obtain ⟨hm, hn⟩ := mul_add_inj hn hn' h
  exact offs_inj hij hij' hm hn

omit [CommSemiring F] in
theorem yPtrs_eq_wsPtrs : yPtrs a c t ij = wsPtrs a c t ij := by
  rw [yPtrs, wsPtrs, Nat.mul_one]

omit [CommSemiring F] in
theorem wsPtrs_lt (hij : ij ∈ yMask a c t) : wsPtrs a c t ij < a.M * a.N := by
  obtain ⟨-, hm, hn⟩ := mem_filter.mp hij
  exact mul_add_lt hm hn

omit [CommSemiring F] in
theorem cntPtr_inj (ht : t ∈ tiles a c) (ht' : t' ∈ tiles a c)
    (h : cntPtr a c t = cntPtr a c t') : t = t' := by
  obtain ⟨hm, hn⟩ := mul_add_inj (mem_range.mp (mem_product.mp ht).1)
    (mem_range.mp (mem_product.mp ht').1) h
  exact Prod.ext hn hm

omit [CommSemiring F] in
/-- The counters are sized for the smallest tiles. -/
theorem cntPtr_lt (ht : t ∈ tiles a c) : cntPtr a c t < cdiv a.M 16 * cdiv a.N 32 := by
  obtain ⟨hn, hm⟩ := mem_product.mp ht
  have hM : cdiv a.M c.blockM ≤ cdiv a.M 16 := cdiv_le_cdiv (by omega) c.le_blockM
  have hN : cdiv a.N c.blockN ≤ cdiv a.N 32 := cdiv_le_cdiv (by omega) c.le_blockN
  exact (mul_add_lt (mem_range.mp hm) (mem_range.mp hn)).trans_le (Nat.mul_le_mul hM hN)

omit [CommSemiring F] in
/-- Every element of `Y` is in a tile. -/
theorem exists_tile {m n : ℕ} (hm : m < a.M) (hn : n < a.N) :
    ∃ t ∈ tiles a c, ∃ ij ∈ yMask a c t, offsM c t.2 ij.1 = m ∧ offsN c t.1 ij.2 = n := by
  have hbM : 0 < c.blockM := Nat.lt_of_lt_of_le (by decide) c.le_blockM
  have hbN : 0 < c.blockN := Nat.lt_of_lt_of_le (by decide) c.le_blockN
  have hoffM : offsM c (m / c.blockM) (m % c.blockM) = m := Nat.div_add_mod' m c.blockM
  have hoffN : offsN c (n / c.blockN) (n % c.blockN) = n := Nat.div_add_mod' n c.blockN
  refine ⟨(n / c.blockN, m / c.blockM), mem_product.mpr ⟨?_, ?_⟩, (m % c.blockM, n % c.blockN),
    mem_filter.mpr ⟨mem_product.mpr ⟨?_, ?_⟩, ?_, ?_⟩, hoffM, hoffN⟩
  · rw [mem_range, lt_cdiv_iff hbN]
    exact (Nat.div_mul_le_self ..).trans_lt hn
  · rw [mem_range, lt_cdiv_iff hbM]
    exact (Nat.div_mul_le_self ..).trans_lt hm
  · exact mem_range.mpr (Nat.mod_lt _ hbM)
  · exact mem_range.mpr (Nat.mod_lt _ hbN)
  · rw [hoffM]
    exact hm
  · rw [hoffN]
    exact hn

omit [CommSemiring F] in
theorem yMask_nonempty (ht : t ∈ tiles a c) : (yMask a c t).Nonempty := by
  have hbM : 0 < c.blockM := Nat.lt_of_lt_of_le (by decide) c.le_blockM
  have hbN : 0 < c.blockN := Nat.lt_of_lt_of_le (by decide) c.le_blockN
  obtain ⟨hn, hm⟩ := mem_product.mp ht
  exact ⟨(0, 0), mem_filter.mpr ⟨mem_product.mpr ⟨mem_range.mpr hbM, mem_range.mpr hbN⟩,
    (lt_cdiv_iff hbM).mp (mem_range.mp hm), (lt_cdiv_iff hbN).mp (mem_range.mp hn)⟩⟩

/-- The split-K part of the kernel. -/
def splitReduction (a : FusedArgs F) (c : FusedConfig) :
    SplitReduction (ℕ × ℕ × ℕ) (ℕ × ℕ) (ℕ × ℕ) ℕ F where
  parties := programs a c
  tile := tileOf
  parts := c.splitK
  cells := yMask a c
  wsAddr := wsPtrs a c
  outAddr := yPtrs a c
  cntAddr := cntPtr a c
  acc pid ij := sliceAcc a c pid ij.1 ij.2
  card_tile pid hpid := by
    rw [filter_tileOf (tileOf_mem hpid), card_image_of_injective _ (slice_injective _), card_range]
  wsAddr_inj _ _ _ _ _ hij _ hij' h := wsPtrs_inj hij hij' h
  outAddr_inj _ _ _ _ _ hij _ hij' h := by
    rw [yPtrs_eq_wsPtrs, yPtrs_eq_wsPtrs] at h
    exact wsPtrs_inj hij hij' h
  cntAddr_inj _ hpid _ hpid' h := cntPtr_inj (tileOf_mem hpid) (tileOf_mem hpid') h

/-- The shares of a tile are its slices. -/
theorem total_splitReduction (ht : t ∈ tiles a c) (hij : ij ∈ yMask a c t) :
    (splitReduction a c).total t ij
      = fusedLoraCpuReference a (offsM c t.2 ij.1) (offsN c t.1 ij.2) := by
  rw [← sum_sliceAcc hij, SplitReduction.total]
  have hmembers : (splitReduction a c).members t
      = (range c.splitK).image fun pidS => (t.1, pidS, t.2) := filter_tileOf ht
  rw [hmembers, sum_image (slice_injective t).injOn]
  rfl

end Tiles

/-! ## Launches -/

/-- The scratch of a device: `ws` and `cnt` with their `numel()`. -/
structure Scratch (F : Type) where
  ws : ℕ → F
  wsNumel : ℕ
  cnt : ℕ → ℕ
  cntNumel : ℕ

def Scratch.Clean (sc : Scratch F) : Prop :=
  (∀ x < sc.wsNumel, sc.ws x = 0) ∧ ∀ x < sc.cntNumel, sc.cnt x = 0

/-- One store to `Y`: the program and the element of its tile. -/
abbrev YStore := (ℕ × ℕ × ℕ) × (ℕ × ℕ)

/-- One memory access of one program. -/
abbrev KernelEvent (F : Type) :=
  Event (SplitReduction.ReductionState (ℕ × ℕ × ℕ) (ℕ × ℕ) ℕ F)
    ((ℕ × ℕ × ℕ) × SplitReduction.Action (ℕ × ℕ)) Unit

/-- The stores to `Y` in a run. -/
def yStores (tr : List (KernelEvent F)) : List YStore :=
  tr.filterMap fun e =>
    match e.label with
    | (pid, .store ij) => some (pid, ij)
    | _ => none

/-- Without split-K every program stores its accumulator. -/
def storeAcc (a : FusedArgs F) (c : FusedConfig) (y : ℕ → F) (st : YStore) : ℕ → F :=
  Function.update y (yPtrs a c (tileOf st.1) st.2) (sliceAcc a c st.1 st.2.1 st.2.2)

/-- A finished launch: the stores to `Y` in their order, what `Y` holds then, and the
scratch. -/
inductive LaunchRun (a : FusedArgs F) (c : FusedConfig) (sc : Scratch F) (y₀ : ℕ → F) :
    List YStore → (ℕ → F) → Scratch F → Prop
  | direct (hsplit : c.splitK = 1) {stores : List YStore} (hnodup : stores.Nodup)
      (hmem : ∀ pid ij, (pid, ij) ∈ stores ↔ pid ∈ programs a c ∧ ij ∈ yMask a c (tileOf pid)) :
      LaunchRun a c sc y₀ stores (stores.foldl (storeAcc a c) y₀) sc
  | split (hsplit : c.splitK ≠ 1) {tr s}
      (hrun : Exec (splitReduction a c).Step (SplitReduction.start sc.ws sc.cnt y₀) tr s)
      (hend : (splitReduction a c).Complete s) :
      LaunchRun a c sc y₀ (yStores tr) s.out { sc with ws := s.ws, cnt := s.cnt }

/-- `_forward_triton` asks for this much scratch. -/
def Scratch.Fits (sc : Scratch F) (a : FusedArgs F) : Prop :=
  a.M * a.N ≤ sc.wsNumel ∧ cdiv a.M 16 * cdiv a.N 32 ≤ sc.cntNumel

/-- What a launch does: one program stores a tile, `Y` is the result, and the
scratch is zero again. It is not touched beyond what was asked for. -/
structure LaunchSound (a : FusedArgs F) (c : FusedConfig) (sc : Scratch F) (y₀ : ℕ → F)
    (stores : List YStore) (y : ℕ → F) (sc' : Scratch F) : Prop where
  storer : ∀ t ∈ tiles a c, ∃! pid, (pid ∈ programs a c ∧ tileOf pid = t)
    ∧ ∃ ij, (pid, ij) ∈ stores
  result : ∀ m < a.M, ∀ n < a.N, y (m * a.N + n) = fusedLoraCpuReference a m n
  yFrame : ∀ x, a.M * a.N ≤ x → y x = y₀ x
  clean : sc'.Clean
  restored : sc' = sc

section Launch

variable {a : FusedArgs F} {c : FusedConfig} {sc sc' : Scratch F} {y y₀ : ℕ → F}
  {stores : List YStore}

omit [CommSemiring F] in
theorem mem_yStores {tr : List (KernelEvent F)} {pid : ℕ × ℕ × ℕ} {ij : ℕ × ℕ} :
    (pid, ij) ∈ yStores tr ↔ ∃ e ∈ tr, e.label = (pid, .store ij) := by
  rw [yStores, List.mem_filterMap]
  refine exists_congr fun e => and_congr_right fun _ => ?_
  rcases e.label with ⟨pid', act⟩
  cases act <;> simp [Prod.ext_iff]

theorem clean_of_scratch (hclean : sc.Clean) (hfit : sc.Fits a) :
    (splitReduction a c).Clean sc.ws sc.cnt := fun _ hpid =>
  ⟨hclean.2 _ ((cntPtr_lt (tileOf_mem hpid)).trans_le hfit.2), fun _ hij =>
    hclean.1 _ ((wsPtrs_lt hij).trans_le hfit.1)⟩

omit [CommSemiring F] in
/-- Every tile has a program. -/
theorem exists_program {t : ℕ × ℕ} (ht : t ∈ tiles a c) :
    ∃ pid ∈ programs a c, tileOf pid = t := by
  obtain ⟨hn, hm⟩ := mem_product.mp ht
  exact ⟨(t.1, 0, t.2), mem_product.mpr ⟨hn, mem_product.mpr
    ⟨mem_range.mpr c.splitK_pos, hm⟩⟩, rfl⟩

theorem LaunchSound.of_split {tr : List (KernelEvent F)} {s}
    (hrun : Exec (splitReduction a c).Step (SplitReduction.start sc.ws sc.cnt y₀) tr s)
    (hend : (splitReduction a c).Complete s) (hclean : sc.Clean) (hfit : sc.Fits a) :
    LaunchSound a c sc y₀ (yStores tr) s.out { sc with ws := s.ws, cnt := s.cnt } := by
  have hstart := clean_of_scratch (c := c) hclean hfit
  obtain ⟨hws, hcnt⟩ := SplitReduction.scratch_complete hrun hstart hend
  constructor
  · intro t ht
    obtain ⟨pid, hpid, rfl⟩ := exists_program ht
    obtain ⟨q, ⟨hq, e, he, ij, hlabel⟩, huniq⟩ :=
      SplitReduction.existsUnique_store hrun hstart hend hpid (yMask_nonempty ht)
    refine ⟨q, ⟨SplitReduction.mem_members.mp hq, ij, mem_yStores.mpr ⟨e, he, hlabel⟩⟩, ?_⟩
    rintro r ⟨hr, ij', hst⟩
    obtain ⟨e', he', hlabel'⟩ := mem_yStores.mp hst
    exact huniq r ⟨SplitReduction.mem_members.mpr hr, e', he', ij', hlabel'⟩
  · intro m hm n hn
    obtain ⟨t, ht, ij, hij, rfl, rfl⟩ := exists_tile (c := c) hm hn
    obtain ⟨pid, hpid, rfl⟩ := exists_program ht
    refine Eq.trans ?_ (total_splitReduction ht hij)
    exact (congrArg s.out yPtrs_eq_wsPtrs.symm).trans
      (SplitReduction.out_complete hrun hstart hend hpid hij)
  · intro x hx
    refine SplitReduction.exec_frame (fun s => s.out x) (fun _ _ _ _ hstep => hstep.out_frame
      fun ij hij => ?_) hrun
    have hlt := wsPtrs_lt hij
    intro heq
    exact Nat.lt_irrefl _ ((heq.trans yPtrs_eq_wsPtrs ▸ hlt).trans_le hx)
  · rw [hws, hcnt]
    exact hclean
  · rw [hws, hcnt]

/-! ### Without split-K -/

theorem foldl_storeAcc_of_notMem {x : ℕ} (y : ℕ → F)
    (h : ∀ st ∈ stores, yPtrs a c (tileOf st.1) st.2 ≠ x) :
    stores.foldl (storeAcc a c) y x = y x := by
  induction stores generalizing y with
  | nil => rfl
  | cons st stores ih =>
      rw [List.foldl_cons, ih _ fun st' hst' => h st' (List.mem_cons_of_mem _ hst')]
      exact Function.update_of_ne (h st (List.mem_cons_self ..)).symm _ _

/-- All stores to an element write the same value. -/
theorem foldl_storeAcc_of_mem {x : ℕ} {v : F} (y : ℕ → F)
    (hv : ∀ st ∈ stores, yPtrs a c (tileOf st.1) st.2 = x → sliceAcc a c st.1 st.2.1 st.2.2 = v)
    (hex : ∃ st ∈ stores, yPtrs a c (tileOf st.1) st.2 = x) :
    stores.foldl (storeAcc a c) y x = v := by
  induction stores generalizing y with
  | nil => obtain ⟨st, hst, -⟩ := hex; cases hst
  | cons st stores ih =>
      rw [List.foldl_cons]
      by_cases hlater : ∃ st' ∈ stores, yPtrs a c (tileOf st'.1) st'.2 = x
      · exact ih _ (fun st' hst' => hv st' (List.mem_cons_of_mem _ hst')) hlater
      · have hx : yPtrs a c (tileOf st.1) st.2 = x := by
          obtain ⟨st', hst', hx⟩ := hex
          rcases List.mem_cons.mp hst' with rfl | hst'
          · exact hx
          · exact absurd ⟨st', hst', hx⟩ hlater
        rw [foldl_storeAcc_of_notMem _ fun st' hst' hx' => hlater ⟨st', hst', hx'⟩, storeAcc, hx,
          Function.update_self]
        exact hv st (List.mem_cons_self ..) hx

omit [CommSemiring F] in
/-- Without split-K a tile has one program. -/
theorem program_eq (hsplit : c.splitK = 1) {pid : ℕ × ℕ × ℕ} (hpid : pid ∈ programs a c) :
    pid = ((tileOf pid).1, 0, (tileOf pid).2) := by
  obtain ⟨-, hsm⟩ := mem_product.mp hpid
  have hs := mem_range.mp (mem_product.mp hsm).1
  rw [hsplit, Nat.lt_one_iff] at hs
  exact Prod.ext rfl (Prod.ext hs rfl)

theorem LaunchSound.of_direct (hsplit : c.splitK = 1)
    (hmem : ∀ pid ij, (pid, ij) ∈ stores ↔ pid ∈ programs a c ∧ ij ∈ yMask a c (tileOf pid))
    (hclean : sc.Clean) :
    LaunchSound a c sc y₀ stores (stores.foldl (storeAcc a c) y₀) sc := by
  constructor
  · intro t ht
    obtain ⟨pid, hpid, rfl⟩ := exists_program ht
    obtain ⟨ij, hij⟩ := yMask_nonempty ht
    refine ⟨pid, ⟨⟨hpid, rfl⟩, ij, (hmem pid ij).mpr ⟨hpid, hij⟩⟩, ?_⟩
    rintro r ⟨⟨hr, htile⟩, -⟩
    rw [program_eq hsplit hr, htile, ← program_eq hsplit hpid]
  · intro m hm n hn
    obtain ⟨t, ht, ij, hij, rfl, rfl⟩ := exists_tile (c := c) hm hn
    obtain ⟨pid, hpid, rfl⟩ := exists_program ht
    refine foldl_storeAcc_of_mem y₀ (fun st hst hx => ?_)
      ⟨(pid, ij), (hmem pid ij).mpr ⟨hpid, hij⟩, yPtrs_eq_wsPtrs⟩
    obtain ⟨hpid', hij'⟩ := (hmem st.1 st.2).mp hst
    rw [yPtrs_eq_wsPtrs] at hx
    obtain ⟨htile, heq⟩ := wsPtrs_inj hij' hij hx
    have hsum := sum_sliceAcc hij
    rw [hsplit, sum_range_one] at hsum
    rw [program_eq hsplit hpid', htile, heq]
    exact hsum
  · intro x hx
    refine foldl_storeAcc_of_notMem y₀ fun st hst => ?_
    have hlt := wsPtrs_lt ((hmem st.1 st.2).mp hst).2
    rw [yPtrs_eq_wsPtrs]
    omega
  · exact hclean
  · rfl

theorem LaunchRun.sound (h : LaunchRun a c sc y₀ stores y sc') (hclean : sc.Clean)
    (hfit : sc.Fits a) : LaunchSound a c sc y₀ stores y sc' := by
  cases h with
  | direct hsplit _ hmem => exact .of_direct hsplit hmem hclean
  | split _ hrun hend => exact .of_split hrun hend hclean hfit

/-- Every launch can finish. -/
theorem exists_launchRun (a : FusedArgs F) (c : FusedConfig) (sc : Scratch F) (y₀ : ℕ → F) :
    ∃ stores y sc', LaunchRun a c sc y₀ stores y sc' := by
  by_cases hsplit : c.splitK = 1
  · have hmem : ∀ pid ij, (pid, ij) ∈ ({st ∈ programs a c ×ˢ (range c.blockM ×ˢ range c.blockN) |
          st.2 ∈ yMask a c (tileOf st.1)} : Finset YStore).toList
        ↔ pid ∈ programs a c ∧ ij ∈ yMask a c (tileOf pid) := by
      intro pid ij
      rw [mem_toList, mem_filter, mem_product]
      exact ⟨fun h => ⟨h.1.1, h.2⟩, fun h => ⟨⟨h.1, (mem_filter.mp h.2).1⟩, h.2⟩⟩
    exact ⟨_, _, _, .direct hsplit (nodup_toList _) hmem⟩
  · obtain ⟨tr, s, hrun, hend⟩ := SplitReduction.exists_complete (splitReduction a c)
      (SplitReduction.start sc.ws sc.cnt y₀)
    exact ⟨_, _, _, .split hsplit hrun hend⟩

end Launch

/-! ## Launches on one scratch -/

/-- A launch with what the new tensor `Y` holds at first. -/
structure FusedLaunch (F : Type) where
  args : FusedArgs F
  config : FusedConfig
  y : ℕ → F

/-- The output of a launch are its stores to `Y` and what `Y` holds then. -/
def LaunchStep (sc : Scratch F) (l : FusedLaunch F) (out : List YStore × (ℕ → F))
    (sc' : Scratch F) : Prop :=
  LaunchRun l.args l.config sc l.y out.1 out.2 sc'

/-- The programs of a split-K launch cannot go on for ever, and however far they are, they
can finish. -/
def Ends (a : FusedArgs F) (c : FusedConfig) (sc : Scratch F) (y₀ : ℕ → F) : Prop :=
  ∀ tr s, Exec (splitReduction a c).Step (SplitReduction.start sc.ws sc.cnt y₀) tr s →
    tr.length ≤ (splitReduction a c).totalWork (SplitReduction.start sc.ws sc.cnt y₀)
      ∧ ∃ tr' s', Exec (splitReduction a c).Step s tr' s' ∧ (splitReduction a c).Complete s'

section Launches

variable {sc sc' : Scratch F}
  {tr : List (Event (Scratch F) (FusedLaunch F) (List YStore × (ℕ → F)))}

theorem ends_of_launch (a : FusedArgs F) (c : FusedConfig) (sc : Scratch F) (y₀ : ℕ → F) :
    Ends a c sc y₀ := by
  intro tr s hrun
  have hle := SplitReduction.length_add_totalWork_le hrun
  exact ⟨by omega, SplitReduction.exists_complete _ s⟩

theorem scratch_restored (h : Exec LaunchStep sc tr sc') (hclean : sc.Clean)
    (hfit : ∀ e ∈ tr, sc.Fits e.label.args) : sc' = sc ∧ ∀ e ∈ tr, e.pre = sc ∧ e.post = sc := by
  refine h.invariant (· = sc) (fun _ l => sc.Fits l.args) ?_ rfl hfit
  rintro _ l out sc₁ rfl hfit hstep
  exact (LaunchRun.sound hstep hclean hfit).restored

/-- **Fused kernel.** On a scratch that is zero and large enough, every launch
ends, computes its result with one program storing each tile, and leaves the
scratch zero, for any number of launches of any shapes. -/
theorem fused_launches_sound (h : Exec LaunchStep sc tr sc') (hclean : sc.Clean)
    (hfit : ∀ e ∈ tr, sc.Fits e.label.args) :
    (∀ e ∈ tr, Ends e.label.args e.label.config e.pre e.label.y
        ∧ LaunchSound e.label.args e.label.config e.pre e.label.y e.out.1 e.out.2 e.post)
      ∧ sc'.Clean := by
  obtain ⟨rfl, hall⟩ := scratch_restored h hclean hfit
  refine ⟨fun e he => ⟨ends_of_launch _ _ _ _, ?_⟩, hclean⟩
  obtain ⟨hpre, -⟩ := hall e he
  rw [← hpre] at hclean hfit
  exact LaunchRun.sound (h.step_of_mem e he) hclean (hfit e he)

/-- A scratch with room for 17 rows of 33 elements. -/
def smallScratch : Scratch ℚ := ⟨fun _ => 0, 561, fun _ => 0, 4⟩

/-- One element, then 17 rows of 33; all but the first slice are empty. -/
def oneElement : FusedLaunch ℚ :=
  ⟨⟨fun _ _ => 2, fun _ _ => 3, fun _ _ => 5, fun _ _ => 7, 1, 1, 1, 1, 11⟩,
    ⟨16, 32, 64, 2, by decide, by decide, by decide, Nat.two_pos⟩, fun _ => 0⟩

def fourTiles : FusedLaunch ℚ :=
  ⟨⟨fun _ _ => 2, fun _ _ => 3, fun _ _ => 5, fun _ _ => 7, 17, 33, 40, 2, 11⟩,
    ⟨16, 32, 64, 3, by decide, by decide, by decide, by decide⟩, fun _ => 0⟩

/-- Two launches of different shapes. -/
theorem oneElement_then_fourTiles :
    ∃ tr sc', Exec LaunchStep smallScratch tr sc' ∧ tr.map Event.label = [oneElement, fourTiles]
      ∧ (∀ e ∈ tr, Ends e.label.args e.label.config e.pre e.label.y
        ∧ LaunchSound e.label.args e.label.config e.pre e.label.y e.out.1 e.out.2 e.post)
      ∧ sc'.Clean := by
  obtain ⟨stores₁, y₁, sc₁, h₁⟩ := exists_launchRun oneElement.args oneElement.config smallScratch
    oneElement.y
  obtain ⟨stores₂, y₂, sc₂, h₂⟩ := exists_launchRun fourTiles.args fourTiles.config sc₁ fourTiles.y
  have hrun : Exec LaunchStep smallScratch
      [⟨smallScratch, oneElement, (stores₁, y₁), sc₁⟩, ⟨sc₁, fourTiles, (stores₂, y₂), sc₂⟩] sc₂ :=
    .cons h₁ (.single h₂)
  have hone : smallScratch.Fits oneElement.args := ⟨by decide, by decide⟩
  have hfour : smallScratch.Fits fourTiles.args := ⟨by decide, by decide⟩
  refine ⟨_, sc₂, hrun, rfl, fused_launches_sound hrun ⟨fun _ _ => rfl, fun _ _ => rfl⟩
    fun e he => ?_⟩
  rcases List.mem_cons.mp he with rfl | he
  · exact hone
  · obtain rfl := List.mem_singleton.mp he
    exact hfour

end Launches

/-! ## The scratch of a device -/

section Forward

variable {δ : Type} [DecidableEq δ]

/-- `_get_workspace`; what is missing or too small is allocated anew. -/
def getWorkspace (old : Option (Scratch F)) (nWs nCnt : ℕ) : Scratch F :=
  let ws : (ℕ → F) × ℕ :=
    match old with
    | some sc => if sc.wsNumel < nWs then (fun _ => 0, max nWs (1 <<< 20)) else (sc.ws, sc.wsNumel)
    | none => (fun _ => 0, max nWs (1 <<< 20))
  let cnt : (ℕ → ℕ) × ℕ :=
    match old with
    | some sc => if sc.cntNumel < nCnt then (fun _ => 0, max nCnt 4096) else (sc.cnt, sc.cntNumel)
    | none => (fun _ => 0, max nCnt 4096)
  ⟨ws.1, ws.2, cnt.1, cnt.2⟩

/-- `_forward_triton` on a device: `_workspace` keeps the scratch of every device. -/
def ForwardStep (workspace : Dict δ (Scratch F)) (l : δ × FusedLaunch F)
    (out : List YStore × (ℕ → F)) (workspace' : Dict δ (Scratch F)) : Prop :=
  ∃ sc', LaunchStep (getWorkspace (workspace.get? l.1) (l.2.args.M * l.2.args.N)
      (cdiv l.2.args.M 16 * cdiv l.2.args.N 32)) l.2 out sc'
    ∧ workspace' = workspace.insert l.1 sc'

theorem getWorkspace_spec {old : Option (Scratch F)} (h : ∀ sc, old = some sc → sc.Clean)
    (a : FusedArgs F) :
    (getWorkspace old (a.M * a.N) (cdiv a.M 16 * cdiv a.N 32)).Clean
      ∧ (getWorkspace old (a.M * a.N) (cdiv a.M 16 * cdiv a.N 32)).Fits a := by
  cases old with
  | none => exact ⟨⟨fun _ _ => rfl, fun _ _ => rfl⟩, le_max_left .., le_max_left ..⟩
  | some sc =>
      obtain ⟨hws, hcnt⟩ := h sc rfl
      unfold getWorkspace
      refine ⟨⟨?_, ?_⟩, ?_, ?_⟩ <;> simp only
      · split
        · exact fun _ _ => rfl
        · exact hws
      · split
        · exact fun _ _ => rfl
        · exact hcnt
      · split
        · exact le_max_left ..
        · omega
      · split
        · exact le_max_left ..
        · omega

def CleanWorkspace (workspace : Dict δ (Scratch F)) : Prop :=
  ∀ d sc, workspace.get? d = some sc → sc.Clean

theorem ForwardStep.clean {w w' : Dict δ (Scratch F)} {l : δ × FusedLaunch F}
    {out : List YStore × (ℕ → F)} (h : ForwardStep w l out w') (hclean : CleanWorkspace w) :
    CleanWorkspace w' ∧ ∃ sc sc', LaunchSound l.2.args l.2.config sc l.2.y out.1 out.2 sc' := by
  obtain ⟨sc', hstep, rfl⟩ := h
  obtain ⟨hcl, hfit⟩ := getWorkspace_spec (hclean l.1) l.2.args
  have hsound := LaunchRun.sound hstep hcl hfit
  refine ⟨fun d sc hd => ?_, _, _, hsound⟩
  rw [Dict.get?_insert] at hd
  split at hd
  · obtain rfl := Option.some.inj hd
    exact hsound.clean
  · exact hclean d sc hd

/-- **Forwards.** Whatever `_forward_triton` is called with, on whatever devices, it
returns `X Wᵀ + alpha (X Aᵀ) Bᵀ`, and the scratch it keeps is zero. -/
theorem forwards_sound {tr} {w : Dict δ (Scratch F)} (h : Exec ForwardStep Dict.empty tr w) :
    CleanWorkspace w ∧ ∀ e ∈ tr, ∀ m < e.label.2.args.M, ∀ n < e.label.2.args.N,
      e.out.2 (m * e.label.2.args.N + n) = fusedLoraCpuReference e.label.2.args m n := by
  obtain ⟨hend, hall⟩ := h.invariant CleanWorkspace (fun _ _ => True)
    (fun _ _ _ _ hclean _ hstep => (hstep.clean hclean).1) (fun d sc hd => by cases hd)
    fun _ _ => trivial
  refine ⟨hend, fun e he => ?_⟩
  obtain ⟨-, sc, sc', hsound⟩ := (h.step_of_mem e he).clean (hall e he).1
  exact hsound.result

/-- Every forward can finish. -/
theorem exists_forward (w : Dict δ (Scratch F)) (l : δ × FusedLaunch F) :
    ∃ out w', ForwardStep w l out w' := by
  obtain ⟨stores, y, sc', h⟩ := exists_launchRun l.2.args l.2.config
    (getWorkspace (w.get? l.1) (l.2.args.M * l.2.args.N)
      (cdiv l.2.args.M 16 * cdiv l.2.args.N 32)) l.2.y
  exact ⟨(stores, y), w.insert l.1 sc', sc', h, rfl⟩

/-- Two forwards on device 0 with one on device 1 between them. -/
theorem threeForwards_sound :
    ∃ tr w, Exec ForwardStep (Dict.empty : Dict ℕ (Scratch ℚ)) tr w
      ∧ tr.map Event.label = [(0, oneElement), (1, fourTiles), (0, fourTiles)]
      ∧ CleanWorkspace w ∧ ∀ e ∈ tr, ∀ m < e.label.2.args.M, ∀ n < e.label.2.args.N,
        e.out.2 (m * e.label.2.args.N + n) = fusedLoraCpuReference e.label.2.args m n := by
  obtain ⟨out₁, w₁, h₁⟩ := exists_forward (Dict.empty : Dict ℕ (Scratch ℚ)) (0, oneElement)
  obtain ⟨out₂, w₂, h₂⟩ := exists_forward w₁ (1, fourTiles)
  obtain ⟨out₃, w₃, h₃⟩ := exists_forward w₂ (0, fourTiles)
  have hrun : Exec ForwardStep Dict.empty [⟨Dict.empty, (0, oneElement), out₁, w₁⟩,
      ⟨w₁, (1, fourTiles), out₂, w₂⟩, ⟨w₂, (0, fourTiles), out₃, w₃⟩] w₃ :=
    .cons h₁ (.cons h₂ (.single h₃))
  exact ⟨_, w₃, hrun, rfl, forwards_sound hrun⟩

end Forward

end FusedLoRAKernel

end AdapterSlots
