import Mathlib.Algebra.Ring.Rat
import Mathlib.Algebra.BigOperators.Ring.Finset
import AdapterSlots.TileMap

/-!
# The grouped multi-slice LoRA path

`add_lora_packed_nslice`: one shrink launch and one expand launch over the
tile work list compute `y += scale * B (A x)` for every token and output
slice, each token with the matrices of its own adapter.

The kernels are embedded as cellwise programs over exact arithmetic: a
program id and an output element determine what the masked store or the
atomic add of that program does to the element. Tensors are functions of
their indices. A program of the shrink kernel reads its tile's rows modulo
the segment length and its weight rows modulo the rank, so the loads stay
inside the segment; only masked-in elements are stored.

`shrink_spec` and `expand_spec` say what one launch leaves in a cell, for
any order of its programs; `addLoraPackedNslice_spec` composes them.
-/

namespace AdapterSlots

open Lib

variable {R : Type} [CommRing R]

/-- The tile of a program that does not return early. -/
structure WorkTile where
  lora : ℤ
  start : ℕ
  len : ℕ
  m : ℕ

/-- The guards both kernels open with. -/
def workTile (T : SegTable) (tiles : TileMap) (blockM pidT : ℕ) : Option WorkTile :=
  let s := tiles.seg pidT
  if s < 0 then none
  else if T.lora s.toNat = -1 then none
  else if T.len s.toNat ≤ tiles.m pidT * blockM then none
  else some ⟨T.lora s.toNat, T.start s.toNat, T.len s.toNat, tiles.m pidT⟩

/-- A program that goes on has a segment with an adapter and a tile inside it. -/
theorem workTile_some {T : SegTable} {tiles : TileMap} {blockM pidT : ℕ} {w : WorkTile}
    (hw : workTile T tiles blockM pidT = some w) :
    ∃ s : ℕ, tiles.seg pidT = s ∧ T.lora s ≠ -1 ∧ tiles.m pidT * blockM < T.len s
      ∧ w = ⟨T.lora s, T.start s, T.len s, tiles.m pidT⟩ := by
  unfold workTile at hw
  simp only at hw
  split at hw
  · cases hw
  · split at hw
    · cases hw
    · split at hw
      · cases hw
      · rename_i hseg hlora hm
        exact ⟨(tiles.seg pidT).toNat, by omega, hlora, by omega, (Option.some.inj hw).symm⟩

/-- `tl.where(sid == 1, w1, tl.where(sid == 2, w2, w0))`. -/
def whereSid {α : Type} (w0 w1 w2 : α) (sid : ℕ) : α :=
  if sid = 1 then w1 else if sid = 2 then w2 else w0

/-- Row `row`, column `col` is masked in for the block of `height` rows from row
`m * height` of the tile's segment and `width` columns from column
`n * width`, of `N` columns shifted by `shift`. -/
def InBlock (w : WorkTile) (height n width N shift row col : ℕ) : Prop :=
  (w.start + w.m * height ≤ row ∧ row < w.start + w.m * height + height
      ∧ row < w.start + w.len)
    ∧ shift + n * width ≤ col ∧ col < shift + n * width + width ∧ col < shift + N

instance (w : WorkTile) (height n width N shift row col : ℕ) :
    Decidable (InBlock w height n width N shift row col) :=
  inferInstanceAs (Decidable (_ ∧ _))

/-- The weights of one adapter stack: slice, adapter, output row, input column. -/
abbrev Weights (R : Type) := ℕ → ℤ → ℕ → ℕ → R

/-- `_tiled_shrink_ms_kernel` on one element of the buffer. Axis 2 of the grid
is slice times split. -/
def tiledShrinkMs (x : ℕ → ℕ → R) (A : Weights R) (N K : ℕ) (T : SegTable) (tiles : TileMap)
    (scaling : R) (blockM blockN blockK splitK : ℕ) (pid : ℕ × ℕ × ℕ) (c : ℕ × ℕ) (v : R) : R :=
  let sid := pid.2.2 / splitK
  let pidSk := pid.2.2 % splitK
  match workTile T tiles blockM pid.1 with
  | none => v
  | some w =>
      if InBlock w blockM pid.2.1 blockN N (sid * N) c.1 c.2 then
        -- the element's place in the block
        let i := c.1 - (w.start + w.m * blockM)
        let j := c.2 - (sid * N + pid.2.1 * blockN)
        let ram := (i + w.m * blockM) % w.len
        let rbn := (j + pid.2.1 * blockN) % N
        let acc := kLoop K (blockK * splitK) (pidSk * blockK) blockK fun k =>
          x (w.start + ram) k * A (whereSid 0 1 2 sid) w.lora rbn k
        if splitK = 1 then acc * scaling else v + acc * scaling
      else v

/-- `_tiled_expand_ms_kernel` on one element of the output, with `ADD_INPUTS`. -/
def tiledExpandMs (buf : ℕ × ℕ → R) (B : Weights R) (N K : ℕ) (T : SegTable) (tiles : TileMap)
    (yoff0 yoff1 yoff2 : ℕ) (blockM blockN blockK : ℕ) (pid : ℕ × ℕ × ℕ) (c : ℕ × ℕ) (v : R) :
    R :=
  let sid := pid.2.2
  match workTile T tiles blockM pid.1 with
  | none => v
  | some w =>
      let yoff := whereSid yoff0 yoff1 yoff2 sid
      if InBlock w blockM pid.2.1 blockN N yoff c.1 c.2 then
        let i := c.1 - (w.start + w.m * blockM)
        let j := c.2 - (yoff + pid.2.1 * blockN)
        let ram := (i + w.m * blockM) % w.len
        let rbn := (j + pid.2.1 * blockN) % N
        let acc := kLoop K blockK 0 blockK fun k =>
          buf (w.start + ram, k + sid * K) * B (whereSid 0 1 2 sid) w.lora rbn k
        acc + v
      else v

/-- The block sizes of the two launches. -/
structure Blocks where
  blockM : ℕ
  blockN : ℕ
  blockK : ℕ
  splitK : ℕ
  blockN2 : ℕ
  blockK2 : ℕ
  pos : 0 < blockM ∧ 0 < blockN ∧ 0 < blockK ∧ 0 < splitK ∧ 0 < blockN2 ∧ 0 < blockK2

/-- The buffer of the intermediate result: zeroed for atomic adds, else with
whatever the allocation holds. -/
def shrinkBuffer (splitK : ℕ) (garbage : ℕ × ℕ → R) : ℕ × ℕ → R :=
  if 1 < splitK then fun _ => 0 else garbage

/-- `yo = [i * n_out for i in range(ns)] + [0] * (3 - ns)`. -/
def sliceOffset (ns nOut i : ℕ) : ℕ := if i < ns then i * nOut else 0

/-- `add_lora_packed_nslice` for `ns` slices of width `nOut`, rank `r` and input
width `K`. `shrinkOrder` and `expandOrder` are the orders in which the
device runs the programs of the two launches. -/
def addLoraPackedNslice (y : ℕ × ℕ → R) (x : ℕ → ℕ → R) (A B : Weights R) (scale : R)
    (ns nOut r K : ℕ) (T : SegTable) (tiles : TileMap) (blk : Blocks)
    (garbage : ℕ × ℕ → R) (shrinkOrder expandOrder : List (ℕ × ℕ × ℕ)) : ℕ × ℕ → R :=
  let buf := launch
    (tiledShrinkMs x A r K T tiles scale blk.blockM blk.blockN blk.blockK blk.splitK)
    shrinkOrder (shrinkBuffer blk.splitK garbage)
  launch
    (tiledExpandMs buf B nOut r T tiles (sliceOffset ns nOut 0) (sliceOffset ns nOut 1)
      (sliceOffset ns nOut 2) blk.blockM blk.blockN2 blk.blockK2)
    expandOrder y

/-! ## The tile of a row -/

section Rows

variable {nLoras blockM numel : ℕ} {idx : List ℤ} {order : List ℕ} {old : TileMap}

/-- The tables of one step: segments and their work list. -/
structure Tables (nLoras blockM : ℕ) (idx : List ℤ) (T : SegTable) (tiles : TileMap) : Prop where
  lora : ∀ s i, T.Covers s i → T.lora s = tokenLora idx i
  covers : ∀ s i, T.Covers s i ↔ i < idx.length ∧ segId nLoras idx i = s
  inv : ∀ pos < tileCap blockM idx.length nLoras, 0 ≤ tiles.seg pos →
    ∃ s < nLoras, tiles.seg pos = s ∧ tiles.m pos < T.ntiles blockM s
      ∧ pos = T.starts blockM s + tiles.m pos
  entry : ∀ s < nLoras, ∀ m < T.ntiles blockM s,
    T.starts blockM s + m < tileCap blockM idx.length nLoras
      ∧ tiles.seg (T.starts blockM s + m) = s ∧ tiles.m (T.starts blockM s + m) = m

theorem tables_of_refresh (hM : 0 < blockM) (hpos : 0 < nLoras) (hn : idx.length ≤ tileMapTokens)
    (hruns : countRuns idx ≤ nLoras) (hperm : order.Perm (List.range idx.length)) :
    Tables nLoras blockM idx (refreshSegments nLoras idx order)
      (refreshTiles (refreshSegments nLoras idx order) nLoras blockM numel old) := by
  have hcap : tileCap blockM idx.length nLoras ≤ tileNeed blockM nLoras := tileCap_le_tileNeed hn
  have hmax : ∀ pos < tileCap blockM idx.length nLoras,
      pos < if numel < tileNeed blockM nLoras then tileNeed blockM nLoras else numel :=
    fun pos h => by split <;> omega
  refine ⟨fun s i => lora_eq_of_covers hruns hperm, fun s i => covers_iff, ?_, ?_⟩
  · intro pos hcapped h
    exact tileMap_inv hpos (hmax pos hcapped) h
  · intro s hs m hm
    have hlt : (refreshSegments nLoras idx order).starts blockM s + m
        < tileCap blockM idx.length nLoras := by
      have htot : totalTiles (refreshSegments nLoras idx order) blockM nLoras
          ≤ tileCap blockM idx.length nLoras := totalTiles_le_tileCap hM hpos
      refine Nat.lt_of_lt_of_le ?_ htot
      refine Nat.lt_of_lt_of_le ?_ (prefixSum_mono (show s + 1 ≤ nLoras from hs))
      rw [starts_eq, Finset.sum_range_succ]
      omega
    exact ⟨hlt, tileMap_of hpos hs hm (hmax _ hlt)⟩

variable {T : SegTable} {tiles : TileMap}

/-- The program id on axis 0 whose tile holds a row. -/
def rowPid (T : SegTable) (nLoras blockM : ℕ) (idx : List ℤ) (row : ℕ) : ℕ :=
  T.starts blockM (segId nLoras idx row) + (row - T.start (segId nLoras idx row)) / blockM

/-- The tile that holds a row. -/
def rowTile (T : SegTable) (nLoras blockM : ℕ) (idx : List ℤ) (row : ℕ) : WorkTile :=
  ⟨tokenLora idx row, T.start (segId nLoras idx row), T.len (segId nLoras idx row),
    (row - T.start (segId nLoras idx row)) / blockM⟩

/-- The rows a program masks in. -/
def WorkTile.HasRow (w : WorkTile) (blockM row : ℕ) : Prop :=
  w.start + w.m * blockM ≤ row ∧ row < w.start + w.m * blockM + blockM ∧ row < w.start + w.len

/-- Only one program masks in a row, and it works with the row's adapter. -/
theorem Tables.workTile_row (hM : 0 < blockM) (h : Tables nLoras blockM idx T tiles) {pidT : ℕ}
    (hcap : pidT < tileCap blockM idx.length nLoras) {w : WorkTile}
    (hw : workTile T tiles blockM pidT = some w) {row : ℕ} (hrow : w.HasRow blockM row) :
    tokenLora idx row ≠ -1 ∧ pidT = rowPid T nLoras blockM idx row
      ∧ w = rowTile T nLoras blockM idx row := by
  obtain ⟨hlo, hhi, hend⟩ := hrow
  obtain ⟨s, hseg, hlora, -, rfl⟩ := workTile_some hw
  obtain ⟨s', -, hs', -, hpid⟩ := h.inv pidT hcap (by omega)
  obtain rfl : s' = s := by omega
  simp only at hlo hhi hend
  have hcov : T.Covers s' row := ⟨by omega, hend⟩
  obtain ⟨-, hrun⟩ := (h.covers s' row).mp hcov
  have hdiv : tiles.m pidT = (row - T.start s') / blockM :=
    (tile_eq_iff hM).mp ⟨by omega, by omega⟩
  have hid := h.lora s' row hcov
  refine ⟨hid ▸ hlora, ?_, ?_⟩
  · rw [rowPid, hrun, ← hdiv]
    exact hpid
  · rw [rowTile, hrun, ← hdiv, ← hid]

/-- Every row with an adapter has its program. -/
theorem Tables.workTile_rowPid (hM : 0 < blockM) (hpos : 0 < nLoras)
    (h : Tables nLoras blockM idx T tiles) {row : ℕ} (hrow : row < idx.length)
    (hlora : tokenLora idx row ≠ -1) :
    rowPid T nLoras blockM idx row < tileCap blockM idx.length nLoras
      ∧ workTile T tiles blockM (rowPid T nLoras blockM idx row)
        = some (rowTile T nLoras blockM idx row) := by
  have hcov : T.Covers (segId nLoras idx row) row := (h.covers _ row).mpr ⟨hrow, rfl⟩
  obtain ⟨hlo, hhi⟩ := hcov
  have hs : segId nLoras idx row < nLoras := segId_lt hpos row
  have hloraT := h.lora _ row ⟨hlo, hhi⟩
  unfold rowPid rowTile
  generalize segId nLoras idx row = s at hlo hhi hs hloraT
  have hlt : (row - T.start s) / blockM * blockM < T.len s :=
    Nat.lt_of_le_of_lt (Nat.div_mul_le_self ..) (by omega)
  have hm : (row - T.start s) / blockM < T.ntiles blockM s := (lt_cdiv_iff hM).mpr hlt
  obtain ⟨hcap, hseg, hmm⟩ := h.entry s hs _ hm
  refine ⟨hcap, ?_⟩
  unfold workTile
  simp only [hseg, hmm, Int.toNat_natCast]
  rw [if_neg (by omega), if_neg (hloraT ▸ hlora), if_neg (by omega), hloraT]

/-- The row's program masks the row in. -/
theorem Tables.hasRow (hM : 0 < blockM) (h : Tables nLoras blockM idx T tiles) {row : ℕ}
    (hrow : row < idx.length) : (rowTile T nLoras blockM idx row).HasRow blockM row := by
  obtain ⟨hlo, hhi⟩ : T.Covers (segId nLoras idx row) row := (h.covers _ row).mpr ⟨hrow, rfl⟩
  obtain ⟨hle, hlt⟩ := (tile_eq_iff (q := row - T.start (segId nLoras idx row)) hM).mpr rfl
  refine ⟨?_, ?_, hhi⟩ <;> simp only [rowTile] <;> omega

end Rows

/-! ## One program on one element -/

section Cells

variable {w : WorkTile} {blockM width N row : ℕ}

/-- A slice of width `N` from column `s * N` on. -/
theorem slice_eq_iff {s s' q : ℕ} (hq : q < N) :
    s' * N ≤ s * N + q ∧ s * N + q < s' * N + N ↔ s' = s := by
  have hN : 0 < N := by omega
  have hs : s = (s * N + q) / N := (tile_eq_iff hN).mp ⟨by omega, by omega⟩
  rw [tile_eq_iff hN, ← hs]

/-- A block holds the element of slice `s`, column `q` when it is a block of that
slice, over that column and that row. -/
theorem inBlock_iff (hW : 0 < width) {s s' n q : ℕ} (hq : q < N) :
    InBlock w blockM n width N (s' * N) row (s * N + q)
      ↔ w.HasRow blockM row ∧ s' = s ∧ n = q / width := by
  unfold InBlock WorkTile.HasRow
  refine and_congr_right fun _ => ?_
  constructor
  · rintro ⟨hlo, hhi, hend⟩
    obtain rfl := (slice_eq_iff hq).mp ⟨by omega, hend⟩
    exact ⟨rfl, (tile_eq_iff hW).mp ⟨by omega, by omega⟩⟩
  · rintro ⟨rfl, hn⟩
    obtain ⟨hlo, hhi⟩ := (tile_eq_iff hW).mpr hn
    omega

/-- The wrapped row of a masked-in element is its own. -/
theorem wrap_row (h : w.HasRow blockM row) :
    w.start + (row - (w.start + w.m * blockM) + w.m * blockM) % w.len = row := by
  obtain ⟨hlo, hhi, hend⟩ := h
  rw [show row - (w.start + w.m * blockM) + w.m * blockM = row - w.start by omega,
    Nat.mod_eq_of_lt (by omega)]
  omega

/-- The wrapped column of a masked-in element is its own. -/
theorem wrap_col {s q : ℕ} (hW : 0 < width) (hq : q < N) :
    (s * N + q - (s * N + q / width * width) + q / width * width) % N = q := by
  obtain ⟨hlo, -⟩ := (tile_eq_iff (q := q) hW).mpr rfl
  rw [show s * N + q - (s * N + q / width * width) + q / width * width = q by omega,
    Nat.mod_eq_of_lt hq]

theorem whereSid_self {sid : ℕ} (h : sid < 3) : whereSid 0 1 2 sid = sid := by
  unfold whereSid
  split
  · omega
  · split <;> omega

theorem whereSid_sliceOffset {ns nOut sid : ℕ} (hns : ns ≤ 3) (h : sid < ns) :
    whereSid (sliceOffset ns nOut 0) (sliceOffset ns nOut 1) (sliceOffset ns nOut 2) sid
      = sid * nOut := by
  unfold whereSid sliceOffset
  by_cases h1 : sid = 1
  · rw [if_pos h1, if_pos (by omega), h1]
  · by_cases h2 : sid = 2
    · rw [if_neg h1, if_pos h2, if_pos (by omega), h2]
    · rw [if_neg h1, if_neg h2, if_pos (by omega), show sid = 0 by omega]

end Cells

section Programs

variable {nLoras blockM : ℕ} {idx : List ℤ} {T : SegTable} {tiles : TileMap}
  {row s q : ℕ} {N : ℕ}

/-- A shrink program on an element of slice `s`, column `q`: nothing, unless it
is one of the programs of the element's block. -/
theorem tiledShrinkMs_other (hM : 0 < blockM) (h : Tables nLoras blockM idx T tiles)
    (row s blockK : ℕ) {blockN splitK : ℕ} (hN : 0 < blockN) (hSK : 0 < splitK) (hq : q < N)
    (x : ℕ → ℕ → R) (A : Weights R) (K : ℕ) (scale : R) {pid : ℕ × ℕ × ℕ}
    (hcap : pid.1 < tileCap blockM idx.length nLoras)
    (hne : ∀ z < splitK, pid ≠ (rowPid T nLoras blockM idx row, q / blockN, s * splitK + z))
    (v : R) :
    tiledShrinkMs x A N K T tiles scale blockM blockN blockK splitK pid (row, s * N + q) v
      = v := by
  obtain ⟨pidT, pidN, pid2⟩ := pid
  unfold tiledShrinkMs
  cases hw : workTile T tiles blockM pidT with
  | none => rfl
  | some w =>
      simp only
      refine if_neg fun hin => ?_
      obtain ⟨hrow, hsid, hn⟩ := (inBlock_iff hN hq).mp hin
      obtain ⟨-, rfl, -⟩ := h.workTile_row hM hcap hw hrow
      refine hne (pid2 % splitK) (Nat.mod_lt _ hSK) ?_
      have hdm := Nat.div_add_mod pid2 splitK
      rw [hsid, Nat.mul_comm] at hdm
      rw [hn, hdm]

/-- The programs of the element's block, one for each share of the reduction. -/
theorem tiledShrinkMs_own (hM : 0 < blockM) (hpos : 0 < nLoras)
    (h : Tables nLoras blockM idx T tiles) (blockK : ℕ) {blockN splitK : ℕ} (hN : 0 < blockN)
    (hq : q < N) (hrow : row < idx.length) (hlora : tokenLora idx row ≠ -1) (hs : s < 3)
    (x : ℕ → ℕ → R) (A : Weights R) (K : ℕ) (scale : R) {z : ℕ} (hz : z < splitK) (v : R) :
    tiledShrinkMs x A N K T tiles scale blockM blockN blockK splitK
        (rowPid T nLoras blockM idx row, q / blockN, s * splitK + z) (row, s * N + q) v
      = (if splitK = 1 then 0 else v)
        + kLoop K (blockK * splitK) (z * blockK) blockK
            (fun k => x row k * A s (tokenLora idx row) q k) * scale := by
  obtain ⟨-, hw⟩ := h.workTile_rowPid hM hpos hrow hlora
  have hsid : (s * splitK + z) / splitK = s :=
    ((tile_eq_iff (by omega)).mp ⟨by omega, by omega⟩).symm
  have hsk : (s * splitK + z) % splitK = z := by
    rw [Nat.mul_comm, Nat.mul_add_mod, Nat.mod_eq_of_lt hz]
  have hhas := h.hasRow hM hrow
  unfold tiledShrinkMs
  simp only [hw, hsid, hsk, whereSid_self hs]
  rw [if_pos ((inBlock_iff hN hq).mpr ⟨hhas, rfl, rfl⟩), wrap_row hhas, wrap_col hN hq]
  split
  · rw [zero_add]
    rfl
  · rfl

/-- The programs of the element's block are in the grid. -/
theorem own_mem_grid (hM : 0 < blockM) (hpos : 0 < nLoras) (h : Tables nLoras blockM idx T tiles)
    {blockN splitK : ℕ} (hN : 0 < blockN) (hq : q < N) (hrow : row < idx.length)
    (hlora : tokenLora idx row ≠ -1) {ns : ℕ} (hs : s < ns) {z : ℕ} (hz : z < splitK) :
    (rowPid T nLoras blockM idx row, q / blockN, s * splitK + z)
      ∈ grid (tileCap blockM idx.length nLoras) (cdiv N blockN) (ns * splitK) := by
  obtain ⟨hcap, -⟩ := h.workTile_rowPid hM hpos hrow hlora
  refine mem_grid.mpr ⟨hcap, ?_, ?_⟩
  · exact (lt_cdiv_iff hN).mpr (Nat.lt_of_le_of_lt (Nat.div_mul_le_self ..) hq)
  · have hle := Nat.mul_le_mul_right splitK (show s + 1 ≤ ns from hs)
    rw [Nat.add_mul, Nat.one_mul] at hle
    show s * splitK + z < ns * splitK
    omega

section Shrink

variable {blockN blockK splitK ns : ℕ} {order : List (ℕ × ℕ × ℕ)}

/-- Without a split one program stores the element. -/
theorem shrink_store (hM : 0 < blockM) (hpos : 0 < nLoras) (h : Tables nLoras blockM idx T tiles)
    (hN : 0 < blockN) (hK : 0 < blockK) (hq : q < N) (hrow : row < idx.length)
    (hlora : tokenLora idx row ≠ -1) (hns : ns ≤ 3) (hs : s < ns)
    (hperm : order.Perm (grid (tileCap blockM idx.length nLoras) (cdiv N blockN) (ns * 1)))
    (x : ℕ → ℕ → R) (A : Weights R) (K : ℕ) (scale : R) (garbage : ℕ × ℕ → R) :
    launch (tiledShrinkMs x A N K T tiles scale blockM blockN blockK 1) order garbage
        (row, s * N + q)
      = scale * ∑ k ∈ Finset.range K, x row k * A s (tokenLora idx row) q k := by
  have hmem := own_mem_grid hM hpos h hN hq hrow hlora hs Nat.one_pos
  have hown := tiledShrinkMs_own hM hpos h blockK hN hq hrow hlora (show s < 3 by omega) x A K
    scale Nat.one_pos
  rw [← sum_kLoop hK Nat.one_pos, Finset.sum_range_one,
    launch_single (hperm.nodup_iff.mpr (nodup_grid ..)) (hperm.mem_iff.mpr hmem), hown, if_pos rfl,
    zero_add, mul_comm]
  intro p hp hne v
  refine tiledShrinkMs_other hM h row s blockK hN Nat.one_pos hq x A K scale
    (mem_grid.mp (hperm.mem_iff.mp hp)).1 (fun z hz => ?_) v
  obtain rfl : z = 0 := by omega
  exact hne

/-- With a split the shares are added to a zero. -/
theorem shrink_atomic (hM : 0 < blockM) (hpos : 0 < nLoras) (h : Tables nLoras blockM idx T tiles)
    (hN : 0 < blockN) (hK : 0 < blockK) (hSK : 1 < splitK) (hq : q < N)
    (hrow : row < idx.length) (hlora : tokenLora idx row ≠ -1) (hns : ns ≤ 3) (hs : s < ns)
    (hperm : order.Perm
      (grid (tileCap blockM idx.length nLoras) (cdiv N blockN) (ns * splitK)))
    (x : ℕ → ℕ → R) (A : Weights R) (K : ℕ) (scale : R) :
    launch (tiledShrinkMs x A N K T tiles scale blockM blockN blockK splitK) order (fun _ => 0)
        (row, s * N + q)
      = scale * ∑ k ∈ Finset.range K, x row k * A s (tokenLora idx row) q k := by
  have h1 : splitK ≠ 1 := by omega
  have hmem : ∀ z < splitK,
      (rowPid T nLoras blockM idx row, q / blockN, s * splitK + z) ∈ order := fun z hz =>
    hperm.mem_iff.mpr (own_mem_grid hM hpos h hN hq hrow hlora hs hz)
  have hown := fun z (hz : z < splitK) =>
    tiledShrinkMs_own hM hpos h blockK hN hq hrow hlora (show s < 3 by omega) x A K scale hz
  have hother := fun p (hp : p ∈ order) =>
    tiledShrinkMs_other hM h row s blockK hN (show 0 < splitK by omega) hq x A K scale
      (mem_grid.mp (hperm.mem_iff.mp hp)).1
  rw [← sum_kLoop hK (show 0 < splitK by omega), Finset.mul_sum,
    launch_add (a := fun p => tiledShrinkMs x A N K T tiles scale blockM blockN blockK splitK p
      (row, s * N + q) 0)]
  · rw [sum_map_eq_sum_range (hperm.nodup_iff.mpr (nodup_grid ..)) hmem, zero_add]
    · refine Finset.sum_congr rfl fun z hz => ?_
      rw [hown z (Finset.mem_range.mp hz), if_neg h1, zero_add, mul_comm]
    · intro z _ z' _ heq
      have := congrArg (·.2.2) heq
      simp only at this
      omega
    · intro p hp hne
      exact hother p hp hne 0
  · intro p hp v
    by_cases hex : ∃ z < splitK, p = (rowPid T nLoras blockM idx row, q / blockN, s * splitK + z)
    · obtain ⟨z, hz, rfl⟩ := hex
      rw [hown z hz, hown z hz, if_neg h1, if_neg h1, zero_add]
    · have hne : ∀ z < splitK,
          p ≠ (rowPid T nLoras blockM idx row, q / blockN, s * splitK + z) :=
        fun z hz heq => hex ⟨z, hz, heq⟩
      rw [hother p hp hne, hother p hp hne, add_zero]

/-- One shrink launch: the scaled product of the row with its adapter's matrix of
each slice, in every order of the programs. -/
theorem shrink_spec (hM : 0 < blockM) (hpos : 0 < nLoras) (h : Tables nLoras blockM idx T tiles)
    (hN : 0 < blockN) (hK : 0 < blockK) (hSK : 0 < splitK) (hq : q < N)
    (hrow : row < idx.length) (hlora : tokenLora idx row ≠ -1) (hns : ns ≤ 3) (hs : s < ns)
    (hperm : order.Perm
      (grid (tileCap blockM idx.length nLoras) (cdiv N blockN) (ns * splitK)))
    (x : ℕ → ℕ → R) (A : Weights R) (K : ℕ) (scale : R) (garbage : ℕ × ℕ → R) :
    launch (tiledShrinkMs x A N K T tiles scale blockM blockN blockK splitK) order
        (shrinkBuffer splitK garbage) (row, s * N + q)
      = scale * ∑ k ∈ Finset.range K, x row k * A s (tokenLora idx row) q k := by
  rcases Nat.lt_or_ge 1 splitK with hsplit | hone
  · rw [shrinkBuffer, if_pos hsplit]
    exact shrink_atomic hM hpos h hN hK hsplit hq hrow hlora hns hs hperm x A K scale
  · obtain rfl : splitK = 1 := by omega
    rw [shrinkBuffer, if_neg (Nat.lt_irrefl 1)]
    exact shrink_store hM hpos h hN hK hq hrow hlora hns hs hperm x A K scale garbage

end Shrink

/-- An expand program on an element of slice `s`, column `q`: nothing, unless it
is the program of the element's block and the row has an adapter. -/
theorem tiledExpandMs_other (hM : 0 < blockM) (h : Tables nLoras blockM idx T tiles)
    {blockN blockK ns : ℕ} (hN : 0 < blockN) (hns : ns ≤ 3) (hq : q < N) {buf : ℕ × ℕ → R}
    {B : Weights R} {K : ℕ} {pid : ℕ × ℕ × ℕ} (hcap : pid.1 < tileCap blockM idx.length nLoras)
    (hpid2 : pid.2.2 < ns)
    (hne : tokenLora idx row ≠ -1 → pid ≠ (rowPid T nLoras blockM idx row, q / blockN, s))
    (v : R) :
    tiledExpandMs buf B N K T tiles (sliceOffset ns N 0) (sliceOffset ns N 1)
      (sliceOffset ns N 2) blockM blockN blockK pid (row, s * N + q) v = v := by
  obtain ⟨pidT, pidN, sid⟩ := pid
  unfold tiledExpandMs
  cases hw : workTile T tiles blockM pidT with
  | none => rfl
  | some w =>
      simp only [whereSid_sliceOffset hns hpid2]
      refine if_neg fun hin => ?_
      obtain ⟨hrow, rfl, hn⟩ := (inBlock_iff hN hq).mp hin
      obtain ⟨hlora, rfl, -⟩ := h.workTile_row hM hcap hw hrow
      exact hne hlora (hn ▸ rfl)

/-- The program of the element's block adds the whole reduction. -/
theorem tiledExpandMs_own (hM : 0 < blockM) (hpos : 0 < nLoras)
    (h : Tables nLoras blockM idx T tiles) {blockN blockK ns : ℕ} (hN : 0 < blockN)
    (hK : 0 < blockK) (hns : ns ≤ 3) (hs : s < ns) (hq : q < N) (hrow : row < idx.length)
    (hlora : tokenLora idx row ≠ -1) {buf : ℕ × ℕ → R} {B : Weights R} {K : ℕ} (v : R) :
    tiledExpandMs buf B N K T tiles (sliceOffset ns N 0) (sliceOffset ns N 1)
        (sliceOffset ns N 2) blockM blockN blockK
        (rowPid T nLoras blockM idx row, q / blockN, s) (row, s * N + q) v
      = v + ∑ t ∈ Finset.range K, buf (row, t + s * K) * B s (tokenLora idx row) q t := by
  obtain ⟨-, hw⟩ := h.workTile_rowPid hM hpos hrow hlora
  have hhas := h.hasRow hM hrow
  have hloop := sum_kLoop (K := K) hK Nat.one_pos fun t =>
    buf (row, t + s * K) * B s (tokenLora idx row) q t
  rw [Finset.sum_range_one, Nat.mul_one, Nat.zero_mul] at hloop
  unfold tiledExpandMs
  simp only [hw, whereSid_sliceOffset hns hs, whereSid_self (show s < 3 by omega)]
  rw [if_pos ((inBlock_iff hN hq).mpr ⟨hhas, rfl, rfl⟩), wrap_row hhas, wrap_col hN hq, add_comm,
    ← hloop]
  rfl

/-- One expand launch: a row with an adapter gains the product with its adapter's
matrix of each slice, the other rows stay. -/
theorem expand_spec (hM : 0 < blockM) (hpos : 0 < nLoras) (h : Tables nLoras blockM idx T tiles)
    {blockN blockK : ℕ} (hN : 0 < blockN) (hK : 0 < blockK) (hq : q < N)
    (hrow : row < idx.length) {ns : ℕ} (hns : ns ≤ 3) (hs : s < ns)
    {order : List (ℕ × ℕ × ℕ)}
    (hperm : order.Perm (grid (tileCap blockM idx.length nLoras) (cdiv N blockN) ns))
    (buf : ℕ × ℕ → R) (B : Weights R) (K : ℕ) (y : ℕ × ℕ → R) :
    launch (tiledExpandMs buf B N K T tiles (sliceOffset ns N 0) (sliceOffset ns N 1)
        (sliceOffset ns N 2) blockM blockN blockK) order y (row, s * N + q)
      = if tokenLora idx row = -1 then y (row, s * N + q)
        else y (row, s * N + q)
          + ∑ t ∈ Finset.range K, buf (row, t + s * K) * B s (tokenLora idx row) q t := by
  have hgrid : ∀ p ∈ order, p.1 < tileCap blockM idx.length nLoras ∧ p.2.2 < ns := fun p hp =>
    have hp' := mem_grid.mp (hperm.mem_iff.mp hp)
    ⟨hp'.1, hp'.2.2⟩
  split
  · rename_i hnone
    refine launch_unchanged fun p hp v => ?_
    obtain ⟨hcap, hsid⟩ := hgrid p hp
    exact tiledExpandMs_other hM h hN hns hq hcap hsid (fun hlora => absurd hnone hlora) v
  · rename_i hlora
    obtain ⟨hcap, -⟩ := h.workTile_rowPid hM hpos hrow hlora
    have hmem : (rowPid T nLoras blockM idx row, q / blockN, s) ∈ order := by
      refine hperm.mem_iff.mpr (mem_grid.mpr ⟨hcap, ?_, hs⟩)
      exact (lt_cdiv_iff hN).mpr (Nat.lt_of_le_of_lt (Nat.div_mul_le_self ..) hq)
    rw [launch_single (hperm.nodup_iff.mpr (nodup_grid ..)) hmem]
    · exact tiledExpandMs_own hM hpos h hN hK hns hs hq hrow hlora _
    · intro p hp hne v
      obtain ⟨hcap', hsid⟩ := hgrid p hp
      exact tiledExpandMs_other hM h hN hns hq hcap' hsid (fun _ => hne) v

end Programs

/-! ## The two launches -/

/-- **Multi-slice LoRA.** Over the tables of a batch whose adapter runs fit the
segment slots, the two launches add to every token's output its own
adapter's scaled product and leave tokens without an adapter alone. -/
theorem addLoraPackedNslice_spec (nLoras numel ns nOut r K : ℕ) (idx : List ℤ)
    (scatterOrder : List ℕ) (old : TileMap) (blk : Blocks)
    (shrinkOrder expandOrder : List (ℕ × ℕ × ℕ)) (hpos : 0 < nLoras)
    (hn : idx.length ≤ tileMapTokens) (hruns : countRuns idx ≤ nLoras)
    (hscatter : scatterOrder.Perm (List.range idx.length)) (hns : 1 ≤ ns ∧ ns ≤ 3)
    (hshrink : shrinkOrder.Perm
      (grid (tileCap blk.blockM idx.length nLoras) (cdiv r blk.blockN) (ns * blk.splitK)))
    (hexpand : expandOrder.Perm
      (grid (tileCap blk.blockM idx.length nLoras) (cdiv nOut blk.blockN2) ns))
    (y : ℕ × ℕ → R) (x : ℕ → ℕ → R) (A B : Weights R) (scale : R) (garbage : ℕ × ℕ → R)
    {i s j : ℕ} (hi : i < idx.length) (hs : s < ns) (hj : j < nOut) :
    let T := refreshSegments nLoras idx scatterOrder
    let y' := addLoraPackedNslice y x A B scale ns nOut r K T
      (refreshTiles T nLoras blk.blockM numel old) blk garbage shrinkOrder expandOrder
    (0 ≤ tokenLora idx i → y' (i, s * nOut + j) = y (i, s * nOut + j)
        + scale * ∑ q ∈ Finset.range r, B s (tokenLora idx i) j q
          * ∑ k ∈ Finset.range K, A s (tokenLora idx i) q k * x i k)
      ∧ (tokenLora idx i = -1 → y' (i, s * nOut + j) = y (i, s * nOut + j)) := by
  obtain ⟨hM, hN, hK, hSK, hN2, hK2⟩ := blk.pos
  intro T y'
  have htab : Tables nLoras blk.blockM idx T (refreshTiles T nLoras blk.blockM numel old) :=
    tables_of_refresh hM hpos hn hruns hscatter
  have hout := fun buf => expand_spec hM hpos htab hN2 hK2 hj hi hns.2 hs hexpand buf B r y
  constructor
  · intro hlora
    have hne : tokenLora idx i ≠ -1 := by omega
    have hrow : ∀ q < r, _ := fun q hq =>
      shrink_spec hM hpos htab hN hK hSK hq hi hne hns.2 hs hshrink x A K scale garbage
    refine (hout _).trans ?_
    rw [if_neg hne, Finset.mul_sum]
    refine congrArg _ (Finset.sum_congr rfl fun q hq => ?_)
    rw [Nat.add_comm, hrow q (Finset.mem_range.mp hq)]
    have hcomm : ∀ k, x i k * A s (tokenLora idx i) q k = A s (tokenLora idx i) q k * x i k :=
      fun k => mul_comm ..
    simp only [hcomm]
    rw [mul_assoc, mul_comm (Finset.sum _ _)]
  · intro hnone
    exact (hout _).trans (if_pos hnone)

/-- Two slices over `[2, 2, -1]`, two shares of the reduction added atomically,
the programs of both launches in reverse order. -/
theorem twoSlices_spec :
    let idx : List ℤ := [2, 2, -1]
    let T := refreshSegments 3 idx [2, 0, 1]
    let y' := addLoraPackedNslice (fun c => (c.1 : ℤ)) (fun i k => (i + k : ℕ))
      (fun s a q k => s + a + q + k) (fun s a j q => s * a + j + q) 5 2 2 1 3 T
      (refreshTiles T 3 2 0 ⟨fun _ => -1, fun _ => 0⟩) ⟨2, 1, 1, 2, 2, 1, by decide⟩
      (fun _ => 7) (grid 6 1 4).reverse (grid 6 1 2).reverse
    (y' (1, 3) = 1 + 5 * ∑ q ∈ Finset.range 1, (1 * 2 + (1 : ℕ) + q : ℤ)
        * ∑ k ∈ Finset.range 3, ((1 : ℕ) + 2 + q + k : ℤ) * ((1 + k : ℕ) : ℤ))
      ∧ y' (2, 3) = 2 := by
  have h := fun (i : ℕ) (hi : i < 3) => addLoraPackedNslice_spec 3 0 2 2 1 3 [2, 2, -1] [2, 0, 1]
    ⟨fun _ => -1, fun _ => 0⟩ ⟨2, 1, 1, 2, 2, 1, by decide⟩ (grid 6 1 4).reverse
    (grid 6 1 2).reverse (by decide) (by decide) (by decide) (by decide) (by decide)
    (List.reverse_perm _) (List.reverse_perm _) (fun c => (c.1 : ℤ)) (fun i k => (i + k : ℕ))
    (fun s a q k => s + a + q + k) (fun s a j q => s * a + j + q) 5 (fun _ => 7) (i := i)
    (s := 1) (j := 1) hi (by decide) (by decide)
  exact ⟨(h 1 (by decide)).1 (by decide), (h 2 (by decide)).2 (by decide)⟩

end AdapterSlots
