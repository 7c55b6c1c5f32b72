import AdapterSlots.Multislice

/-!
# The prefill gate

`update_metadata` decides for every step which path its LoRA takes. A decode
step always gets its segment table. A prefill step gets one, and the tile
work list, when its mapping passes a test on the host: not too many tokens,
and no more adapter runs than segment slots. Nothing checks the device side,
whose tables are built from slot indices instead of adapter ids and whose
shrink buffer is not even zeroed.

`prefill_gate_sound` says that the test is enough. `shrinkStores` and
`expandLoads` are the memory accesses of the two kernels; what they have to
do with the kernels is `tiledShrinkMs_stores` and `tiledExpandMs_congr`. With
them `PrefillReady.ignores_garbage` turns the statement about accesses into
one about results.
-/

namespace AdapterSlots

open Lib

/-! ## The wrapper -/

/-- `_MODE`, `_PREFILL_GROUPED` and `_BM_SHRINK`. -/
structure SegGemmConfig where
  mode : ℕ
  prefillGrouped : Bool
  bmShrink : ℕ
  bmShrink_pos : 0 < bmShrink

/-- vLLM's mapping of a step: the adapter id of every token, `0` for none. -/
structure LoRAMapping where
  indexMapping : List ℤ
  isPrefill : Bool

/-- `tilesNumel` is the length of `_tile_seg` and `_tile_m`, `0` when there are
none yet. -/
structure SegmentedPunicaWrapper where
  tokenLoraIndices : List ℤ
  isPrefill : Bool
  seg : SegTable
  tileCap : ℕ
  tiles : TileMap
  tilesNumel : ℕ
  prefillOk : Bool

/-- `(BLOCK_N, BLOCK_K, SPLIT_K, num_warps)`. -/
def tiledShrinkCfg (rank : ℕ) : ℕ × ℕ × ℕ × ℕ :=
  if 128 ≤ rank then (32, 64, 4, 4)
  else if 64 ≤ rank then (16, 64, 8, 4)
  else (16, 64, 16, 4)

/-- `(BLOCK_N, BLOCK_K, num_warps)`. -/
def tiledExpandCfg (rank : ℕ) : ℕ × ℕ × ℕ :=
  if 128 ≤ rank then (64, 32, 4) else (128, min rank 32, 4)

namespace SegmentedPunicaWrapper

variable (cfg : SegGemmConfig) (w : SegmentedPunicaWrapper)

/-- vLLM's own `update_metadata`, as far as the tables read what it sets. -/
def updateBaseMetadata (idx : List ℤ) (mapping : LoRAMapping) : SegmentedPunicaWrapper :=
  { w with tokenLoraIndices := idx, isPrefill := mapping.isPrefill }

/-- `_refresh_segments`, with the order of its scatter. -/
def refreshSegments (nLoras : ℕ) (order : List ℕ) : SegmentedPunicaWrapper :=
  { w with seg := AdapterSlots.refreshSegments nLoras w.tokenLoraIndices order }

/-- `_refresh_tiles`. -/
def refreshTiles (nLoras : ℕ) : SegmentedPunicaWrapper :=
  let need := tileNeed cfg.bmShrink nLoras
  { w with
    tileCap := AdapterSlots.tileCap cfg.bmShrink w.tokenLoraIndices.length nLoras
    tiles := AdapterSlots.refreshTiles w.seg nLoras cfg.bmShrink w.tilesNumel w.tiles
    tilesNumel := if w.tilesNumel < need then need else w.tilesNumel }

/-- `idx` is what vLLM makes of the mapping. -/
def updateMetadata (mapping : LoRAMapping) (maxLoras : ℕ) (idx : List ℤ) (order : List ℕ) :
    SegmentedPunicaWrapper :=
  let w := { w.updateBaseMetadata idx mapping with prefillOk := false }
  if !mapping.isPrefill then
    let w := w.refreshSegments maxLoras order
    if 2 ≤ cfg.mode then w.refreshTiles cfg maxLoras else w
  else if cfg.mode = 3 ∧ cfg.prefillGrouped then
    let ids := mapping.indexMapping
    let n := ids.length
    if 0 < n ∧ n ≤ tileMapTokens then
      if countRuns ids ≤ maxLoras then
        { (w.refreshSegments maxLoras order).refreshTiles cfg maxLoras with prefillOk := true }
      else w
    else w
  else w

/-- `SK`: a prefill step does not split the reduction. -/
def splitK (r : ℕ) : ℕ := if w.isPrefill then 1 else (tiledShrinkCfg r).2.2.1

/-- The programs of the two launches for `ns` slices of width `nOut` and rank `r`. -/
def shrinkGrid (ns r : ℕ) : List (ℕ × ℕ × ℕ) :=
  grid w.tileCap (cdiv r (tiledShrinkCfg r).1) (ns * w.splitK r)

def expandGrid (ns nOut r : ℕ) : List (ℕ × ℕ × ℕ) :=
  grid w.tileCap (cdiv nOut (tiledExpandCfg r).1) ns

/-- The block sizes of `add_lora_packed_nslice`. -/
def blocks {r : ℕ} (hr : 0 < r) : Blocks where
  blockM := cfg.bmShrink
  blockN := (tiledShrinkCfg r).1
  blockK := (tiledShrinkCfg r).2.1
  splitK := w.splitK r
  blockN2 := (tiledExpandCfg r).1
  blockK2 := (tiledExpandCfg r).2.1
  pos := by
    refine ⟨cfg.bmShrink_pos, ?_⟩
    unfold splitK tiledShrinkCfg tiledExpandCfg
    split_ifs <;> simp [hr]

end SegmentedPunicaWrapper

/-! ## The host test -/

/-- Adapter ids and their slots change at the same tokens. -/
theorem countRuns_map {slot : ℤ → ℤ} {ids : List ℤ}
    (hslot : ∀ a ∈ ids, ∀ b ∈ ids, slot a = slot b → a = b) :
    countRuns (ids.map slot) = countRuns ids := by
  unfold countRuns
  rw [← List.map_tail, List.zip_map, List.countP_map]
  refine congrArg _ (List.countP_congr fun p hp => ?_)
  obtain ⟨ha, hb⟩ := List.of_mem_zip (a := p.1) (b := p.2) hp
  have hiff : slot p.1 = slot p.2 ↔ p.1 = p.2 :=
    ⟨hslot _ ha _ (List.mem_of_mem_tail hb), congrArg slot⟩
  simp [hiff]

/-- `[a, b)` is a maximal run of one id. -/
structure IsRun (ids : List ℤ) (a b : ℕ) : Prop where
  lt : a < b
  le : b ≤ ids.length
  same : ∀ i, a ≤ i → i < b → ids[i]? = ids[a]?
  first : a = 0 ∨ ids[a - 1]? ≠ ids[a]?
  last : ids[b]? ≠ ids[a]?

/-- The slots of a table split the tokens into maximal runs, and each carries the
slot of its run's adapter. -/
structure SplitsIntoRuns (T : SegTable) (nLoras : ℕ) (ids : List ℤ) (slot : ℤ → ℤ) : Prop where
  covered : ∀ i < ids.length, ∃! s, s < nLoras ∧ T.Covers s i
  inside : ∀ s i, T.Covers s i → i < ids.length
  isRun : ∀ s, 0 < T.len s → IsRun ids (T.start s) (T.start s + T.len s)
  lora : ∀ s i, T.Covers s i → ids[i]?.map slot = some (T.lora s)

section Runs

variable {nLoras : ℕ} {ids idx : List ℤ} {slot : ℤ → ℤ} {order : List ℕ}

theorem tokenLora_map (i : ℕ) :
    tokenLora (ids.map slot) i = (ids[i]?.map slot).getD (-1) := by
  simp [tokenLora, List.getD_eq_getElem?_getD]

/-- A token with the id of the one before it is in its run. -/
theorem runOf_eq_of_id_eq {i : ℕ} (h : ids[i + 1]? = ids[i]?) :
    runOf (ids.map slot) (i + 1) = runOf (ids.map slot) i := by
  have hlora : tokenLora (ids.map slot) (i + 1) = tokenLora (ids.map slot) i := by
    rw [tokenLora_map, tokenLora_map, h]
  rw [runOf_succ, if_pos hlora, Nat.add_zero]

/-- With no more runs than slots a slot goes on as long as the id does. -/
theorem covers_succ_iff (hruns : countRuns (ids.map slot) ≤ nLoras) {s i : ℕ}
    (hi : i + 1 < ids.length) (h : ids[i + 1]? = ids[i]?) :
    (refreshSegments nLoras (ids.map slot) order).Covers s (i + 1)
      ↔ (refreshSegments nLoras (ids.map slot) order).Covers s i := by
  have hlen : (ids.map slot).length = ids.length := List.length_map ..
  rw [covers_iff, covers_iff, segId_eq_runOf hruns (by omega), segId_eq_runOf hruns (by omega),
    runOf_eq_of_id_eq h, hlen]
  exact and_congr_left fun _ => iff_of_true hi (by omega)

/-- An interval of tokens of one id, which goes on in both directions as long as the
id does, is a maximal run. -/
theorem isRun_of_covers {T : SegTable} {s : ℕ} (hpos : 0 < T.len s)
    (hlt : ∀ i, T.Covers s i → i < ids.length)
    (hsame : ∀ i j, T.Covers s i → T.Covers s j → ids[i]? = ids[j]?)
    (hnext : ∀ i, i + 1 < ids.length → ids[i + 1]? = ids[i]? →
      (T.Covers s (i + 1) ↔ T.Covers s i)) :
    IsRun ids (T.start s) (T.start s + T.len s) := by
  have hin : ∀ i, T.Covers s i ↔ T.start s ≤ i ∧ i < T.start s + T.len s := fun i => Iff.rfl
  obtain ⟨n, hn⟩ : ∃ n, T.len s = n + 1 := ⟨T.len s - 1, by omega⟩
  have hfirst : T.Covers s (T.start s) := (hin _).mpr ⟨Nat.le_refl _, by omega⟩
  have hend : T.Covers s (T.start s + n) := (hin _).mpr ⟨by omega, by omega⟩
  have hle : T.start s + n < ids.length := hlt _ hend
  rw [hn, ← Nat.add_assoc]
  refine ⟨by omega, hle, fun i hlo hhi => hsame _ _ ((hin i).mpr ⟨hlo, by omega⟩) hfirst, ?_, ?_⟩
  · cases hstart : T.start s with
    | zero => exact .inl rfl
    | succ a =>
        rw [hstart] at hfirst
        refine .inr fun heq => ?_
        have hback := (hnext a (hlt _ hfirst) heq.symm).mp hfirst
        have := ((hin a).mp hback).1
        omega
  · intro heq
    rcases Nat.lt_or_ge (T.start s + n + 1) ids.length with hlast | hover
    · have hforth := (hnext _ hlast (heq.trans (hsame _ _ hfirst hend))).mpr hend
      have := ((hin _).mp hforth).2
      omega
    · rw [List.getElem?_eq_none hover, List.getElem?_eq_getElem (hlt _ hfirst)] at heq
      cases heq

/-- Tokens of one slot of the table have one id. -/
theorem id_eq_of_covers (hslot : ∀ a ∈ ids, ∀ b ∈ ids, slot a = slot b → a = b)
    (hruns : countRuns (ids.map slot) ≤ nLoras)
    (hperm : order.Perm (List.range (ids.map slot).length)) {s i j : ℕ}
    (hi : (refreshSegments nLoras (ids.map slot) order).Covers s i)
    (hj : (refreshSegments nLoras (ids.map slot) order).Covers s j) : ids[i]? = ids[j]? := by
  have hlen : (ids.map slot).length = ids.length := List.length_map ..
  have hi' : i < ids.length := hlen ▸ (covers_iff.mp hi).1
  have hj' : j < ids.length := hlen ▸ (covers_iff.mp hj).1
  have heq := (lora_eq_of_covers hruns hperm hi).symm.trans (lora_eq_of_covers hruns hperm hj)
  rw [tokenLora_map, tokenLora_map, List.getElem?_eq_getElem hi',
    List.getElem?_eq_getElem hj'] at heq
  rw [List.getElem?_eq_getElem hi', List.getElem?_eq_getElem hj']
  exact congrArg some (hslot _ (List.getElem_mem hi') _ (List.getElem_mem hj') heq)

theorem splitsIntoRuns (hpos : 0 < nLoras)
    (hslot : ∀ a ∈ ids, ∀ b ∈ ids, slot a = slot b → a = b) (hruns : countRuns ids ≤ nLoras)
    (hperm : order.Perm (List.range (ids.map slot).length)) :
    SplitsIntoRuns (refreshSegments nLoras (ids.map slot) order) nLoras ids slot := by
  rw [← countRuns_map hslot] at hruns
  have hlen : (ids.map slot).length = ids.length := List.length_map ..
  have hlt : ∀ s i, (refreshSegments nLoras (ids.map slot) order).Covers s i → i < ids.length :=
    fun s i h => hlen ▸ (covers_iff.mp h).1
  refine ⟨fun i hi => ?_, hlt, fun s hs => ?_, fun s i h => ?_⟩
  · refine ⟨segId nLoras (ids.map slot) i, ⟨segId_lt hpos i, covers_iff.mpr ⟨?_, rfl⟩⟩, ?_⟩
    · rw [hlen]
      exact hi
    · rintro s ⟨-, hs⟩
      exact (covers_iff.mp hs).2.symm
  · exact isRun_of_covers hs (hlt s) (fun i j => id_eq_of_covers hslot hruns hperm)
      fun i => covers_succ_iff hruns
  · rw [lora_eq_of_covers hruns hperm h, tokenLora_map, List.getElem?_eq_getElem (hlt s i h)]
    rfl

end Runs

/-! ## The launched tiles -/

namespace TileMap

/-- Entry `pid` names a tile with token `i`. -/
def Holds (tiles : TileMap) (T : SegTable) (blockM pid i : ℕ) : Prop :=
  ∃ s : ℕ, tiles.seg pid = s ∧ T.start s + tiles.m pid * blockM ≤ i
    ∧ i < T.start s + tiles.m pid * blockM + blockM ∧ i < T.start s + T.len s

end TileMap

/-- Of the first `cap` entries exactly one holds a token of a slot, and it names that
slot. -/
def HoldsOnce (T : SegTable) (tiles : TileMap) (nLoras blockM cap : ℕ) : Prop :=
  ∀ s < nLoras, ∀ i, T.Covers s i →
    (∃! pid, pid < cap ∧ tiles.Holds T blockM pid i)
      ∧ ∀ pid < cap, tiles.Holds T blockM pid i → tiles.seg pid = s

section Tiles

variable {nLoras blockM : ℕ} {idx : List ℤ} {T : SegTable} {tiles : TileMap}

/-- Only one launched entry holds a token. -/
theorem Tables.holds_unique (hM : 0 < blockM) (h : Tables nLoras blockM idx T tiles) {pid i : ℕ}
    (hcap : pid < tileCap blockM idx.length nLoras) (hold : tiles.Holds T blockM pid i) :
    pid = rowPid T nLoras blockM idx i ∧ tiles.seg pid = segId nLoras idx i := by
  obtain ⟨s, hs, hlo, hhi, hend⟩ := hold
  obtain ⟨s', hs', hseg', -, hpid⟩ := h.inv pid hcap (by omega)
  obtain rfl : s' = s := by omega
  obtain ⟨-, hrun⟩ := (h.covers s' i).mp ⟨by omega, hend⟩
  have hm : tiles.m pid = (i - T.start s') / blockM := (tile_eq_iff hM).mp ⟨by omega, by omega⟩
  refine ⟨?_, by rw [hs, hrun]⟩
  rw [rowPid, hrun, ← hm]
  exact hpid

/-- The entry of a token's tile is launched. -/
theorem Tables.holds_rowPid (hM : 0 < blockM) (hpos : 0 < nLoras)
    (h : Tables nLoras blockM idx T tiles) {i : ℕ} (hi : i < idx.length) :
    rowPid T nLoras blockM idx i < tileCap blockM idx.length nLoras
      ∧ tiles.Holds T blockM (rowPid T nLoras blockM idx i) i := by
  obtain ⟨hlo, hhi⟩ : T.Covers (segId nLoras idx i) i := (h.covers _ i).mpr ⟨hi, rfl⟩
  have hs : segId nLoras idx i < nLoras := segId_lt hpos i
  unfold rowPid
  generalize segId nLoras idx i = s at hlo hhi hs
  obtain ⟨hle, hlt⟩ := (tile_eq_iff (q := i - T.start s) hM).mpr rfl
  have hm : (i - T.start s) / blockM < T.ntiles blockM s := (lt_cdiv_iff hM).mpr (by omega)
  obtain ⟨hcap, hseg, htile⟩ := h.entry s hs _ hm
  refine ⟨hcap, s, hseg, ?_, ?_, hhi⟩ <;> rw [htile] <;> omega

theorem Tables.holdsOnce (hM : 0 < blockM) (hpos : 0 < nLoras)
    (h : Tables nLoras blockM idx T tiles) :
    HoldsOnce T tiles nLoras blockM (tileCap blockM idx.length nLoras) := by
  intro s _ i hcov
  obtain ⟨hi, hs⟩ := (h.covers s i).mp hcov
  obtain ⟨hcap, hold⟩ := h.holds_rowPid hM hpos hi
  refine ⟨⟨rowPid T nLoras blockM idx i, ⟨hcap, hold⟩, ?_⟩, fun pid hpid hold' => ?_⟩
  · rintro pid ⟨hpid, hold'⟩
    exact (h.holds_unique hM hpid hold').1
  · rw [(h.holds_unique hM hpid hold').2, hs]

end Tiles

/-! ## What the launches store and load -/

/-- The mask of the store that ends `_tiled_shrink_ms_kernel`. -/
def shrinkStores (N : ℕ) (T : SegTable) (tiles : TileMap) (blockM blockN splitK : ℕ)
    (pid : ℕ × ℕ × ℕ) (c : ℕ × ℕ) : Prop :=
  match workTile T tiles blockM pid.1 with
  | none => False
  | some w => InBlock w blockM pid.2.1 blockN N (pid.2.2 / splitK * N) c.1 c.2

/-- The buffer elements a program of `_tiled_expand_ms_kernel` loads, for the rows of
its block that are masked out, too: row `i` of the block is read modulo the
segment length, `kk` is the place in block `k` of the reduction. -/
def expandLoads (K : ℕ) (T : SegTable) (tiles : TileMap) (blockM blockK : ℕ)
    (pid : ℕ × ℕ × ℕ) (c : ℕ × ℕ) : Prop :=
  match workTile T tiles blockM pid.1 with
  | none => False
  | some w => ∃ i < blockM, ∃ k < cdiv K blockK, ∃ kk < blockK,
      (K % blockK = 0 ∨ kk < K - k * blockK)
        ∧ c = (w.start + (i + w.m * blockM) % w.len, kk + k * blockK + pid.2.2 * K)

section Accesses

variable {R : Type} [CommRing R] {N K : ℕ} {T : SegTable} {tiles : TileMap}
  {blockM blockN blockK : ℕ} {pid : ℕ × ℕ × ℕ} {c : ℕ × ℕ}

/-- Without a split a program overwrites what it stores and leaves the rest. -/
theorem tiledShrinkMs_stores (x : ℕ → ℕ → R) (A : Weights R) (scale v v' : R) :
    (shrinkStores N T tiles blockM blockN 1 pid c →
      tiledShrinkMs x A N K T tiles scale blockM blockN blockK 1 pid c v
        = tiledShrinkMs x A N K T tiles scale blockM blockN blockK 1 pid c v')
      ∧ (¬ shrinkStores N T tiles blockM blockN 1 pid c →
        tiledShrinkMs x A N K T tiles scale blockM blockN blockK 1 pid c v = v) := by
  unfold shrinkStores tiledShrinkMs
  cases hw : workTile T tiles blockM pid.1 with
  | none => exact ⟨fun h => h.elim, fun _ => rfl⟩
  | some w =>
      simp only
      constructor
      · intro h
        simp only [if_pos h, if_true]
      · intro h
        exact if_neg h

/-- An expand program sees of the buffer what it loads. -/
theorem tiledExpandMs_congr {buf buf' : ℕ × ℕ → R}
    (h : ∀ e, expandLoads K T tiles blockM blockK pid e → buf e = buf' e) (B : Weights R)
    (yoff0 yoff1 yoff2 : ℕ) (v : R) :
    tiledExpandMs buf B N K T tiles yoff0 yoff1 yoff2 blockM blockN blockK pid c v
      = tiledExpandMs buf' B N K T tiles yoff0 yoff1 yoff2 blockM blockN blockK pid c v := by
  unfold expandLoads at h
  unfold tiledExpandMs
  cases hw : workTile T tiles blockM pid.1 with
  | none => rfl
  | some w =>
      simp only [hw] at h
      simp only
      split
      · rename_i hin
        obtain ⟨⟨hlo, hhi, hend⟩, -⟩ := hin
        refine congrArg (· + v) (Finset.sum_congr rfl fun k hk => Finset.sum_congr rfl ?_)
        intro kk hkk
        simp only [Nat.zero_add]
        split
        · rename_i hmask
          have hload := h _ ⟨c.1 - (w.start + w.m * blockM), by omega, k, Finset.mem_range.mp hk,
            kk, Finset.mem_range.mp hkk, hmask, rfl⟩
          rw [hload]
        · rfl
      · rfl

end Accesses

section Written

variable {nLoras blockM : ℕ} {idx : List ℤ} {T : SegTable} {tiles : TileMap}

/-- A program that works has a segment with tokens of its adapter. -/
theorem Tables.workTile_covers (h : Tables nLoras blockM idx T tiles) {pidT : ℕ} {w : WorkTile}
    (hw : workTile T tiles blockM pidT = some w) {row : ℕ} (hlo : w.start ≤ row)
    (hhi : row < w.start + w.len) : row < idx.length ∧ tokenLora idx row ≠ -1 := by
  obtain ⟨s, -, hlora, -, rfl⟩ := workTile_some hw
  have hcov : T.Covers s row := ⟨hlo, hhi⟩
  exact ⟨((h.covers s row).mp hcov).1, h.lora s row hcov ▸ hlora⟩

theorem workTile_len_pos {pidT : ℕ} {w : WorkTile}
    (hw : workTile T tiles blockM pidT = some w) : 0 < w.len := by
  obtain ⟨s, -, -, hm, rfl⟩ := workTile_some hw
  exact Nat.lt_of_le_of_lt (Nat.zero_le _) hm

/-- Every buffer element an expand program loads is stored by a shrink program: the
row is one of a segment with an adapter, and the shrink launch goes over all
columns of all slices. -/
theorem Tables.stores_of_loads (hM : 0 < blockM) (hpos : 0 < nLoras)
    (h : Tables nLoras blockM idx T tiles) {blockN blockK r ns nBlocks : ℕ} (hN : 0 < blockN)
    {pid : ℕ × ℕ × ℕ} (hpid : pid ∈ grid (tileCap blockM idx.length nLoras) nBlocks ns)
    {c : ℕ × ℕ} (hload : expandLoads r T tiles blockM blockK pid c) :
    ∃ p ∈ grid (tileCap blockM idx.length nLoras) (cdiv r blockN) (ns * 1),
      shrinkStores r T tiles blockM blockN 1 p c := by
  obtain ⟨-, -, hsid⟩ := mem_grid.mp hpid
  unfold expandLoads at hload
  cases hw : workTile T tiles blockM pid.1 with
  | none => simp only [hw] at hload
  | some w =>
      simp only [hw] at hload
      obtain ⟨i, -, k, hk, kk, hkk, hmask, rfl⟩ := hload
      -- the column is one of the slice's
      have hq : kk + k * blockK < r := by
        have hstep : 0 < blockK * 1 := by omega
        rw [← Nat.mul_one blockK] at hk
        have hiff : (r % (blockK * 1) = 0 ∨ 0 * blockK + kk < r - k * (blockK * 1))
            ↔ k * (blockK * 1) + (0 * blockK + kk) < r := mask_iff hstep Nat.one_pos hk hkk
        rw [Nat.mul_one, Nat.zero_mul, Nat.zero_add] at hiff
        exact Nat.add_comm kk _ ▸ hiff.mp hmask
      have hmod := Nat.mod_lt (i + w.m * blockM) (workTile_len_pos hw)
      obtain ⟨hrow, hlora⟩ := h.workTile_covers hw (Nat.le_add_right w.start _)
        (Nat.add_lt_add_left hmod w.start)
      generalize w.start + (i + w.m * blockM) % w.len = row at hrow hlora
      refine ⟨_, own_mem_grid hM hpos h hN hq hrow hlora hsid Nat.one_pos, ?_⟩
      obtain ⟨-, hown⟩ := h.workTile_rowPid hM hpos hrow hlora
      unfold shrinkStores
      simp only [hown, Nat.mul_one, Nat.add_zero, Nat.div_one]
      rw [Nat.add_comm (kk + k * blockK)]
      exact (inBlock_iff hN hq).mpr ⟨h.hasRow hM hrow, rfl, rfl⟩

end Written

/-! ## The gate -/

namespace SegmentedPunicaWrapper

variable {cfg : SegGemmConfig} {w : SegmentedPunicaWrapper} {mapping : LoRAMapping}
  {maxLoras : ℕ} {idx : List ℤ} {order : List ℕ}

/-- What `_prefill_ok` stands for. -/
theorem updateMetadata_prefill (hpre : mapping.isPrefill = true)
    (hok : (w.updateMetadata cfg mapping maxLoras idx order).prefillOk = true) :
    mapping.indexMapping.length ≤ tileMapTokens ∧ countRuns mapping.indexMapping ≤ maxLoras
      ∧ w.updateMetadata cfg mapping maxLoras idx order
        = { (({ w.updateBaseMetadata idx mapping with prefillOk := false }).refreshSegments maxLoras
            order).refreshTiles cfg maxLoras with prefillOk := true } := by
  unfold updateMetadata at hok ⊢
  simp only [hpre, Bool.not_true, Bool.false_eq_true, if_false] at hok ⊢
  split at hok
  · rename_i hmode
    split at hok
    · rename_i hn
      split at hok
      · rename_i hruns
        rw [if_pos hmode, if_pos hn, if_pos hruns]
        exact ⟨hn.2, hruns, rfl⟩
      · cases hok
    · cases hok
  · cases hok

/-- The work list never gets too short for its launches. -/
theorem tileNeed_le_tilesNumel (w : SegmentedPunicaWrapper) :
    tileNeed cfg.bmShrink maxLoras ≤ (w.refreshTiles cfg maxLoras).tilesNumel := by
  unfold refreshTiles
  simp only
  split <;> omega

theorem blockN_pos (r : ℕ) : 0 < (tiledShrinkCfg r).1 := by
  unfold tiledShrinkCfg
  split_ifs <;> decide

/-- What a prefill step with `_prefill_ok` has: tables that fit its mapping, for
every number, width and rank of the slices of a call. -/
structure PrefillReady (cfg : SegGemmConfig) (w : SegmentedPunicaWrapper) (ids : List ℤ)
    (nLoras : ℕ) (slot : ℤ → ℤ) : Prop where
  splits : SplitsIntoRuns w.seg nLoras ids slot
  once : HoldsOnce w.seg w.tiles nLoras cfg.bmShrink w.tileCap
  fits : w.tileCap ≤ w.tilesNumel
  noSplit : ∀ r, w.splitK r = 1
  written : ∀ ns nOut r, ∀ pid ∈ w.expandGrid ns nOut r, ∀ c,
    expandLoads r w.seg w.tiles cfg.bmShrink (tiledExpandCfg r).2.1 pid c →
      ∃ p ∈ w.shrinkGrid ns r, shrinkStores r w.seg w.tiles cfg.bmShrink (tiledShrinkCfg r).1
        (w.splitK r) p c

/-- **The prefill gate is sound.** Whatever the wrapper held before, when its test
lets a prefill step through, the segments are the adapter runs with their
slots, the launched entries hold every token once and lie inside the list, and
the expand launch loads nothing that the shrink launch did not store. -/
theorem prefill_gate_sound (cfg : SegGemmConfig) (w : SegmentedPunicaWrapper)
    (mapping : LoRAMapping) (maxLoras : ℕ) (slot : ℤ → ℤ) (order : List ℕ)
    (hmax : 1 ≤ maxLoras) (hpre : mapping.isPrefill = true)
    (hslot : ∀ a ∈ mapping.indexMapping, ∀ b ∈ mapping.indexMapping, slot a = slot b → a = b)
    (horder : order.Perm (List.range mapping.indexMapping.length))
    (hok : (w.updateMetadata cfg mapping maxLoras (mapping.indexMapping.map slot) order).prefillOk
      = true) :
    PrefillReady cfg (w.updateMetadata cfg mapping maxLoras (mapping.indexMapping.map slot) order)
      mapping.indexMapping maxLoras slot := by
  obtain ⟨hn, hruns, heq⟩ := updateMetadata_prefill hpre hok
  have hlen : (mapping.indexMapping.map slot).length = mapping.indexMapping.length :=
    List.length_map ..
  have hsplits := splitsIntoRuns hmax hslot hruns (hlen ▸ horder)
  rw [← countRuns_map hslot] at hruns
  rw [heq]
  have htab : Tables maxLoras cfg.bmShrink (mapping.indexMapping.map slot)
      (AdapterSlots.refreshSegments maxLoras (mapping.indexMapping.map slot) order)
      (AdapterSlots.refreshTiles
        (AdapterSlots.refreshSegments maxLoras (mapping.indexMapping.map slot) order) maxLoras
        cfg.bmShrink w.tilesNumel w.tiles) :=
    tables_of_refresh cfg.bmShrink_pos hmax (hlen ▸ hn) hruns (hlen ▸ horder)
  refine ⟨hsplits, htab.holdsOnce cfg.bmShrink_pos hmax, ?_, fun r => if_pos hpre, ?_⟩
  · refine Nat.le_trans ?_ (tileNeed_le_tilesNumel _)
    exact tileCap_le_tileNeed (hlen ▸ hn)
  · intro ns nOut r pid hpid c hload
    have hone : ∀ u : SegmentedPunicaWrapper, u.isPrefill = true → u.splitK r = 1 := fun u hu =>
      if_pos hu
    unfold shrinkGrid
    rw [hone _ hpre]
    exact htab.stores_of_loads cfg.bmShrink_pos hmax (blockN_pos r) hpid hload

/-- The result of a call does not depend on what its buffer held. -/
theorem PrefillReady.ignores_garbage {R : Type} [CommRing R] {ids : List ℤ} {nLoras : ℕ}
    {slot : ℤ → ℤ} (h : PrefillReady cfg w ids nLoras slot) {ns nOut r K : ℕ} (hr : 0 < r)
    {shrinkOrder expandOrder : List (ℕ × ℕ × ℕ)} (hshrink : shrinkOrder.Perm (w.shrinkGrid ns r))
    (hexpand : expandOrder.Perm (w.expandGrid ns nOut r)) (y : ℕ × ℕ → R) (x : ℕ → ℕ → R)
    (A B : Weights R) (scale : R) (garbage garbage' : ℕ × ℕ → R) :
    addLoraPackedNslice y x A B scale ns nOut r K w.seg w.tiles (w.blocks cfg hr) garbage
        shrinkOrder expandOrder
      = addLoraPackedNslice y x A B scale ns nOut r K w.seg w.tiles (w.blocks cfg hr) garbage'
        shrinkOrder expandOrder := by
  funext c
  refine launch_congr (fun pid hpid v => ?_) rfl
  refine tiledExpandMs_congr (fun e hload => ?_) B _ _ _ v
  obtain ⟨p, hp, hstores⟩ := h.written ns nOut r pid (hexpand.mem_iff.mp hpid) e hload
  have hsplit : (w.blocks cfg hr).splitK = 1 := h.noSplit r
  rw [h.noSplit r] at hstores
  rw [hsplit]
  exact launch_overwritten (fun v v' => (tiledShrinkMs_stores x A scale v v').1 hstores) _ _
    (hshrink.mem_iff.mpr hp)

/-! ### Four tokens -/

/-- The wrapper as vLLM builds it. -/
def fresh : SegmentedPunicaWrapper where
  tokenLoraIndices := []
  isPrefill := false
  seg := ⟨fun _ => 0, fun _ => 0, fun _ => -1⟩
  tileCap := 0
  tiles := ⟨fun _ => -1, fun _ => 0⟩
  tilesNumel := 0
  prefillOk := false

/-- Adapters 5 and 7 in slots 2 and 0. -/
def twoSlots (a : ℤ) : ℤ := if a = 0 then -1 else if a = 5 then 2 else 0

/-- Three runs, one of them without an adapter, in tiles of two rows. -/
theorem threeRuns_ready :
    PrefillReady ⟨3, true, 2, Nat.two_pos⟩
      (fresh.updateMetadata ⟨3, true, 2, Nat.two_pos⟩ ⟨[5, 5, 0, 7], true⟩ 4
        ([5, 5, 0, 7].map twoSlots) [3, 1, 0, 2]) [5, 5, 0, 7] 4 twoSlots :=
  prefill_gate_sound _ fresh ⟨[5, 5, 0, 7], true⟩ 4 twoSlots [3, 1, 0, 2] (by decide) rfl
    (by decide) (by decide) (by decide)

end SegmentedPunicaWrapper

end AdapterSlots
