import Mathlib.Data.Int.ConditionallyCompleteOrder
import Mathlib.Data.Prod.Lex
import AdapterSlots.Lib.Launch
import AdapterSlots.Segments

/-!
# The tile work list

`build_tile_map` cuts every segment into tiles of `block_m` rows and lists
them, segment after segment: entry `pos` names the segment that owns the
tile (found by a search in the cumulative tile counts) and the tile's
number in it. Entries behind the last tile carry segment `-1`.

`_refresh_tiles` sizes the list for the largest batch, once; a launch reads
its first `_tile_cap` entries. `tileMap_inv` and `tileMap_of` say that the
valid entries and the tiles correspond one to one, `totalTiles_le_tileCap`
that no tile is behind the launched entries. `tileList_spec` puts this
together for any table: the list is the lexicographic enumeration of the
tiles, cut off at its capacity.
-/

namespace AdapterSlots

open Lib

/-- `tile_seg` and `tile_m`, by position. -/
structure TileMap where
  seg : ℕ → ℤ
  m : ℕ → ℕ

namespace SegTable

variable (T : SegTable)

/-- `ntiles`: the tiles of a segment. -/
def ntiles (blockM s : ℕ) : ℕ := (T.len s + blockM - 1) / blockM

/-- `cum = torch.cumsum(ntiles, 0)`. -/
def cum (blockM s : ℕ) : ℕ := ∑ j ∈ Finset.range (s + 1), T.ntiles blockM j

/-- `starts = cum - ntiles`. -/
def starts (blockM s : ℕ) : ℕ := T.cum blockM s - T.ntiles blockM s

/-- `torch.searchsorted(cum, pos, right=True)`: how many entries of the sorted
`cum` are at most `pos`. -/
def segOf (blockM nSeg pos : ℕ) : ℕ := Nat.count (fun s => T.cum blockM s ≤ pos) nSeg

end SegTable

/-- The first `maxTiles` entries of the list; memory behind them stays as it
was. -/
def buildTileMap (T : SegTable) (nSeg blockM maxTiles : ℕ) (old : TileMap) : TileMap where
  seg pos :=
    if pos < maxTiles then
      if pos < T.cum blockM (nSeg - 1) then (min (T.segOf blockM nSeg pos) (nSeg - 1) : ℕ) else -1
    else old.seg pos
  m pos :=
    if pos < maxTiles then
      if pos < T.cum blockM (nSeg - 1)
      then pos - T.starts blockM (min (T.segOf blockM nSeg pos) (nSeg - 1)) else 0
    else old.m pos

/-- `_TILE_MAP_TOKENS`. -/
def tileMapTokens : ℕ := 8192

/-- `_tile_cap`: the grid size for a batch of `nTok` tokens. -/
def tileCap (blockM nTok nLoras : ℕ) : ℕ := (nTok + blockM - 1) / blockM + nLoras + 1

/-- `need`: the capacity of the list. -/
def tileNeed (blockM nLoras : ℕ) : ℕ := (tileMapTokens + blockM - 1) / blockM + nLoras + 1

/-- `_refresh_tiles`: `numel` is the length of the list so far, `0` when there
is none; a list that is too short is allocated anew. -/
def refreshTiles (T : SegTable) (nLoras blockM numel : ℕ) (old : TileMap) : TileMap :=
  buildTileMap T nLoras blockM
    (if numel < tileNeed blockM nLoras then tileNeed blockM nLoras else numel) old

section TileMap

variable {T : SegTable} {nSeg blockM maxTiles : ℕ} {old : TileMap}

/-- The number of all tiles. -/
def totalTiles (T : SegTable) (blockM nSeg : ℕ) : ℕ :=
  ∑ s ∈ Finset.range nSeg, T.ntiles blockM s

theorem starts_eq (s : ℕ) :
    T.starts blockM s = ∑ j ∈ Finset.range s, T.ntiles blockM j := by
  rw [SegTable.starts, SegTable.cum, Finset.sum_range_succ, Nat.add_sub_cancel]

theorem cum_last (hpos : 0 < nSeg) : T.cum blockM (nSeg - 1) = totalTiles T blockM nSeg := by
  rw [SegTable.cum, totalTiles, Nat.sub_add_cancel hpos]

/-- A valid entry names a tile of its segment. -/
theorem tileMap_inv (hpos : 0 < nSeg) {pos : ℕ} (hmax : pos < maxTiles)
    (h : 0 ≤ (buildTileMap T nSeg blockM maxTiles old).seg pos) :
    ∃ s < nSeg, (buildTileMap T nSeg blockM maxTiles old).seg pos = s
      ∧ (buildTileMap T nSeg blockM maxTiles old).m pos < T.ntiles blockM s
      ∧ pos = T.starts blockM s + (buildTileMap T nSeg blockM maxTiles old).m pos := by
  simp only [buildTileMap, if_pos hmax, cum_last hpos] at h ⊢
  split at h
  · rename_i hvalid
    obtain ⟨hlt, hle, hnext⟩ := search_spec (f := T.ntiles blockM) hvalid
    have hclamp : min (T.segOf blockM nSeg pos) (nSeg - 1) = T.segOf blockM nSeg pos :=
      Nat.min_eq_left (by unfold SegTable.segOf SegTable.cum; omega)
    refine ⟨T.segOf blockM nSeg pos, hlt, ?_⟩
    rw [if_pos hvalid, if_pos hvalid, hclamp, starts_eq]
    rw [Finset.sum_range_succ] at hnext
    unfold SegTable.segOf SegTable.cum
    exact ⟨rfl, by omega, by omega⟩
  · omega

/-- Every tile has its entry. -/
theorem tileMap_of (hpos : 0 < nSeg) {s m : ℕ} (hs : s < nSeg) (hm : m < T.ntiles blockM s)
    (hmax : T.starts blockM s + m < maxTiles) :
    (buildTileMap T nSeg blockM maxTiles old).seg (T.starts blockM s + m) = s
      ∧ (buildTileMap T nSeg blockM maxTiles old).m (T.starts blockM s + m) = m := by
  have hlast : T.starts blockM s + m < ∑ j ∈ Finset.range (s + 1), T.ntiles blockM j := by
    rw [starts_eq, Finset.sum_range_succ]
    omega
  have hvalid : T.starts blockM s + m < totalTiles T blockM nSeg :=
    Nat.lt_of_lt_of_le hlast (prefixSum_mono hs)
  have hseg : T.segOf blockM nSeg (T.starts blockM s + m) = s := by
    obtain ⟨-, hle, hnext⟩ := search_spec (f := T.ntiles blockM) hvalid
    refine prefixSum_unique hle hnext ?_ hlast
    rw [starts_eq]
    exact Nat.le_add_right ..
  have hclamp : min s (nSeg - 1) = s := Nat.min_eq_left (by omega)
  simp only [buildTileMap, if_pos hmax, cum_last hpos, if_pos hvalid, hseg, hclamp]
  exact ⟨trivial, by omega⟩

/-- Every segment adds at most one partial tile to the full ones. -/
theorem totalTiles_le (hM : 0 < blockM) : ∀ nSeg,
    totalTiles T blockM nSeg ≤ (∑ s ∈ Finset.range nSeg, T.len s) / blockM + nSeg
  | 0 => by simp [totalTiles]
  | nSeg + 1 => by
      have ih := totalTiles_le hM nSeg
      have hone : T.ntiles blockM nSeg ≤ T.len nSeg / blockM + 1 := by
        have hle : T.len nSeg + blockM - 1 ≤ T.len nSeg + blockM := Nat.sub_le ..
        exact (Nat.div_le_div_right hle).trans (le_of_eq (Nat.add_div_right _ hM))
      have hsplit : (∑ s ∈ Finset.range nSeg, T.len s) / blockM + T.len nSeg / blockM
          ≤ (∑ s ∈ Finset.range nSeg, T.len s + T.len nSeg) / blockM := Nat.div_add_div_le_add_div
      rw [totalTiles, Finset.sum_range_succ, Finset.sum_range_succ]
      unfold totalTiles at ih
      omega

variable {nLoras : ℕ} {idx : List ℤ} {order : List ℕ}

/-- The segments cover the batch. -/
theorem sum_len (hpos : 0 < nLoras) :
    ∑ s ∈ Finset.range nLoras, (refreshSegments nLoras idx order).len s = idx.length :=
  (sum_count_level _ _ nLoras).trans (below_eq fun i _ => segId_lt hpos i)

theorem totalTiles_le_tileCap (hM : 0 < blockM) (hpos : 0 < nLoras) :
    totalTiles (refreshSegments nLoras idx order) blockM nLoras
      ≤ tileCap blockM idx.length nLoras := by
  have hle := totalTiles_le (T := refreshSegments nLoras idx order) hM nLoras
  rw [sum_len hpos] at hle
  have hdiv : idx.length / blockM ≤ (idx.length + blockM - 1) / blockM :=
    Nat.div_le_div_right (by omega)
  unfold tileCap
  omega

/-- The launched entries are inside the list. -/
theorem tileCap_le_tileNeed {nTok : ℕ} (h : nTok ≤ tileMapTokens) :
    tileCap blockM nTok nLoras ≤ tileNeed blockM nLoras := by
  have hdiv : (nTok + blockM - 1) / blockM ≤ (tileMapTokens + blockM - 1) / blockM :=
    Nat.div_le_div_right (by omega)
  unfold tileCap tileNeed
  omega

/-! ## The list as an enumeration -/

theorem ntiles_eq_ceilDiv (s : ℕ) : T.ntiles blockM s = T.len s ⌈/⌉ blockM :=
  (Nat.ceilDiv_eq_add_pred_div _ _).symm

/-- The work items in the order `(segment, tile)`. -/
def TileMap.work (B : TileMap) (pos : ℕ) : ℤ ×ₗ ℕ := toLex (B.seg pos, B.m pos)

/-- All tiles of the first `nSeg` segments. -/
def SegTable.tiles (T : SegTable) (nSeg blockM : ℕ) : Set (ℤ ×ₗ ℕ) :=
  {w | ∃ s < nSeg, ∃ m < T.len s ⌈/⌉ blockM, w = toLex ((s : ℤ), m)}

variable (T blockM) in
theorem starts_mono : Monotone (T.starts blockM) := fun s s' h => by
  rw [starts_eq, starts_eq]
  exact prefixSum_mono h

variable (T blockM) in
theorem starts_add_ntiles (s : ℕ) :
    T.starts blockM s + T.ntiles blockM s = T.starts blockM (s + 1) := by
  rw [starts_eq, starts_eq, Finset.sum_range_succ]

variable (old) in
/-- The tile of a position before the last one. -/
theorem tileMap_valid (hpos : 0 < nSeg) {pos : ℕ}
    (h : pos < min (T.cum blockM (nSeg - 1)) maxTiles) :
    ∃ s < nSeg, (buildTileMap T nSeg blockM maxTiles old).seg pos = s
      ∧ (buildTileMap T nSeg blockM maxTiles old).m pos < T.ntiles blockM s
      ∧ pos = T.starts blockM s + (buildTileMap T nSeg blockM maxTiles old).m pos := by
  obtain ⟨hcum, hmax⟩ := lt_min_iff.mp h
  refine tileMap_inv hpos hmax ?_
  simp only [buildTileMap, if_pos hmax, if_pos hcum]
  exact Int.natCast_nonneg _

variable (T nSeg blockM maxTiles old) in
theorem work_strictMonoOn (hpos : 0 < nSeg) :
    StrictMonoOn (buildTileMap T nSeg blockM maxTiles old).work
      (Set.Iio (min (T.cum blockM (nSeg - 1)) maxTiles)) := by
  intro p hp p' hp' hlt
  obtain ⟨s, -, hseg, hm, heq⟩ := tileMap_valid old hpos hp
  obtain ⟨s', -, hseg', hm', heq'⟩ := tileMap_valid old hpos hp'
  refine Prod.Lex.toLex_lt_toLex.mpr ?_
  simp only [hseg, hseg']
  rcases Nat.lt_trichotomy s s' with hss | rfl | hss
  · exact Or.inl (by omega)
  · exact Or.inr ⟨rfl, by omega⟩
  · -- an earlier segment ends before a later one starts
    have hstarts := starts_mono T blockM (show s' + 1 ≤ s from hss)
    have hend := starts_add_ntiles T blockM s'
    omega

variable (T nSeg blockM maxTiles old) in
theorem work_mapsTo (hpos : 0 < nSeg) :
    Set.MapsTo (buildTileMap T nSeg blockM maxTiles old).work
      (Set.Iio (min (T.cum blockM (nSeg - 1)) maxTiles)) (T.tiles nSeg blockM) := by
  intro p hp
  obtain ⟨s, hs, hseg, hm, -⟩ := tileMap_valid old hpos hp
  rw [ntiles_eq_ceilDiv] at hm
  exact ⟨s, hs, _, hm, by rw [TileMap.work, hseg]⟩

theorem work_surjOn (hpos : 0 < nSeg) (hfit : T.cum blockM (nSeg - 1) ≤ maxTiles) :
    Set.SurjOn (buildTileMap T nSeg blockM maxTiles old).work
      (Set.Iio (T.cum blockM (nSeg - 1))) (T.tiles nSeg blockM) := by
  rintro w ⟨s, hs, m, hm, rfl⟩
  rw [← ntiles_eq_ceilDiv] at hm
  have hlt : T.starts blockM s + m < T.cum blockM (nSeg - 1) := by
    have hend := starts_add_ntiles T blockM s
    have hle := starts_mono T blockM (show s + 1 ≤ nSeg from hs)
    have hlast : T.cum blockM (nSeg - 1) = totalTiles T blockM nSeg := cum_last hpos
    rw [totalTiles, ← starts_eq] at hlast
    omega
  obtain ⟨hseg, hm'⟩ := @tileMap_of T nSeg blockM maxTiles old hpos s m hs hm
    (Nat.lt_of_lt_of_le hlt hfit)
  exact ⟨T.starts blockM s + m, hlt, by rw [TileMap.work, hseg, hm']⟩

/-- The entries behind the last tile. -/
theorem tileMap_padding {pos : ℕ} (hcum : T.cum blockM (nSeg - 1) ≤ pos) (hmax : pos < maxTiles) :
    (buildTileMap T nSeg blockM maxTiles old).seg pos = -1
      ∧ (buildTileMap T nSeg blockM maxTiles old).m pos = 0 := by
  simp only [buildTileMap, if_pos hmax, if_neg (Nat.not_lt.mpr hcum)]
  exact ⟨trivial, trivial⟩

theorem cum_last_le_tileCap (hM : 0 < blockM) (hpos : 0 < nSeg) :
    T.cum blockM (nSeg - 1) ≤ tileCap blockM (∑ s ∈ Finset.range nSeg, T.len s) nSeg := by
  have hle := totalTiles_le (T := T) hM nSeg
  have hdiv := Nat.div_le_div_right (c := blockM)
    (show ∑ s ∈ Finset.range nSeg, T.len s ≤ ∑ s ∈ Finset.range nSeg, T.len s + blockM - 1 by omega)
  rw [cum_last hpos]
  unfold tileCap
  omega

/-- The list enumerates the tiles in lexicographic order as far as it reaches, and all
of them when it is long enough; the rest is padding. The launched entries reach all
tiles and stay inside the list that `_refresh_tiles` keeps. -/
theorem tileList_spec (T : SegTable) (nSeg blockM maxTiles : ℕ) (old : TileMap)
    (hpos : 0 < nSeg) (hM : 0 < blockM) :
    StrictMonoOn (buildTileMap T nSeg blockM maxTiles old).work
        (Set.Iio (min (T.cum blockM (nSeg - 1)) maxTiles))
      ∧ Set.InjOn (buildTileMap T nSeg blockM maxTiles old).work
        (Set.Iio (min (T.cum blockM (nSeg - 1)) maxTiles))
      ∧ Set.MapsTo (buildTileMap T nSeg blockM maxTiles old).work
        (Set.Iio (min (T.cum blockM (nSeg - 1)) maxTiles)) (T.tiles nSeg blockM)
      ∧ (T.cum blockM (nSeg - 1) ≤ maxTiles →
        Set.BijOn (buildTileMap T nSeg blockM maxTiles old).work
          (Set.Iio (T.cum blockM (nSeg - 1))) (T.tiles nSeg blockM))
      ∧ (∀ pos, min (T.cum blockM (nSeg - 1)) maxTiles ≤ pos → pos < maxTiles →
        (buildTileMap T nSeg blockM maxTiles old).seg pos = -1
          ∧ (buildTileMap T nSeg blockM maxTiles old).m pos = 0)
      ∧ T.cum blockM (nSeg - 1) ≤ tileCap blockM (∑ s ∈ Finset.range nSeg, T.len s) nSeg
      ∧ ∀ nTok numel, nTok ≤ tileMapTokens →
        tileCap blockM nTok nSeg
          ≤ if numel < tileNeed blockM nSeg then tileNeed blockM nSeg else numel := by
  have hmono := work_strictMonoOn T nSeg blockM maxTiles old hpos
  have hmaps := work_mapsTo T nSeg blockM maxTiles old hpos
  refine ⟨hmono, hmono.injOn, hmaps, fun hfit => ?_, fun pos hge hmax => ?_,
    cum_last_le_tileCap hM hpos, fun nTok numel h => ?_⟩
  · rw [min_eq_left hfit] at hmono hmaps
    exact ⟨hmaps, hmono.injOn, work_surjOn hpos hfit⟩
  · exact tileMap_padding (by omega) hmax
  · have hneed : tileCap blockM nTok nSeg ≤ tileNeed blockM nSeg := tileCap_le_tileNeed h
    split <;> omega

/-- Segments of 5, 0 and 1 rows in tiles of 4 fill three entries of four. -/
theorem tileList_spec_three :
    let T : SegTable := ⟨fun _ => 0, fun s => [5, 0, 1].getD s 0, fun _ => -1⟩
    let B := buildTileMap T 3 4 4 ⟨fun _ => 0, fun _ => 0⟩
    Set.BijOn B.work (Set.Iio (T.cum 4 (3 - 1))) (T.tiles 3 4) ∧ T.cum 4 (3 - 1) = 3
      ∧ B.seg 2 = 2 ∧ B.seg 3 = -1 := by
  intro T B
  have hspec := tileList_spec T 3 4 4 ⟨fun _ => 0, fun _ => 0⟩ (by decide) (by decide)
  exact ⟨hspec.2.2.2.1 (by decide), by decide, by decide, by decide⟩

end TileMap

end AdapterSlots
