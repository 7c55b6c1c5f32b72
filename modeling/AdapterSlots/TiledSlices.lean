import AdapterSlots.PrefillGate

/-!
# One slice at a time

Mode 2 of the wrapper overrides vLLM's decode functions. A packed projection
then runs slice by slice: a zeroed buffer, a shrink launch and an expand
launch for each (`addLoraSliced`), with the kernels of `tiled_segment_gemm`.
Mode 3 runs one pair of launches for all slices (`addLoraPackedNslice`), with
those of `tiled_multislice`.

The kernels of one slice are those of many slices on a grid with one slice:
`tiledShrink_eq_ms` says so for the shrink, `tiledExpandSlice_shift` for the
expand, whose output columns start at `slice_offset`. A launch is moved
along such an equation by `launch_map`, and `slices_agree_packed` is that
the two modes compute the same output. A prefill step that passes the gate has
the same tables, so its launches compute the same terms
(`prefill_gets_own_loras`).
-/

namespace AdapterSlots

open Lib

variable {R : Type} [CommRing R]

/-! ## The kernels -/

/-- `_tiled_shrink_kernel` on one element of the buffer. -/
def tiledShrink (x : ℕ → ℕ → R) (A : ℤ → ℕ → ℕ → R) (N K : ℕ) (T : SegTable) (tiles : TileMap)
    (scaling : R) (blockM blockN blockK splitK : ℕ) (pid : ℕ × ℕ × ℕ) (c : ℕ × ℕ) (v : R) : R :=
  let pidSk := pid.2.2
  match workTile T tiles blockM pid.1 with
  | none => v
  | some w =>
      if InBlock w blockM pid.2.1 blockN N 0 c.1 c.2 then
        let i := c.1 - (w.start + w.m * blockM)
        let j := c.2 - pid.2.1 * blockN
        let ram := (i + w.m * blockM) % w.len
        let rbn := (j + pid.2.1 * blockN) % N
        let acc := kLoop K (blockK * splitK) (pidSk * blockK) blockK fun k =>
          x (w.start + ram) k * A w.lora rbn k
        if splitK = 1 then acc * scaling else v + acc * scaling
      else v

/-- `_tiled_expand_slice_kernel` on one element of the output. -/
def tiledExpandSlice (buf : ℕ × ℕ → R) (B : ℤ → ℕ → ℕ → R) (N K : ℕ) (T : SegTable)
    (tiles : TileMap) (sliceOffset : ℕ) (blockM blockN blockK : ℕ) (addInputs : Bool)
    (pid : ℕ × ℕ) (c : ℕ × ℕ) (v : R) : R :=
  match workTile T tiles blockM pid.1 with
  | none => v
  | some w =>
      if InBlock w blockM pid.2 blockN N sliceOffset c.1 c.2 then
        let i := c.1 - (w.start + w.m * blockM)
        let j := c.2 - (sliceOffset + pid.2 * blockN)
        let ram := (i + w.m * blockM) % w.len
        let rbn := (j + pid.2 * blockN) % N
        let acc := kLoop K blockK 0 blockK fun k => buf (w.start + ram, k) * B w.lora rbn k
        if addInputs then acc + v else acc
      else v

/-! ## The decode functions of the wrapper -/

namespace SegmentedPunicaWrapper

variable (cfg : SegGemmConfig) (w : SegmentedPunicaWrapper)

/-- The programs of the two launches. -/
def shrinkDecodeGrid (rank : ℕ) : List (ℕ × ℕ × ℕ) :=
  grid w.tileCap (cdiv rank (tiledShrinkCfg rank).1) (tiledShrinkCfg rank).2.2.1

def expandDecodeGrid (rank ySliceSize : ℕ) : List (ℕ × ℕ) :=
  List.range w.tileCap ×ˢ List.range (cdiv ySliceSize (tiledExpandCfg rank).1)

/-- `shrink_decode` of a matrix with `rank` rows, in mode 2 and above. -/
def shrinkDecode (y : ℕ × ℕ → R) (x : ℕ → ℕ → R) (A : ℤ → ℕ → ℕ → R) (scale : R) (rank K : ℕ)
    (order : List (ℕ × ℕ × ℕ)) : ℕ × ℕ → R :=
  launch (tiledShrink x A rank K w.seg w.tiles scale cfg.bmShrink (tiledShrinkCfg rank).1
    (tiledShrinkCfg rank).2.1 (tiledShrinkCfg rank).2.2.1) order y

/-- `expand_slice_decode` of a buffer with `rank` columns. -/
def expandSliceDecode (y x : ℕ × ℕ → R) (B : ℤ → ℕ → ℕ → R) (yOffset ySliceSize : ℕ)
    (addInput : Bool) (rank : ℕ) (order : List (ℕ × ℕ)) : ℕ × ℕ → R :=
  launch (tiledExpandSlice x B ySliceSize rank w.seg w.tiles yOffset cfg.bmShrink
    (tiledExpandCfg rank).1 (tiledExpandCfg rank).2.1 addInput) order y

/-- One slice of a packed projection: a zeroed buffer, a shrink and an expand. -/
def addLoraSlice (x : ℕ → ℕ → R) (A B : Weights R) (scale : R) (nOut r K : ℕ)
    (shrinkOrder : ℕ → List (ℕ × ℕ × ℕ)) (expandOrder : ℕ → List (ℕ × ℕ)) (y : ℕ × ℕ → R)
    (s : ℕ) : ℕ × ℕ → R :=
  let buf := w.shrinkDecode cfg (fun _ => 0) x (A s) scale r K (shrinkOrder s)
  w.expandSliceDecode cfg y buf (B s) (s * nOut) nOut true r (expandOrder s)

/-- vLLM's loop over the slices. -/
def addLoraSliced (y : ℕ × ℕ → R) (x : ℕ → ℕ → R) (A B : Weights R) (scale : R)
    (ns nOut r K : ℕ) (shrinkOrder : ℕ → List (ℕ × ℕ × ℕ)) (expandOrder : ℕ → List (ℕ × ℕ)) :
    ℕ × ℕ → R :=
  (List.range ns).foldl (w.addLoraSlice cfg x A B scale nOut r K shrinkOrder expandOrder) y

end SegmentedPunicaWrapper

/-! ## One slice of many -/

section Kernels

variable {T : SegTable} {tiles : TileMap} {blockM blockN blockK splitK N K : ℕ}

/-- The shrink of one slice is that of slice 0. -/
theorem tiledShrink_eq_ms (x : ℕ → ℕ → R) (A : ℤ → ℕ → ℕ → R) (scaling : R) {pid : ℕ × ℕ × ℕ}
    (hpid : pid.2.2 < splitK) (c : ℕ × ℕ) (v : R) :
    tiledShrink x A N K T tiles scaling blockM blockN blockK splitK pid c v
      = tiledShrinkMs x (fun _ => A) N K T tiles scaling blockM blockN blockK splitK pid c v := by
  have hsid : pid.2.2 / splitK = 0 := Nat.div_eq_of_lt hpid
  have hsk : pid.2.2 % splitK = pid.2.2 := Nat.mod_eq_of_lt hpid
  unfold tiledShrink tiledShrinkMs
  cases workTile T tiles blockM pid.1 with
  | none => rfl
  | some w => simp only [hsid, hsk, Nat.zero_mul, Nat.zero_add]

theorem inBlock_shift {w : WorkTile} {n shift row col : ℕ} :
    InBlock w blockM n blockN N shift row (shift + col)
      ↔ InBlock w blockM n blockN N 0 row col := by
  unfold InBlock
  refine and_congr_right fun _ => ?_
  omega

/-- The expand of one slice is that of slice 0, its columns counted from
`slice_offset` on. -/
theorem tiledExpandSlice_shift (buf : ℕ × ℕ → R) (B : ℤ → ℕ → ℕ → R) {sliceOffset : ℕ}
    (pid row col : ℕ) (pidN : ℕ) (v : R) :
    tiledExpandSlice buf B N K T tiles sliceOffset blockM blockN blockK true (pid, pidN)
        (row, sliceOffset + col) v
      = tiledExpandMs buf (fun _ => B) N K T tiles 0 0 0 blockM blockN blockK (pid, pidN, 0)
        (row, col) v := by
  have hcol : ∀ n, sliceOffset + col - (sliceOffset + n) = col - n := fun n =>
    Nat.add_sub_add_left ..
  unfold tiledExpandSlice tiledExpandMs
  cases workTile T tiles blockM pid with
  | none => rfl
  | some w =>
      have hwhere : whereSid 0 0 0 0 = 0 := rfl
      simp only [hwhere, inBlock_shift, hcol, Nat.zero_mul, Nat.zero_add, Nat.add_zero, if_true]

/-- Outside its columns the expand of a slice leaves everything. -/
theorem tiledExpandSlice_outside (buf : ℕ × ℕ → R) (B : ℤ → ℕ → ℕ → R) {sliceOffset : ℕ}
    {addInputs : Bool} {pid c : ℕ × ℕ} (h : c.2 < sliceOffset ∨ sliceOffset + N ≤ c.2) (v : R) :
    tiledExpandSlice buf B N K T tiles sliceOffset blockM blockN blockK addInputs pid c v = v := by
  unfold tiledExpandSlice
  cases workTile T tiles blockM pid.1 with
  | none => rfl
  | some w =>
      refine if_neg fun hin => ?_
      obtain ⟨-, hlo, -, hhi⟩ := hin
      omega

end Kernels

/-! ## The launches of one slice -/

section Slice

variable {cfg : SegGemmConfig} {w : SegmentedPunicaWrapper} {nLoras : ℕ} {idx : List ℤ}
  {row : ℕ} {r K : ℕ}

open SegmentedPunicaWrapper

theorem tiledShrinkCfg_pos (rank : ℕ) : 0 < (tiledShrinkCfg rank).1
    ∧ 0 < (tiledShrinkCfg rank).2.1 ∧ 1 < (tiledShrinkCfg rank).2.2.1 := by
  unfold tiledShrinkCfg
  split_ifs <;> decide

theorem tiledExpandCfg_pos {rank : ℕ} (h : 0 < rank) : 0 < (tiledExpandCfg rank).1
    ∧ 0 < (tiledExpandCfg rank).2.1 := by
  unfold tiledExpandCfg
  split_ifs <;> simp [h]

/-- The tables of a decode step and the size of its launches. -/
structure DecodeReady (cfg : SegGemmConfig) (w : SegmentedPunicaWrapper) (nLoras : ℕ)
    (idx : List ℤ) : Prop where
  nLoras_pos : 0 < nLoras
  tables : Tables nLoras cfg.bmShrink idx w.seg w.tiles
  cap : w.tileCap = tileCap cfg.bmShrink idx.length nLoras

/-- The zeroed buffer behind a shrink launch, where there is an adapter. -/
theorem DecodeReady.shrinkDecode (h : DecodeReady cfg w nLoras idx) (hrow : row < idx.length)
    (hlora : tokenLora idx row ≠ -1) {order : List (ℕ × ℕ × ℕ)}
    (hperm : order.Perm (w.shrinkDecodeGrid r)) (x : ℕ → ℕ → R) (A : ℤ → ℕ → ℕ → R) (scale : R)
    {q : ℕ} (hq : q < r) :
    w.shrinkDecode cfg (fun _ => 0) x A scale r K order (row, q)
      = scale * ∑ k ∈ Finset.range K, x row k * A (tokenLora idx row) q k := by
  obtain ⟨hN, hK, hSK⟩ := tiledShrinkCfg_pos r
  rw [shrinkDecodeGrid, h.cap] at hperm
  have hms : w.shrinkDecode cfg (fun _ => 0) x A scale r K order (row, q)
      = launch (tiledShrinkMs x (fun _ => A) r K w.seg w.tiles scale cfg.bmShrink
        (tiledShrinkCfg r).1 (tiledShrinkCfg r).2.1 (tiledShrinkCfg r).2.2.1) order (fun _ => 0)
        (row, q) :=
    launch_congr (fun p hp v => tiledShrink_eq_ms x A scale
      (mem_grid.mp (hperm.mem_iff.mp hp)).2.2 _ v) rfl
  rw [← Nat.one_mul (tiledShrinkCfg r).2.2.1] at hperm
  have hspec := shrink_spec cfg.bmShrink_pos h.nLoras_pos h.tables hN hK (Nat.lt_of_succ_lt hSK)
    hq hrow hlora (show 1 ≤ 3 by omega) Nat.one_pos hperm x (fun _ => A) K scale fun _ => 0
  rw [shrinkBuffer, if_pos hSK, Nat.zero_mul, Nat.zero_add] at hspec
  exact hms.trans hspec

/-- A grid of two axes, with a third one of length 1. -/
theorem grid_one (gx gy : ℕ) :
    ((List.range gx ×ˢ List.range gy).map fun p => (p.1, p.2, 0)).Perm (grid gx gy 1) := by
  have hinj : Function.Injective fun p : ℕ × ℕ => (p.1, p.2, 0) := fun p p' h => by
    simpa [Prod.ext_iff] using h
  refine (List.perm_ext_iff_of_nodup ?_ (nodup_grid ..)).mpr fun p => ?_
  · exact (List.nodup_range.product List.nodup_range).map hinj
  · rw [mem_grid, List.mem_map]
    constructor
    · rintro ⟨q, hq, rfl⟩
      obtain ⟨hx, hy⟩ := List.mem_product.mp hq
      exact ⟨List.mem_range.mp hx, List.mem_range.mp hy, Nat.one_pos⟩
    · rintro ⟨hx, hy, hz⟩
      refine ⟨(p.1, p.2.1), List.mem_product.mpr ?_, ?_⟩
      · exact ⟨List.mem_range.mpr hx, List.mem_range.mpr hy⟩
      · exact Prod.ext rfl (Prod.ext rfl (Nat.lt_one_iff.mp hz).symm)

/-- The columns of a slice behind its expand launch. -/
theorem DecodeReady.expandSliceDecode (h : DecodeReady cfg w nLoras idx) (hr : 0 < r)
    (hrow : row < idx.length) {nOut : ℕ} {order : List (ℕ × ℕ)}
    (hperm : order.Perm (w.expandDecodeGrid r nOut)) (y buf : ℕ × ℕ → R) (B : ℤ → ℕ → ℕ → R)
    (yOffset : ℕ) {j : ℕ} (hj : j < nOut) :
    w.expandSliceDecode cfg y buf B yOffset nOut true r order (row, yOffset + j)
      = if tokenLora idx row = -1 then y (row, yOffset + j)
        else y (row, yOffset + j)
          + ∑ t ∈ Finset.range r, buf (row, t) * B (tokenLora idx row) j t := by
  obtain ⟨hN, hK⟩ := tiledExpandCfg_pos hr
  have hmap : w.expandSliceDecode cfg y buf B yOffset nOut true r order (row, yOffset + j)
      = launch (tiledExpandMs buf (fun _ => B) nOut r w.seg w.tiles 0 0 0 cfg.bmShrink
          (tiledExpandCfg r).1 (tiledExpandCfg r).2.1) (order.map fun p => (p.1, p.2, 0))
          (fun c => y (c.1, yOffset + c.2)) (row, j) := by
    unfold SegmentedPunicaWrapper.expandSliceDecode
    exact launch_map (fun p : ℕ × ℕ => (p.1, p.2, 0)) (fun c : ℕ × ℕ => (c.1, yOffset + c.2))
      (row, j) fun p _ v => tiledExpandSlice_shift buf B p.1 row j p.2 v
  have hgrid : (order.map fun p => (p.1, p.2, 0)).Perm
      (grid (tileCap cfg.bmShrink idx.length nLoras) (cdiv nOut (tiledExpandCfg r).1) 1) := by
    rw [← h.cap]
    exact (hperm.map _).trans (grid_one ..)
  have hspec := expand_spec cfg.bmShrink_pos h.nLoras_pos h.tables hN hK hj hrow
    (show 1 ≤ 3 by omega) Nat.one_pos hgrid buf (fun _ => B) r fun c => y (c.1, yOffset + c.2)
  have hoff : ∀ i, sliceOffset 1 nOut i = 0 := by
    intro i
    unfold sliceOffset
    split
    · rename_i hi
      rw [Nat.lt_one_iff.mp hi, Nat.zero_mul]
    · rfl
  simp only [hoff, Nat.zero_mul, Nat.zero_add, Nat.add_zero] at hspec
  exact hmap.trans hspec

/-! ## All slices -/

/-- What LoRA adds to a token's element of slice `s`, column `j`. -/
def loraTerm (x : ℕ → ℕ → R) (A B : Weights R) (scale : R) (r K : ℕ) (idx : List ℤ)
    (row s j : ℕ) : R :=
  if tokenLora idx row = -1 then 0
  else ∑ q ∈ Finset.range r, (scale * ∑ k ∈ Finset.range K, x row k * A s (tokenLora idx row) q k)
    * B s (tokenLora idx row) j q

/-- What the LoRA in a slot adds to a token's element of slice `s`, column `j`; slot `-1`
adds nothing. -/
def slotTerm (x : ℕ → ℕ → R) (A B : Weights R) (scale : R) (r K : ℕ) (lora : ℤ) (row s j : ℕ) : R :=
  if lora = -1 then 0
  else ∑ q ∈ Finset.range r, (scale * ∑ k ∈ Finset.range K, x row k * A s lora q k) * B s lora j q

theorem loraTerm_eq (x : ℕ → ℕ → R) (A B : Weights R) (scale : R) (r K : ℕ) (idx : List ℤ)
    (row s j : ℕ) :
    loraTerm x A B scale r K idx row s j = slotTerm x A B scale r K (tokenLora idx row) row s j :=
  rfl

variable {nOut : ℕ} {x : ℕ → ℕ → R} {A B : Weights R} {scale : R}
  {shrinkOrder : ℕ → List (ℕ × ℕ × ℕ)} {expandOrder : ℕ → List (ℕ × ℕ)}

/-- One slice adds its term to its own columns. -/
theorem DecodeReady.addLoraSlice (h : DecodeReady cfg w nLoras idx) (hr : 0 < r)
    (hrow : row < idx.length) {t : ℕ} (hshrink : (shrinkOrder t).Perm (w.shrinkDecodeGrid r))
    (hexpand : (expandOrder t).Perm (w.expandDecodeGrid r nOut)) (y : ℕ × ℕ → R) {s j : ℕ}
    (hj : j < nOut) :
    w.addLoraSlice cfg x A B scale nOut r K shrinkOrder expandOrder y t (row, s * nOut + j)
      = y (row, s * nOut + j) + if s = t then loraTerm x A B scale r K idx row s j else 0 := by
  split
  · rename_i hst
    subst hst
    refine (h.expandSliceDecode hr hrow hexpand y _ (B s) (s * nOut) hj).trans ?_
    unfold loraTerm
    split
    · rw [add_zero]
    · rename_i hlora
      refine congrArg _ (Finset.sum_congr rfl fun q hq => ?_)
      rw [h.shrinkDecode hrow hlora hshrink x (A s) scale (Finset.mem_range.mp hq)]
  · rename_i hst
    rw [add_zero]
    refine launch_unchanged fun p _ v => tiledExpandSlice_outside _ _ ?_ v
    rcases Nat.lt_or_gt_of_ne hst with hlt | hgt
    · exact .inl (mul_add_lt hlt hj)
    · have hle := Nat.mul_le_mul_right nOut (Nat.succ_le_of_lt hgt)
      rw [Nat.succ_mul] at hle
      exact .inr (hle.trans (Nat.le_add_right ..))

theorem DecodeReady.addLoraSliced (h : DecodeReady cfg w nLoras idx) (hr : 0 < r)
    (hrow : row < idx.length) (y : ℕ × ℕ → R) {s j : ℕ} (hj : j < nOut) (ns : ℕ)
    (hshrink : ∀ t < ns, (shrinkOrder t).Perm (w.shrinkDecodeGrid r))
    (hexpand : ∀ t < ns, (expandOrder t).Perm (w.expandDecodeGrid r nOut)) :
    w.addLoraSliced cfg y x A B scale ns nOut r K shrinkOrder expandOrder (row, s * nOut + j)
      = y (row, s * nOut + j) + if s < ns then loraTerm x A B scale r K idx row s j else 0 := by
  induction ns with
  | zero =>
      rw [if_neg (Nat.not_lt_zero s), add_zero]
      rfl
  | succ ns ih =>
      have hbefore := ih (fun t ht => hshrink t (Nat.lt_succ_of_lt ht)) fun t ht =>
        hexpand t (Nat.lt_succ_of_lt ht)
      rw [SegmentedPunicaWrapper.addLoraSliced, List.range_succ, List.foldl_concat,
        ← SegmentedPunicaWrapper.addLoraSliced,
        h.addLoraSlice hr hrow (hshrink ns (Nat.lt_succ_self ns))
          (hexpand ns (Nat.lt_succ_self ns)) _ hj, hbefore, add_assoc]
      congr 1
      rcases Nat.lt_trichotomy s ns with hlt | rfl | hgt
      · rw [if_pos hlt, if_neg hlt.ne, if_pos (Nat.lt_succ_of_lt hlt), add_zero]
      · rw [if_neg (Nat.lt_irrefl s), if_pos rfl, if_pos (Nat.lt_succ_self s), zero_add]
      · rw [if_neg (by omega), if_neg hgt.ne', if_neg (by omega), add_zero]

/-- The two launches for all slices add the same terms. -/
theorem DecodeReady.packed (h : DecodeReady cfg w nLoras idx) (hr : 0 < r)
    (hrow : row < idx.length) {ns : ℕ} (hns : ns ≤ 3) {shrinkOrder expandOrder : List (ℕ × ℕ × ℕ)}
    (hshrink : shrinkOrder.Perm (w.shrinkGrid ns r))
    (hexpand : expandOrder.Perm (w.expandGrid ns nOut r)) (y garbage : ℕ × ℕ → R) {s j : ℕ}
    (hs : s < ns) (hj : j < nOut) :
    addLoraPackedNslice y x A B scale ns nOut r K w.seg w.tiles (w.blocks cfg hr) garbage
        shrinkOrder expandOrder (row, s * nOut + j)
      = y (row, s * nOut + j) + loraTerm x A B scale r K idx row s j := by
  obtain ⟨hM, hN, hK, hSK, hN2, hK2⟩ := (w.blocks cfg hr).pos
  unfold shrinkGrid expandGrid at *
  rw [h.cap] at hshrink hexpand
  refine (expand_spec hM h.nLoras_pos h.tables hN2 hK2 hj hrow hns hs hexpand _ B r y).trans ?_
  unfold loraTerm
  split
  · rw [add_zero]
  · rename_i hlora
    refine congrArg _ (Finset.sum_congr rfl fun q hq => ?_)
    rw [Nat.add_comm, shrink_spec hM h.nLoras_pos h.tables hN hK hSK (Finset.mem_range.mp hq) hrow
      hlora hns hs hshrink x A K scale garbage]

end Slice

/-! ## The two modes -/

section Modes

open SegmentedPunicaWrapper

variable {cfg : SegGemmConfig} {w : SegmentedPunicaWrapper} {mapping : LoRAMapping} {nLoras : ℕ}
  {idx : List ℤ} {order : List ℕ}

/-- A decode step of mode 2 and above has its tables. -/
theorem decodeReady (hmode : 2 ≤ cfg.mode) (hdec : mapping.isPrefill = false) (hpos : 0 < nLoras)
    (hn : idx.length ≤ tileMapTokens) (hruns : countRuns idx ≤ nLoras)
    (hperm : order.Perm (List.range idx.length)) :
    DecodeReady cfg (w.updateMetadata cfg mapping nLoras idx order) nLoras idx := by
  have heq : w.updateMetadata cfg mapping nLoras idx order
      = ({ w.updateBaseMetadata idx mapping with prefillOk := false }.refreshSegments nLoras
          order).refreshTiles cfg nLoras := by
    unfold updateMetadata
    simp only [hdec, Bool.not_false, if_true, if_pos hmode]
  rw [heq]
  exact ⟨hpos, tables_of_refresh cfg.bmShrink_pos hpos hn hruns hperm, rfl⟩

/-- A prefill step that passes the gate has its tables. -/
theorem decodeReady_of_gate {maxLoras : ℕ} {slot : ℤ → ℤ} (hmax : 1 ≤ maxLoras)
    (hpre : mapping.isPrefill = true)
    (hslot : ∀ a ∈ mapping.indexMapping, ∀ b ∈ mapping.indexMapping, slot a = slot b → a = b)
    (horder : order.Perm (List.range mapping.indexMapping.length))
    (hok : (w.updateMetadata cfg mapping maxLoras (mapping.indexMapping.map slot) order).prefillOk
      = true) :
    DecodeReady cfg (w.updateMetadata cfg mapping maxLoras (mapping.indexMapping.map slot) order)
      maxLoras (mapping.indexMapping.map slot) := by
  obtain ⟨hn, hruns, heq⟩ := updateMetadata_prefill hpre hok
  have hlen : (mapping.indexMapping.map slot).length = mapping.indexMapping.length :=
    List.length_map ..
  rw [← countRuns_map hslot] at hruns
  rw [heq]
  exact ⟨hmax, tables_of_refresh cfg.bmShrink_pos hmax (hlen ▸ hn) hruns (hlen ▸ horder), rfl⟩

/-- **Prefill.** When the gate lets a prefill step through, every token gets the LoRA in
the slot of its own adapter, whatever the wrapper and the shrink buffer held before and in
every order of the programs. -/
theorem prefill_gets_own_loras (cfg : SegGemmConfig) (w : SegmentedPunicaWrapper)
    (mapping : LoRAMapping) (maxLoras : ℕ) (slot : ℤ → ℤ) (order : List ℕ) (hmax : 1 ≤ maxLoras)
    (hpre : mapping.isPrefill = true)
    (hslot : ∀ a ∈ mapping.indexMapping, ∀ b ∈ mapping.indexMapping, slot a = slot b → a = b)
    (horder : order.Perm (List.range mapping.indexMapping.length))
    (hok : (w.updateMetadata cfg mapping maxLoras (mapping.indexMapping.map slot) order).prefillOk
      = true)
    {ns nOut r K : ℕ} (hr : 0 < r) (hns : ns ≤ 3) (y garbage : ℕ × ℕ → R) (x : ℕ → ℕ → R)
    (A B : Weights R) (scale : R) (shrinkOrder expandOrder : List (ℕ × ℕ × ℕ)) :
    let u := w.updateMetadata cfg mapping maxLoras (mapping.indexMapping.map slot) order
    shrinkOrder.Perm (u.shrinkGrid ns r) → expandOrder.Perm (u.expandGrid ns nOut r) →
    ∀ i (hi : i < mapping.indexMapping.length), ∀ s < ns, ∀ j < nOut,
      addLoraPackedNslice y x A B scale ns nOut r K u.seg u.tiles (u.blocks cfg hr) garbage
          shrinkOrder expandOrder (i, s * nOut + j)
        = y (i, s * nOut + j)
          + slotTerm x A B scale r K (slot (mapping.indexMapping.get ⟨i, hi⟩)) i s j := by
  intro u hshrink hexpand i hi s hs j hj
  have hready : DecodeReady cfg u maxLoras (mapping.indexMapping.map slot) :=
    decodeReady_of_gate hmax hpre hslot horder hok
  have hrow : i < (mapping.indexMapping.map slot).length := by rwa [List.length_map]
  have hlora : tokenLora (mapping.indexMapping.map slot) i
      = slot (mapping.indexMapping.get ⟨i, hi⟩) := by
    rw [tokenLora, List.getD_eq_getElem?_getD, List.getElem?_eq_getElem hrow, Option.getD_some,
      List.getElem_map, List.get_eq_getElem]
  rw [hready.packed hr hrow hns hshrink hexpand y garbage hs hj, loraTerm_eq, hlora]

/-- Three runs of a prefill, one of them without an adapter; the first token's adapter 5 is
in slot 2. -/
theorem threeRuns_own_loras :
    let cfg : SegGemmConfig := ⟨3, true, 2, Nat.two_pos⟩
    let u := fresh.updateMetadata cfg ⟨[5, 5, 0, 7], true⟩ 4 ([5, 5, 0, 7].map twoSlots)
      [3, 1, 0, 2]
    let A : Weights ℤ := fun s a q k => s + a + q + k
    let B : Weights ℤ := fun s a j q => s * a + j + q
    addLoraPackedNslice (fun c => (c.1 : ℤ)) (fun i k => (i + k : ℕ)) A B 5 2 2 1 3 u.seg u.tiles
        (u.blocks cfg Nat.one_pos) (fun _ => 7) (u.shrinkGrid 2 1) (u.expandGrid 2 2 1).reverse
        (0, 1 * 2 + 1)
      = 0 + slotTerm (fun i k => ((i + k : ℕ) : ℤ)) A B 5 1 3 2 0 1 1 := by
  intro cfg u A B
  exact prefill_gets_own_loras cfg fresh ⟨[5, 5, 0, 7], true⟩ 4 twoSlots [3, 1, 0, 2] (by decide)
    rfl (by decide) (by decide) (by decide) Nat.one_pos (show 2 ≤ 3 by decide)
    (fun c => (c.1 : ℤ)) (fun _ => 7) (fun i k => ((i + k : ℕ) : ℤ)) A B 5 (u.shrinkGrid 2 1)
    (u.expandGrid 2 2 1).reverse (List.Perm.refl _) (List.reverse_perm _) 0 (by decide) 1
    (show 1 < 2 by decide) 1 (show 1 < 2 by decide)

end Modes

end AdapterSlots
