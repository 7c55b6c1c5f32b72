import AdapterSlots.TiledSlices

/-!
# Graph replay

A CUDA graph records the launches of a decode step with their arguments: the
addresses of the segment table and of the tile work list, and the grid. A replay
runs them again over what the device holds by then. So the wrapper may not move
its buffers: `_seg_bufs` allocates once for a number of slots, and the work list
is sized for the largest step there is.

`replay_is_current` is the graph safety the wrapper promises: a graph captured at
any decode step and replayed at any later one with as many tokens computes the
LoRA of the later step, whatever steps lie between.
-/

namespace AdapterSlots

open Lib

/-! ## Buffers by address -/

/-- The buffers by address; new ones are placed behind those there are. The three tensors
of a segment table are allocated together, and so are the two of a work list. -/
structure Device where
  segs : ℕ → SegTable
  tiles : ℕ → TileMap
  allocated : ℕ

def Device.newSegs (d : Device) : Device :=
  { d with
    segs := Function.update d.segs d.allocated ⟨fun _ => 0, fun _ => 0, fun _ => -1⟩
    allocated := d.allocated + 1 }

def Device.newTiles (d : Device) : Device :=
  { d with
    tiles := Function.update d.tiles d.allocated ⟨fun _ => -1, fun _ => 0⟩
    allocated := d.allocated + 1 }

/-- `SegmentedPunicaWrapper` with the addresses of its buffers. `segCap` is `none` before
the first `_seg_bufs`. -/
structure DeviceWrapper where
  device : Device
  tokenLoraIndices : List ℤ
  isPrefill : Bool
  segCap : Option ℕ
  segAt : ℕ
  tileCap : ℕ
  tilesAt : ℕ
  tilesNumel : ℕ
  prefillOk : Bool

/-- The arguments of one `update_metadata`; `idx` is what vLLM makes of the mapping and
`order` the order of the scatter. -/
structure MetadataCall where
  mapping : LoRAMapping
  idx : List ℤ
  order : List ℕ

namespace DeviceWrapper

variable (cfg : SegGemmConfig) (g : DeviceWrapper)

/-- `_seg_bufs`. -/
def segBufs (nLoras : ℕ) : DeviceWrapper :=
  if g.segCap = some nLoras then g
  else { g with
    segCap := some nLoras
    segAt := g.device.allocated
    device := g.device.newSegs }

/-- `_refresh_segments`. -/
def refreshSegments (nLoras : ℕ) (order : List ℕ) : DeviceWrapper :=
  let g := g.segBufs nLoras
  { g with
    device.segs := Function.update g.device.segs g.segAt
      (AdapterSlots.refreshSegments nLoras g.tokenLoraIndices order) }

/-- The allocation in `_refresh_tiles`. -/
def tileBufs (need : ℕ) : DeviceWrapper :=
  if g.tilesNumel < need then
    { g with
      tilesAt := g.device.allocated
      tilesNumel := need
      device := g.device.newTiles }
  else g

/-- `_refresh_tiles`. -/
def refreshTiles (nLoras : ℕ) : DeviceWrapper :=
  let g := g.tileBufs (tileNeed cfg.bmShrink nLoras)
  { g with
    tileCap := AdapterSlots.tileCap cfg.bmShrink g.tokenLoraIndices.length nLoras
    device.tiles := Function.update g.device.tiles g.tilesAt
      (buildTileMap (g.device.segs g.segAt) nLoras cfg.bmShrink g.tilesNumel
        (g.device.tiles g.tilesAt)) }

/-- vLLM's own `update_metadata`, with the prefill gate closed. -/
def updateBaseMetadata (c : MetadataCall) : DeviceWrapper :=
  { g with tokenLoraIndices := c.idx, isPrefill := c.mapping.isPrefill, prefillOk := false }

def updateMetadata (nLoras : ℕ) (c : MetadataCall) : DeviceWrapper :=
  let g := g.updateBaseMetadata c
  if !c.mapping.isPrefill then
    let g := g.refreshSegments nLoras c.order
    if 2 ≤ cfg.mode then g.refreshTiles cfg nLoras else g
  else if cfg.mode = 3 ∧ cfg.prefillGrouped then
    let ids := c.mapping.indexMapping
    let n := ids.length
    if 0 < n ∧ n ≤ tileMapTokens then
      if countRuns ids ≤ nLoras then
        { (g.refreshSegments nLoras c.order).refreshTiles cfg nLoras with prefillOk := true }
      else g
    else g
  else g

/-- The steps of an engine; vLLM passes the same number of slots to each. -/
def updates (nLoras : ℕ) (calls : List MetadataCall) : DeviceWrapper :=
  calls.foldl (fun g c => g.updateMetadata cfg nLoras c) g

end DeviceWrapper

/-- What the launches of a step are recorded with. -/
structure CapturedGraph where
  segAt : ℕ
  tilesAt : ℕ
  tileCap : ℕ
  isPrefill : Bool

def DeviceWrapper.capture (g : DeviceWrapper) : CapturedGraph :=
  ⟨g.segAt, g.tilesAt, g.tileCap, g.isPrefill⟩

/-- The wrapper as the recorded launches see it. They read no other field. -/
def CapturedGraph.onDevice (graph : CapturedGraph) (d : Device) : SegmentedPunicaWrapper where
  tokenLoraIndices := []
  isPrefill := graph.isPrefill
  seg := d.segs graph.segAt
  tileCap := graph.tileCap
  tiles := d.tiles graph.tilesAt
  tilesNumel := 0
  prefillOk := false

namespace DeviceWrapper

variable {cfg : SegGemmConfig} {g : DeviceWrapper} {nLoras : ℕ}

/-! ## The buffers stay where they are -/

/-- The buffers are large enough for every step. -/
structure Placed (cfg : SegGemmConfig) (nLoras : ℕ) (g : DeviceWrapper) : Prop where
  segCap : g.segCap = some nLoras
  tiles : tileNeed cfg.bmShrink nLoras ≤ g.tilesNumel

/-- The addresses a captured graph holds. -/
def addresses (g : DeviceWrapper) : ℕ × ℕ := (g.segAt, g.tilesAt)

theorem Placed.segBufs (h : Placed cfg nLoras g) : g.segBufs nLoras = g := if_pos h.segCap

theorem Placed.tileBufs (h : Placed cfg nLoras g) :
    g.tileBufs (tileNeed cfg.bmShrink nLoras) = g := if_neg (Nat.not_lt.mpr h.tiles)

theorem Placed.refreshSegments (h : Placed cfg nLoras g) (order : List ℕ) :
    Placed cfg nLoras (g.refreshSegments nLoras order)
      ∧ (g.refreshSegments nLoras order).addresses = g.addresses := by
  unfold DeviceWrapper.refreshSegments
  rw [h.segBufs]
  exact ⟨⟨h.segCap, h.tiles⟩, rfl⟩

theorem Placed.refreshTiles (h : Placed cfg nLoras g) :
    Placed cfg nLoras (g.refreshTiles cfg nLoras)
      ∧ (g.refreshTiles cfg nLoras).addresses = g.addresses := by
  unfold DeviceWrapper.refreshTiles
  rw [h.tileBufs]
  exact ⟨⟨h.segCap, h.tiles⟩, rfl⟩

/-- No later step moves them. -/
theorem Placed.updateMetadata (h : Placed cfg nLoras g) (c : MetadataCall) :
    Placed cfg nLoras (g.updateMetadata cfg nLoras c)
      ∧ (g.updateMetadata cfg nLoras c).addresses = g.addresses := by
  have hbase : Placed cfg nLoras (g.updateBaseMetadata c) := ⟨h.segCap, h.tiles⟩
  obtain ⟨hseg, hsegAt⟩ := hbase.refreshSegments c.order
  obtain ⟨htile, htileAt⟩ := hseg.refreshTiles
  unfold DeviceWrapper.updateMetadata
  simp only
  split
  · split
    · exact ⟨htile, htileAt.trans hsegAt⟩
    · exact ⟨hseg, hsegAt⟩
  · split
    · split
      · split
        · exact ⟨⟨htile.segCap, htile.tiles⟩, htileAt.trans hsegAt⟩
        · exact ⟨hbase, rfl⟩
      · exact ⟨hbase, rfl⟩
    · exact ⟨hbase, rfl⟩

theorem Placed.updates (calls : List MetadataCall) : ∀ {g : DeviceWrapper},
    Placed cfg nLoras g → Placed cfg nLoras (g.updates cfg nLoras calls)
      ∧ (g.updates cfg nLoras calls).addresses = g.addresses := by
  induction calls with
  | nil => exact fun h => ⟨h, rfl⟩
  | cons c calls ih =>
      intro g h
      obtain ⟨hnext, haddr⟩ := h.updateMetadata c
      obtain ⟨hall, haddrs⟩ := ih hnext
      exact ⟨hall, haddrs.trans haddr⟩

/-! ## A decode step -/

/-- The tables at the addresses after `_refresh_segments` and `_refresh_tiles`. -/
structure Refreshed (cfg : SegGemmConfig) (nLoras : ℕ) (idx : List ℤ) (order : List ℕ)
    (g : DeviceWrapper) : Prop where
  placed : Placed cfg nLoras g
  segs : g.device.segs g.segAt = AdapterSlots.refreshSegments nLoras idx order
  tiles : ∃ numel old, g.device.tiles g.tilesAt
    = AdapterSlots.refreshTiles (g.device.segs g.segAt) nLoras cfg.bmShrink numel old
  cap : g.tileCap = AdapterSlots.tileCap cfg.bmShrink idx.length nLoras

theorem segCap_segBufs (g : DeviceWrapper) (nLoras : ℕ) :
    (g.segBufs nLoras).segCap = some nLoras
      ∧ (g.segBufs nLoras).tokenLoraIndices = g.tokenLoraIndices := by
  unfold segBufs
  split
  · rename_i hcap
    exact ⟨hcap, rfl⟩
  · exact ⟨rfl, rfl⟩

/-- The work list is allocated away from the segments. -/
theorem tileBufs_spec (g : DeviceWrapper) (need : ℕ) : need ≤ (g.tileBufs need).tilesNumel
    ∧ (g.tileBufs need).segCap = g.segCap
    ∧ (g.tileBufs need).tokenLoraIndices = g.tokenLoraIndices
    ∧ (g.tileBufs need).device.segs (g.tileBufs need).segAt = g.device.segs g.segAt := by
  unfold tileBufs
  split
  · exact ⟨Nat.le_refl _, rfl, rfl, rfl⟩
  · rename_i hlarge
    exact ⟨Nat.not_lt.mp hlarge, rfl, rfl, rfl⟩

theorem segs_refreshSegments (g : DeviceWrapper) (nLoras : ℕ) (order : List ℕ) :
    (g.refreshSegments nLoras order).device.segs (g.refreshSegments nLoras order).segAt
      = AdapterSlots.refreshSegments nLoras g.tokenLoraIndices order := by
  rw [← (g.segCap_segBufs nLoras).2]
  exact Function.update_self ..

theorem refreshed (g : DeviceWrapper) (nLoras : ℕ) (order : List ℕ) :
    Refreshed cfg nLoras g.tokenLoraIndices order
      ((g.refreshSegments nLoras order).refreshTiles cfg nLoras) := by
  obtain ⟨hcap, hidx⟩ := g.segCap_segBufs nLoras
  obtain ⟨hneed, hcap', hidx', hsegs⟩ := (g.refreshSegments nLoras order).tileBufs_spec
    (tileNeed cfg.bmShrink nLoras)
  have hlist : ∃ old, ((g.refreshSegments nLoras order).refreshTiles cfg nLoras).device.tiles
      ((g.refreshSegments nLoras order).refreshTiles cfg nLoras).tilesAt
        = buildTileMap (((g.refreshSegments nLoras order).tileBufs
              (tileNeed cfg.bmShrink nLoras)).device.segs
            ((g.refreshSegments nLoras order).tileBufs (tileNeed cfg.bmShrink nLoras)).segAt)
          nLoras cfg.bmShrink
          ((g.refreshSegments nLoras order).tileBufs (tileNeed cfg.bmShrink nLoras)).tilesNumel
          old :=
    ⟨_, Function.update_self ..⟩
  obtain ⟨old, hlist⟩ := hlist
  refine ⟨⟨hcap'.trans hcap, hneed⟩, hsegs.trans (g.segs_refreshSegments nLoras order),
    ⟨((g.refreshSegments nLoras order).tileBufs (tileNeed cfg.bmShrink nLoras)).tilesNumel,
      old, ?_⟩, ?_⟩
  · rw [hlist, AdapterSlots.refreshTiles, if_neg (Nat.not_lt.mpr hneed)]
    rfl
  · have hsame : (g.refreshSegments nLoras order).tokenLoraIndices = g.tokenLoraIndices := hidx
    rw [← hsame, ← hidx']
    rfl

/-- A decode step refreshes both tables. -/
theorem refreshed_of_decode (hmode : 2 ≤ cfg.mode) {c : MetadataCall}
    (hdec : c.mapping.isPrefill = false) (g : DeviceWrapper) :
    Refreshed cfg nLoras c.idx c.order (g.updateMetadata cfg nLoras c) := by
  have heq : g.updateMetadata cfg nLoras c
      = ((g.updateBaseMetadata c).refreshSegments nLoras c.order).refreshTiles cfg nLoras := by
    unfold DeviceWrapper.updateMetadata
    simp only [hdec, Bool.not_false, if_true, if_pos hmode]
  rw [heq]
  exact refreshed (g.updateBaseMetadata c) nLoras c.order

/-! ## Replays -/

/-- A graph sees the tables of the last decode step before its replay. -/
theorem decodeReady_onDevice (hmode : 2 ≤ cfg.mode) (hpos : 0 < nLoras) (g : DeviceWrapper)
    {c c' : MetadataCall} (between : List MetadataCall) (hdec : c.mapping.isPrefill = false)
    (hdec' : c'.mapping.isPrefill = false) (hsize : c'.idx.length = c.idx.length)
    (hn : c'.idx.length ≤ tileMapTokens) (hruns : countRuns c'.idx ≤ nLoras)
    (hperm : c'.order.Perm (List.range c'.idx.length)) :
    DecodeReady cfg ((g.updateMetadata cfg nLoras c).capture.onDevice
      (((g.updateMetadata cfg nLoras c).updates cfg nLoras between).updateMetadata cfg nLoras
        c').device) nLoras c'.idx := by
  have hold : Refreshed cfg nLoras c.idx c.order _ := refreshed_of_decode hmode hdec g
  obtain ⟨hplaced, haddr⟩ := hold.placed.updates between
  obtain ⟨-, haddr'⟩ := hplaced.updateMetadata c'
  obtain ⟨hseg, htiles⟩ := Prod.mk.inj (haddr'.trans haddr)
  have hnew : Refreshed cfg nLoras c'.idx c'.order _ := refreshed_of_decode hmode hdec'
    ((g.updateMetadata cfg nLoras c).updates cfg nLoras between)
  obtain ⟨numel, old, hlist⟩ := hnew.tiles
  have hsegs := hnew.segs
  rw [hseg] at hsegs
  rw [hnew.segs, htiles] at hlist
  refine ⟨hpos, ?_, ?_⟩
  · show Tables nLoras cfg.bmShrink c'.idx (Device.segs _ (updateMetadata cfg g nLoras c).segAt)
      (Device.tiles _ (updateMetadata cfg g nLoras c).tilesAt)
    rw [hsegs, hlist]
    exact tables_of_refresh cfg.bmShrink_pos hpos hn hruns hperm
  · rw [hsize]
    exact hold.cap

variable {R : Type} [CommRing R]

/-- **Graph safety.** A graph captured at a decode step and replayed at a later one with as
many tokens, whose adapter runs fit the slots, adds the LoRA of the later step: the
slices one by one in mode 2, the packed launches in mode 3. In between there may
be any steps, decode and prefill, of any size. -/
theorem replay_is_current (cfg : SegGemmConfig) (hmode : 2 ≤ cfg.mode) {nLoras : ℕ}
    (hpos : 0 < nLoras) (g : DeviceWrapper) (c c' : MetadataCall) (between : List MetadataCall)
    (hdec : c.mapping.isPrefill = false) (hdec' : c'.mapping.isPrefill = false)
    (hsize : c'.idx.length = c.idx.length) (hn : c'.idx.length ≤ tileMapTokens)
    (hruns : countRuns c'.idx ≤ nLoras) (hperm : c'.order.Perm (List.range c'.idx.length))
    {ns nOut r K : ℕ} (hr : 0 < r) (hns : ns ≤ 3) (y garbage : ℕ × ℕ → R) (x : ℕ → ℕ → R)
    (A B : Weights R) (scale : R) (shrink₂ : ℕ → List (ℕ × ℕ × ℕ)) (expand₂ : ℕ → List (ℕ × ℕ))
    (shrink₃ expand₃ : List (ℕ × ℕ × ℕ)) :
    let captured := g.updateMetadata cfg nLoras c
    let current := (captured.updates cfg nLoras between).updateMetadata cfg nLoras c'
    let w := captured.capture.onDevice current.device
    (∀ s < ns, (shrink₂ s).Perm (w.shrinkDecodeGrid r)) →
    (∀ s < ns, (expand₂ s).Perm (w.expandDecodeGrid r nOut)) →
    shrink₃.Perm (w.shrinkGrid ns r) → expand₃.Perm (w.expandGrid ns nOut r) →
    ∀ i < c'.idx.length, ∀ s < ns, ∀ j < nOut,
      w.addLoraSliced cfg y x A B scale ns nOut r K shrink₂ expand₂ (i, s * nOut + j)
          = y (i, s * nOut + j) + loraTerm x A B scale r K c'.idx i s j
        ∧ addLoraPackedNslice y x A B scale ns nOut r K w.seg w.tiles (w.blocks cfg hr) garbage
            shrink₃ expand₃ (i, s * nOut + j)
          = y (i, s * nOut + j) + loraTerm x A B scale r K c'.idx i s j := by
  intro captured current w hshrink₂ hexpand₂ hshrink₃ hexpand₃ i hi s hs j hj
  have hready : DecodeReady cfg w nLoras c'.idx :=
    decodeReady_onDevice hmode hpos g between hdec hdec' hsize hn hruns hperm
  refine ⟨?_, hready.packed hr hi hns hshrink₃ hexpand₃ y garbage hs hj⟩
  rw [hready.addLoraSliced hr hi y hj ns hshrink₂ hexpand₂, if_pos hs]

/-- A wrapper without buffers. -/
def bare : DeviceWrapper where
  device := ⟨fun _ => ⟨fun _ => 0, fun _ => 0, fun _ => -1⟩, fun _ => ⟨fun _ => -1, fun _ => 0⟩, 0⟩
  tokenLoraIndices := []
  isPrefill := false
  segCap := none
  segAt := 0
  tileCap := 0
  tilesAt := 0
  tilesNumel := 0
  prefillOk := false

/-- Captured over `[2, 2, -1]` and replayed over `[0, 1, 1]`, with a prefill between. -/
theorem threeTokens_replay :
    let cfg : SegGemmConfig := ⟨3, true, 2, Nat.two_pos⟩
    let captured := bare.updateMetadata cfg 3 ⟨⟨[7, 7, 0], false⟩, [2, 2, -1], [2, 0, 1]⟩
    let current := (captured.updates cfg 3 [⟨⟨[5, 5, 5, 7], true⟩, [0, 0, 0, 2], [0, 1, 2, 3]⟩]
      ).updateMetadata cfg 3 ⟨⟨[5, 6, 6], false⟩, [0, 1, 1], [0, 1, 2]⟩
    let w := captured.capture.onDevice current.device
    let A : Weights ℤ := fun s a q k => s + a + q + k
    let B : Weights ℤ := fun s a j q => s * a + j + q
    addLoraPackedNslice (fun c => (c.1 : ℤ)) (fun i k => (i + k : ℕ)) A B 5 2 2 1 3 w.seg w.tiles
        (w.blocks cfg Nat.one_pos) (fun _ => 7) (w.shrinkGrid 2 1) (w.expandGrid 2 2 1).reverse
        (1, 1 * 2 + 1)
      = 1 + loraTerm (fun i k => ((i + k : ℕ) : ℤ)) A B 5 1 3 [0, 1, 1] 1 1 1 := by
  intro cfg captured current w A B
  exact (replay_is_current cfg (by decide) (show 0 < 3 by decide) bare
    ⟨⟨[7, 7, 0], false⟩, [2, 2, -1], [2, 0, 1]⟩ ⟨⟨[5, 6, 6], false⟩, [0, 1, 1], [0, 1, 2]⟩
    [⟨⟨[5, 5, 5, 7], true⟩, [0, 0, 0, 2], [0, 1, 2, 3]⟩] rfl rfl rfl (by decide) (by decide)
    (by decide) Nat.one_pos (show 2 ≤ 3 by decide) (fun c => (c.1 : ℤ)) (fun _ => 7)
    (fun i k => ((i + k : ℕ) : ℤ)) A B 5 (fun _ => w.shrinkDecodeGrid 1)
    (fun _ => w.expandDecodeGrid 1 2) (w.shrinkGrid 2 1) (w.expandGrid 2 2 1).reverse
    (fun _ _ => List.Perm.refl _) (fun _ _ => List.Perm.refl _) (List.Perm.refl _)
    (List.reverse_perm _) 1 (show 1 < 3 by decide) 1 (show 1 < 2 by decide) 1
    (show 1 < 2 by decide)).2

end DeviceWrapper

end AdapterSlots
