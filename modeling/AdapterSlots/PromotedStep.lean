import AdapterSlots.MergeFailures

/-!
# Promoted steps

A decode step whose tokens all belong to one adapter runs the attention
projections on that adapter's merged weights. The gate and the lookup decide
which weights a step uses; `promotableOps` are the projections under them.

Merged weights are those of a checkpoint in every state of the threads
(`FromFiles`). So the output of a promoted step is what the LoRA layers
compute, row block by row block.
-/

namespace AdapterSlots

open Lib

/-! ## The gate -/

/-- `promotable_adapter`. -/
def promotableAdapter (loraIds : List ℤ) (nStar : ℤ) : Except L3Error (Option ℤ) :=
  if (loraIds.length : ℤ) < nStar then .ok none
  else
    match loraIds with
    | [] => .error .indexError
    | first :: _ =>
        if first ≤ 0 ∨ ∃ i ∈ loraIds, i ≠ first then .ok none else .ok (some first)

structure DecodeMetadata where
  useCudaGraph : Bool

structure AttnMetadata where
  hasPrefill : Bool
  decodeMetadata : Option DecodeMetadata

/-- `loraMapping` is the index mapping: the adapter of every token. -/
structure ModelInput where
  attnMetadata : Option AttnMetadata
  loraMapping : Option (List ℤ)

/-- `_promoted_weights`. -/
def promotedWeights {T W : Type} (nStar : ℤ) (input : ModelInput) (m : MergedWeightCache T W) :
    Except L3Error (MergedWeightCache T W × Option W) :=
  match input.attnMetadata with
  | none => .ok (m, none)
  | some attn =>
      if attn.hasPrefill then .ok (m, none)
      else
        match attn.decodeMetadata, input.loraMapping with
        | some decode, some loraIds =>
            if decode.useCudaGraph then .ok (m, none)
            else do
              match ← promotableAdapter loraIds nStar with
              | none => pure (m, none)
              | some loraId => pure (m.get loraId)
        | _, _ => .ok (m, none)

/-- All tokens of the step have the positive adapter `id`, and they are at least `nStar`. -/
structure AllOf (input : ModelInput) (nStar : ℤ) (id : ℤ) : Prop where
  positive : 0 < id
  tokens : ∃ loraIds, input.loraMapping = some loraIds ∧ nStar ≤ loraIds.length
    ∧ ∀ i ∈ loraIds, i = id

theorem promotableAdapter_eq_some {loraIds : List ℤ} {nStar id : ℤ}
    (h : promotableAdapter loraIds nStar = .ok (some id)) :
    0 < id ∧ nStar ≤ loraIds.length ∧ ∀ i ∈ loraIds, i = id := by
  unfold promotableAdapter at h
  split at h
  · cases h
  · rename_i hlen
    split at h
    · cases h
    · rename_i first rest
      split at h
      · cases h
      · rename_i hsame
        obtain rfl := Option.some.inj (Except.ok.inj h)
        obtain ⟨hpos, hall⟩ := not_or.mp hsame
        exact ⟨not_le.mp hpos, not_lt.mp hlen, fun i hi => not_not.mp fun hne => hall ⟨i, hi, hne⟩⟩

/-- The weights that a step is promoted with are those of its one adapter. -/
theorem promotedWeights_eq_some {T W : Type} {nStar : ℤ} {input : ModelInput}
    {m m' : MergedWeightCache T W} {w : W} (h : promotedWeights nStar input m = .ok (m', some w)) :
    ∃ id, AllOf input nStar id ∧ m.weights.get? id = some w := by
  unfold promotedWeights at h
  split at h
  · cases h
  · split at h
    · cases h
    · split at h
      · rename_i decode loraIds _ hmapping
        split at h
        · cases h
        · obtain ⟨adapter, hadapter, h⟩ := bind_eq_ok h
          cases adapter with
          | none => cases h
          | some id =>
              obtain ⟨hpos, hlen, hall⟩ := promotableAdapter_eq_some hadapter
              refine ⟨id, ⟨hpos, loraIds, hmapping, hlen, hall⟩, ?_⟩
              have hget := congrArg Prod.snd (Except.ok.inj h)
              unfold MergedWeightCache.get at hget
              split at hget
              · cases hget
              · rename_i w' hw
                exact hw.trans hget
      · cases h

/-! ## Where merged weights come from -/

section Runs

variable {K : Type} [Field K] [DecidableEq K] {layers : AttnLayers K} {ckpt : ℤ → Checkpoint K}

/-- The loader threads read the checkpoints of their adapters, and these were made for the
model. -/
def Loads (layers : AttnLayers K) (ckpt : ℤ → Checkpoint K)
    (tr : List (Event (LoraMergeSystem K) (MergeAction (LoraPairs K))
      (Except L3Error (Option (MergedWeights K))))) : Prop :=
  ∀ e ∈ tr, ∀ id t, e.label = .loadEnd id t → (ckpt id).load = .ok t ∧ Fits layers t

/-- The tensors between pop and insertion. -/
def Runner.underWay {T : Type} : Runner T → Option (ℤ × T)
  | .popped id t => some (id, t)
  | .merging id t => some (id, t)
  | _ => none

/-- What the threads hold was read, and what is resident was merged, from the
checkpoint of its adapter. -/
structure FromFiles (layers : AttnLayers K) (ckpt : ℤ → Checkpoint K) (s : LoraMergeSystem K) :
    Prop where
  loaded : ∀ id t, s.cache.loaded.get? id = some t → (ckpt id).load = .ok t ∧ Fits layers t
  underWay : ∀ id t, s.runner.underWay = some (id, t) →
    (ckpt id).load = .ok t ∧ Fits layers t
  weights : ∀ id w, s.cache.weights.get? id = some w → ∃ t : LoraPairs K,
    (ckpt id).load = .ok t ∧ Fits layers t ∧ mergeAll layers t = .ok w

theorem get?_get {T W : Type} (m : MergedWeightCache T W) (id id' : ℤ) :
    (m.get id).1.weights.get? id' = m.weights.get? id' := by
  unfold MergedWeightCache.get
  split
  · rfl
  · rename_i w hw
    show ((m.weights.erase id).insert id w).get? id' = m.weights.get? id'
    rw [Dict.get?_insert, Dict.get?_erase]
    by_cases hid : id = id'
    · rw [if_pos hid, ← hid, hw]
    · rw [if_neg hid, if_neg fun h => hid h.symm]

theorem get?_insertMerged {T W : Type} {m : MergedWeightCache T W} {id id' : ℤ} {merged w : W}
    (h : (m.insertMerged id merged).weights.get? id' = some w) :
    id = id' ∧ merged = w ∨ m.weights.get? id' = some w := by
  change (Dict.insert _ id merged).get? id' = some w at h
  rw [Dict.get?_insert] at h
  split at h
  · exact .inl ⟨‹_›, Option.some.inj h⟩
  · exact .inr (Dict.get?_restrict h)

theorem FromFiles.step {s s' : LoraMergeSystem K} {a : MergeAction (LoraPairs K)}
    {out : Except L3Error (Option (MergedWeights K))} (h : FromFiles layers ckpt s)
    (hload : ∀ id t, a = .loadEnd id t → (ckpt id).load = .ok t ∧ Fits layers t)
    (hstep : MergeSystem.TryStep (mergeAll layers) s a out s') : FromFiles layers ckpt s' := by
  rcases hstep.cases with ⟨e, -, -, rfl⟩ | ⟨o, -, hquiet, hmove⟩
  · exact ⟨h.loaded, fun id t hrun => (by cases hrun), h.weights⟩
  · cases hmove.move with
    | request _ => exact ⟨h.loaded, h.underWay, h.weights⟩
    | refuse _ => exact h
    | @loadEnd id t _ =>
        refine ⟨fun id' t' hget => ?_, h.underWay, h.weights⟩
        change (Dict.insert _ id t).get? id' = some t' at hget
        rw [Dict.get?_insert] at hget
        split at hget
        · rename_i hid
          rw [← hid, ← Option.some.inj hget]
          exact hload id t rfl
        · exact h.loaded id' t' hget
    | nothingLoaded _ => exact h
    | @pop loaded id t _ hpop =>
        obtain ⟨hget, hrest⟩ := Dict.get?_popLast hpop
        refine ⟨fun id' t' h' => h.loaded id' t' (hrest id' t' h'), fun id' t' hrun => ?_,
          h.weights⟩
        obtain ⟨rfl, rfl⟩ := Prod.mk.inj (Option.some.inj hrun)
        exact h.loaded id t hget
    | @size fit id t hrun =>
        refine ⟨h.loaded, fun id' t' hrun' => ?_, h.weights⟩
        refine h.underWay id' t' ?_
        rw [hrun]
        change Runner.underWay (if _ then Runner.disabling else .merging id t) = _ at hrun'
        split at hrun'
        · cases hrun'
        · exact hrun'
    | disable _ =>
        refine ⟨fun id t hget => ?_, fun id t hrun => ?_, h.weights⟩
        · cases hget
        · cases hrun
    | @insert id t hrun =>
        refine ⟨h.loaded, fun id t hrun => (by cases hrun), fun id' w hget => ?_⟩
        rcases get?_insertMerged hget with ⟨rfl, rfl⟩ | hold
        · obtain ⟨hfile, hfits⟩ := h.underWay id t (by rw [hrun]; rfl)
          refine ⟨t, hfile, hfits, ?_⟩
          cases hmerge : mergeAll layers t with
          | ok merged => rw [MergeSystem.mergeOr_eq hmerge]
          | error e =>
              have hraise := MergeSystem.raised_eq_some.mpr ⟨rfl, id, t, hrun, hmerge⟩
              cases hquiet.symm.trans hraise
        · exact h.weights id' w hold
    | @get id =>
        refine ⟨?_, h.underWay, fun id' w hget => h.weights id' w ?_⟩
        · rw [s.cache.get_eq id]
          exact h.loaded
        · rwa [get?_get] at hget

theorem fromFiles_of_run {kHotMax : ℕ} {s : LoraMergeSystem K}
    {tr : List (Event (LoraMergeSystem K) (MergeAction (LoraPairs K))
      (Except L3Error (Option (MergedWeights K))))}
    (h : Exec (MergeSystem.TryStep (mergeAll layers)) (.init kHotMax) tr s)
    (hloads : Loads layers ckpt tr) : FromFiles layers ckpt s := by
  induction h with
  | nil =>
      exact ⟨fun id t hget => (by cases hget), fun id t hrun => (by cases hrun),
        fun id w hget => (by cases hget)⟩
  | snoc _ hstep ih =>
      refine (ih fun e he => hloads e (List.mem_append_left _ he)).step ?_ hstep
      exact hloads _ (List.mem_append_right _ (List.mem_singleton.mpr rfl))

end Runs

/-! ## The projections -/

section Projections

variable {K : Type} [Field K] {layers : AttnLayers K}

/-- The `apply` functions of the packed QKV and of the output projections. -/
structure LayerOps (K : Type) where
  qkv : String → Tensor K → Option (ℕ → K) → Tensor K
  row : String → Tensor K → Tensor K

/-- `_active_weight`; `active` is `_ACTIVE`. -/
def activeWeight (active : Option (MergedWeights K)) (name : String) : Option (Tensor K) :=
  active.bind fun weights => weights.get? name

/-- `PromotableQKVWithLoRA` and `PromotableRowWithLoRA` over vLLM's layers. -/
def promotableOps (active : Option (MergedWeights K)) (super : LayerOps K) : LayerOps K where
  qkv name x bias :=
    match activeWeight active name with
    | some w => x.linear w bias
    | none => super.qkv name x bias
  row name x :=
    match activeWeight active name with
    | some w => x.linear w none
    | none => super.row name x

/-- `execute_model`: `forward` is the model's forward pass with the given projections.
Without a cache, or without installed modules, it runs on vLLM's own. -/
def executeModel {α : Type} (layers : AttnLayers K) (nStar : ℤ) (fit : ℕ) (input : ModelInput)
    (super : LayerOps K) (forward : LayerOps K → α)
    (mwc : Option (MergedWeightCache (LoraPairs K) (MergedWeights K))) :
    Option (MergedWeightCache (LoraPairs K) (MergedWeights K)) × Except L3Error α :=
  match mwc with
  | none => (none, .ok (forward (promotableOps none super)))
  | some m =>
      if layers.modules.keys = [] then (some m, .ok (forward (promotableOps none super)))
      else
        let p := MergeSystem.process (mergeAll layers) fit m
        match p.2 with
        | .error e => (some p.1, .error e)
        | .ok () =>
            match promotedWeights nStar input p.1 with
            | .error e => (some p.1, .error e)
            | .ok (m', weights) => (some m', .ok (forward (promotableOps weights super)))

/-- What the LoRA layer of a module gives a token of the adapter with checkpoint `c`:
in each row the base output, and `scaling * (x Aᵀ) Bᵀ` for the tensors of the row's
projection in the module's layer. -/
def IsLoraOutput (c : Checkpoint K) (name : String) (m : AttnModule K) (x : Tensor K)
    (bias : Option (ℕ → K)) (token : ℕ) (y : ℕ → K) : Prop :=
  ∃ i r₀, LayerNumber name i ∧ c.config.r = some r₀ ∧ r₀ ≠ 0 ∧ ∀ row < m.weight.rows, ∃ p r a b,
    Tensor.locate m.projRows (packedProjs name) row = some (p, r) ∧ c.Has i p a b
      ∧ y row = (x.linear m.weight bias).entry token row
        + c.config.loraAlpha.getD r₀ / r₀ * ((x.linear a none).linear b none).entry token r

/-- A merged weight computes the LoRA output. -/
theorem isLoraOutput_of_merged [DecidableEq K] {c : Checkpoint K} {t : LoraPairs K}
    (hload : c.load = .ok t) (hfits : Fits layers t) {name : String} {m : AttnModule K}
    {w : Tensor K}
    (hm : layers.modules.get? name = some m) (hw : mergedWeight t name m = .ok w)
    (x : Tensor K) (bias : Option (ℕ → K)) (token : ℕ) :
    IsLoraOutput c name m x bias token fun row => (x.linear w bias).entry token row := by
  obtain ⟨r₀, hr, hzero, hread⟩ := Checkpoint.load_spec hload
  obtain ⟨i, hi, -, hcols, hentries⟩ := mergedWeight_spec hfits hm hw
  refine ⟨i, r₀, layerNumber_of_layerIndex hi, hr, hzero, fun row hrow => ?_⟩
  rw [layers.packed name m hm] at hrow
  obtain ⟨p, r, hloc, hp, -⟩ := Tensor.exists_locate hrow
  obtain ⟨a, b, hab, hentry⟩ := hentries row p r hloc hp
  obtain ⟨i', p', a', b', hp', hkey, hhas, heq⟩ := hread _ _ hab
  obtain ⟨rfl, rfl⟩ := layerKey_injective (packedProjs_subset hp) hp' hkey
  obtain ⟨rfl, rfl⟩ := Prod.mk.inj heq
  obtain ⟨-, -, hwidth⟩ := hfits name m i p a _ hm hi hp hab
  refine ⟨p, r, a, b', hloc, hhas, ?_⟩
  refine (Tensor.linear_of_row hcols hentry bias token).trans ?_
  rw [← hwidth, Tensor.sum_matmul]

/-- Merged weights run in a forward pass only when the gate returned them. -/
theorem executeModel_cases {α : Type} (nStar : ℤ) (fit : ℕ) (input : ModelInput)
    (super : LayerOps K) (forward : LayerOps K → α)
    (mwc : Option (MergedWeightCache (LoraPairs K) (MergedWeights K))) :
    (∃ e, (executeModel layers nStar fit input super forward mwc).2 = .error e)
      ∨ (executeModel layers nStar fit input super forward mwc).2 = .ok (forward super)
      ∨ ∃ m m' weights, mwc = some m
        ∧ promotedWeights nStar input (MergeSystem.process (mergeAll layers) fit m).1
          = .ok (m', some weights)
        ∧ (executeModel layers nStar fit input super forward mwc).2
          = .ok (forward (promotableOps (some weights) super)) := by
  cases mwc with
  | none => exact .inr (.inl rfl)
  | some m =>
      unfold executeModel
      by_cases hkeys : layers.modules.keys = []
      · simp only [if_pos hkeys]
        exact .inr (.inl rfl)
      · simp only [if_neg hkeys]
        cases (MergeSystem.process (mergeAll layers) fit m).2 with
        | error e => exact .inl ⟨e, rfl⟩
        | ok _ =>
            cases hgate : promotedWeights nStar input
                (MergeSystem.process (mergeAll layers) fit m).1 with
            | error e => exact .inl ⟨e, rfl⟩
            | ok r =>
                obtain ⟨m', _ | weights⟩ := r
                · exact .inr (.inl rfl)
                · exact .inr (.inr ⟨m, m', weights, rfl, hgate, rfl⟩)

/-- **A promoted step** has the tokens of one adapter, enough of them, and its
projections give every token the LoRA output of that adapter; a step that is not
promoted runs without merged weights. -/
theorem promoted_step_is_lora [DecidableEq K] {ckpt : ℤ → Checkpoint K} {kHotMax : ℕ}
    {s : LoraMergeSystem K}
    {tr : List (Event (LoraMergeSystem K) (MergeAction (LoraPairs K))
      (Except L3Error (Option (MergedWeights K))))}
    (h : Exec (MergeSystem.TryStep (mergeAll layers)) (.init kHotMax) tr s)
    (hloads : Loads layers ckpt tr) (nStar : ℤ) (input : ModelInput) (super : LayerOps K) :
    (∀ m' weights, promotedWeights nStar input s.cache = .ok (m', some weights) →
      ∃ id loraIds, AllOf input nStar id ∧ input.loraMapping = some loraIds
        ∧ ∀ token id', loraIds[token]? = some id' →
          ∀ name m, layers.modules.get? name = some m → ∀ x,
            (∀ bias, IsLoraOutput (ckpt id') name m x bias token fun row =>
              ((promotableOps (some weights) super).qkv name x bias).entry token row)
            ∧ IsLoraOutput (ckpt id') name m x none token fun row =>
              ((promotableOps (some weights) super).row name x).entry token row)
      ∧ ∀ {α : Type} (fit : ℕ) (forward : LayerOps K → α)
        (mwc : Option (MergedWeightCache (LoraPairs K) (MergedWeights K))),
        (∃ e, (executeModel layers nStar fit input super forward mwc).2 = .error e)
          ∨ (executeModel layers nStar fit input super forward mwc).2 = .ok (forward super)
          ∨ ∃ m m' weights, mwc = some m
            ∧ promotedWeights nStar input (MergeSystem.process (mergeAll layers) fit m).1
              = .ok (m', some weights)
            ∧ (executeModel layers nStar fit input super forward mwc).2
              = .ok (forward (promotableOps (some weights) super)) := by
  refine ⟨fun m' weights hgate => ?_, fun fit forward mwc =>
    executeModel_cases nStar fit input super forward mwc⟩
  obtain ⟨id, hall, hweights⟩ := promotedWeights_eq_some hgate
  obtain ⟨loraIds, hmapping, -, hsame⟩ := hall.tokens
  obtain ⟨t, hload, hfits, hmerge⟩ := (fromFiles_of_run h hloads).weights id weights hweights
  refine ⟨id, loraIds, hall, hmapping, fun token id' hid' name m hm x => ?_⟩
  obtain rfl := hsame id' (List.mem_of_getElem? hid')
  obtain ⟨w, hw, hget⟩ := Dict.get?_mapValuesM hmerge hm
  have hactive : activeWeight (some weights) name = some w := hget
  simp only [promotableOps, hactive]
  exact ⟨fun bias => isLoraOutput_of_merged hload hfits hm hw x bias token,
    isLoraOutput_of_merged hload hfits hm hw x none token⟩

end Projections

/-! ### A promoted step of two tokens -/

def twoTokens : ModelInput := ⟨some ⟨false, some ⟨false⟩⟩, some [1, 1]⟩

theorem load_allTensors : (projCheckpoint "layers.0." attnProjs).load = .ok allTensors :=
  (rfl)

theorem loads_of_labels {tr : List (Event (LoraMergeSystem ℚ)
      (MergeAction (LoraPairs ℚ)) (Except L3Error (Option (MergedWeights ℚ))))}
    (h : tr.map Event.label
      = [.request 1, .loadEnd 1 allTensors, .processStart, .processSize 5, .processEnd]) :
    Loads oneLayer (fun _ => projCheckpoint "layers.0." attnProjs) tr := by
  intro e he id t hlabel
  have hmem : e.label ∈ tr.map Event.label := List.mem_map_of_mem he
  rw [h, hlabel] at hmem
  simp only [List.mem_cons, List.not_mem_nil, or_false, reduceCtorEq, false_or,
    MergeAction.loadEnd.injEq] at hmem
  rw [hmem.2]
  exact ⟨load_allTensors, fits_allTensors⟩

/-- Both tokens get the LoRA output of adapter 1 from the output projection. -/
theorem twoTokens_promoted : ∃ (merged : MergedWeights ℚ) (s : LoraMergeSystem ℚ)
    (m' : MergedWeightCache (LoraPairs ℚ) (MergedWeights ℚ)),
    promotedWeights 2 twoTokens s.cache = .ok (m', some merged)
      ∧ ∀ (super : LayerOps ℚ) (x : Tensor ℚ), ∀ token < 2,
        IsLoraOutput (projCheckpoint "layers.0." attnProjs) "model.layers.0.self_attn.o_proj"
          ⟨oneByOne, fun _ => 1⟩ x none token fun row =>
            ((promotableOps (some merged) super).row "model.layers.0.self_attn.o_proj" x).entry
              token row := by
  obtain ⟨merged, hmerge⟩ := mergeAll_returns complete_allTensors fits_allTensors
  have hend : MergeSystem.TryStep (mergeAll oneLayer)
      ⟨⟨5, some 5, .empty, .empty, {1}, 0⟩, [], .merging 1 allTensors⟩ .processEnd (.ok none)
      ⟨⟨5, some 5, Dict.empty.insert 1 merged, .empty, {1}, 1⟩, [], .idle⟩ := by
    have hresult : mergeAll oneLayer allTensors = .ok merged := hmerge
    refine .of_step ?_ ?_
    · simp only [MergeSystem.raised, hresult]
    · simp only [MergeSystem.Step, MergeSystem.step, MergeSystem.mergeOr_eq hresult]
      rfl
  have hrun : Exec (MergeSystem.TryStep (mergeAll oneLayer)) (.init 5)
      [⟨_, .request 1, .ok none, _⟩, ⟨_, .loadEnd 1 allTensors, .ok none, _⟩,
        ⟨_, .processStart, .ok none, _⟩, ⟨_, .processSize 5, .ok none, _⟩,
        ⟨_, .processEnd, .ok none, _⟩] _ :=
    .cons rfl (.cons rfl (.cons rfl (.cons rfl (.single hend))))
  have hgate : promotedWeights 2 twoTokens
      (⟨5, some 5, Dict.empty.insert 1 merged, .empty, {1}, 1⟩ :
        MergedWeightCache (LoraPairs ℚ) (MergedWeights ℚ)) = .ok (_, some merged) := rfl
  refine ⟨merged, ⟨⟨5, some 5, Dict.empty.insert 1 merged, .empty, {1}, 1⟩, [], .idle⟩, _, hgate,
    fun super x token htoken => ?_⟩
  obtain ⟨id, loraIds, -, hmapping, houtput⟩ :=
    (promoted_step_is_lora hrun (loads_of_labels rfl) 2 twoTokens super).1 _ _ hgate
  obtain rfl : [1, 1] = loraIds := Option.some.inj hmapping
  have hid : [(1 : ℤ), 1][token]? = some 1 := by
    obtain rfl | rfl : token = 0 ∨ token = 1 := by omega
    · rfl
    · rfl
  exact (houtput token 1 hid _ _ rfl x).2

end AdapterSlots
