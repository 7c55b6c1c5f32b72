import Mathlib.Data.List.TakeWhile
import AdapterSlots.Lib.Decimal
import AdapterSlots.Lib.Tensor
import AdapterSlots.Policy

/-!
# From a checkpoint to merged weights

`_load` reads the attention tensors of an adapter from its checkpoint, and the
loop of `process` adds their products to the base weights. Both sides name a
layer by its number: `_layer_index` finds it in the names of the checkpoint
and in the names of the model's modules.

`load_spec` says which tensors of the file a loaded pair is made of, and
`mergedWeight_spec` what a row of a merged weight is. The loop raises when a
projection is missing or when shapes do not go together; neither is looked
at before. `mergeAll_returns` is the case in which it gets through.
-/

namespace AdapterSlots

open Lib

inductive L3Error where
  | valueError
  | indexError
  | zeroDivisionError
  | keyError (key : String)
  | safetensorError (key : String)
  | runtimeError
deriving DecidableEq, Repr

/-! ## Names -/

/-- `s.split(".")`. -/
def splitDots (s : String) : List String := (s.toList.splitOn '.').map String.ofList

def endsWith (suffix s : String) : Bool := suffix.toList.isSuffixOf s.toList

/-- The part in front of a suffix. -/
def dropSuffix? (suffix s : String) : Option String :=
  if endsWith suffix s then
    some (String.ofList (s.toList.take (s.toList.length - suffix.toList.length)))
  else none

/-- `_layer_index`: the number behind the first part `layers`. -/
def layerIndex (name : String) : Except L3Error ℤ :=
  match (splitDots name).dropWhile (· ≠ "layers") with
  | [] => .error .valueError
  | [_] => .error .indexError
  | _ :: part :: _ =>
      match intOfString part with
      | none => .error .valueError
      | some i => .ok i

/-- `proj.split(".")[-1]`. -/
def lastPart (proj : String) : String := (splitDots proj).getLastD ""

def attnProjs : List String := ["q_proj", "k_proj", "v_proj", "o_proj"]

/-- The projections whose rows a module of the model holds, in their order. -/
def packedProjs (name : String) : List String :=
  if endsWith "qkv_proj" name then ["q_proj", "k_proj", "v_proj"] else ["o_proj"]

/-- `f"{i}.{proj}"`. -/
def layerKey (i : ℤ) (proj : String) : String := toString i ++ "." ++ proj

/-- The layer of a name, without the arithmetic. -/
def LayerNumber (name : String) (i : ℤ) : Prop :=
  ∃ pre part post, splitDots name = pre ++ "layers" :: part :: post ∧ "layers" ∉ pre
    ∧ intOfString part = some i

theorem layerNumber_of_layerIndex {name : String} {i : ℤ} (h : layerIndex name = .ok i) :
    LayerNumber name i := by
  have hsplit := List.takeWhile_append_dropWhile (p := fun s : String => decide (s ≠ "layers"))
    (l := splitDots name)
  have hpre : "layers" ∉ (splitDots name).takeWhile fun s => decide (s ≠ "layers") := by
    intro hmem
    have hne := List.mem_takeWhile_imp hmem
    exact of_decide_eq_true (p := "layers" ≠ "layers") hne rfl
  unfold layerIndex at h
  split at h
  · cases h
  · cases h
  · rename_i first part post hdrop
    have hfirst : first = "layers" := by
      have hhead := List.head?_dropWhile_not (fun s : String => decide (s ≠ "layers"))
        (splitDots name)
      rw [hdrop, List.head?_cons] at hhead
      simpa using hhead
    split at h
    · cases h
    · rename_i i' hint
      obtain rfl := Except.ok.inj h
      subst hfirst
      exact ⟨_, part, post, hdrop ▸ hsplit.symm, hpre, hint⟩

theorem packedProjs_subset {name p : String} (h : p ∈ packedProjs name) : p ∈ attnProjs := by
  unfold packedProjs at h
  unfold attnProjs
  split at h
  · simp only [List.mem_cons, List.not_mem_nil, or_false] at h ⊢
    tauto
  · simp only [List.mem_cons, List.not_mem_nil, or_false] at h ⊢
    tauto

theorem layerKey_injective {i i' : ℤ} {p p' : String} (hp : p ∈ attnProjs) (hp' : p' ∈ attnProjs)
    (h : layerKey i p = layerKey i' p') : i = i' ∧ p = p' := by
  have hlen : ∀ q ∈ attnProjs, q.toList.length = 6 := by decide
  have hlist := congrArg String.toList h
  unfold layerKey at hlist
  rw [String.toList_append, String.toList_append (s := toString i' ++ ".")] at hlist
  obtain ⟨hi, hproj⟩ := List.append_inj' hlist ((hlen p hp).trans (hlen p' hp').symm)
  rw [String.toList_append, String.toList_append] at hi
  exact ⟨toString_int_injective (String.toList_inj.mp (List.append_cancel_right hi)),
    String.toList_inj.mp hproj⟩

theorem eq_append_of_dropSuffix? {suffix s front : String} (h : dropSuffix? suffix s = some front) :
    s = front ++ suffix := by
  unfold dropSuffix? endsWith at h
  split at h
  · rename_i hsuffix
    obtain ⟨cs, hcs⟩ := List.isSuffixOf_iff_suffix.mp hsuffix
    rw [← hcs, List.length_append, Nat.add_sub_cancel, List.take_left] at h
    rw [← String.toList_inj, String.toList_append, ← hcs, ← Option.some.inj h,
      String.toList_ofList]
  · cases h

/-! ## The checkpoint -/

variable {K : Type} [Field K]

/-- The entries of `adapter_config.json` that are read. -/
structure AdapterConfig (K : Type) where
  r : Option K
  loraAlpha : Option K

structure Checkpoint (K : Type) where
  config : AdapterConfig K
  tensors : Dict String (Tensor K)

/-- The pair `(a, b)` under every `layerKey`. -/
abbrev LoraPairs (K : Type) := Dict String (Tensor K × Tensor K)

namespace Checkpoint

variable [DecidableEq K] (c : Checkpoint K)

/-- `cfg.get("lora_alpha", cfg["r"]) / cfg["r"]`. -/
def scaling : Except L3Error K :=
  match c.config.r with
  | none => .error (.keyError "r")
  | some r => if r = 0 then .error .zeroDivisionError else .ok (c.config.loraAlpha.getD r / r)

omit [Field K] [DecidableEq K] in
def getTensor (key : String) : Except L3Error (Tensor K) :=
  match c.tensors.get? key with
  | none => .error (.safetensorError key)
  | some t => .ok t

/-- One turn of the loop over the keys. -/
def loadKey (scaling : K) (tensors : LoraPairs K) (key : String) :
    Except L3Error (LoraPairs K) :=
  match dropSuffix? ".lora_A.weight" key with
  | none => .ok tensors
  | some proj =>
      if lastPart proj ∉ attnProjs then .ok tensors
      else do
        let a ← c.getTensor key
        let b ← c.getTensor (proj ++ ".lora_B.weight")
        let i ← layerIndex proj
        pure (tensors.insert (layerKey i (lastPart proj)) (a, b.scale scaling))

/-- `_load`. -/
def load : Except L3Error (LoraPairs K) := do
  let scaling ← c.scaling
  c.tensors.keys.foldlM (c.loadKey scaling) .empty

/-- The tensors of a projection in a layer: `a` and `b` stand in the file under one
module name. -/
def Has (i : ℤ) (p : String) (a b : Tensor K) : Prop :=
  ∃ proj, LayerNumber proj i ∧ lastPart proj = p
    ∧ c.tensors.get? (proj ++ ".lora_A.weight") = some a
    ∧ c.tensors.get? (proj ++ ".lora_B.weight") = some b

/-- A loaded pair comes from the file. -/
def Read (scaling : K) (tensors : LoraPairs K) : Prop :=
  ∀ key ab, tensors.get? key = some ab → ∃ i p a b, p ∈ attnProjs ∧ key = layerKey i p
    ∧ c.Has i p a b ∧ ab = (a, b.scale scaling)

variable {c}

omit [Field K] [DecidableEq K] in
theorem getTensor_eq_ok {key : String} {t : Tensor K} (h : c.getTensor key = .ok t) :
    c.tensors.get? key = some t := by
  unfold getTensor at h
  split at h
  · cases h
  · rename_i t' hget
    rw [hget, Except.ok.inj h]

omit [DecidableEq K] in
/-- One turn of the loop. -/
theorem Read.loadKey {scaling : K} {tensors tensors' : LoraPairs K} {key : String}
    (hread : c.Read scaling tensors) (h : c.loadKey scaling tensors key = .ok tensors') :
    c.Read scaling tensors' := by
  unfold Checkpoint.loadKey at h
  split at h
  · exact Except.ok.inj h ▸ hread
  · rename_i proj hproj
    split at h
    · exact Except.ok.inj h ▸ hread
    · rename_i hattn
      obtain ⟨a, ha, h⟩ := bind_eq_ok h
      obtain ⟨b, hb, h⟩ := bind_eq_ok h
      obtain ⟨i, hi, h⟩ := bind_eq_ok h
      obtain rfl := Except.ok.inj h
      have hkey := eq_append_of_dropSuffix? hproj
      intro key' ab hab
      rw [Dict.get?_insert] at hab
      split at hab
      · rename_i heq
        refine ⟨i, lastPart proj, a, b, not_not.mp hattn, heq.symm, ?_, (Option.some.inj hab).symm⟩
        exact ⟨proj, layerNumber_of_layerIndex hi, rfl, hkey ▸ getTensor_eq_ok ha,
          getTensor_eq_ok hb⟩
      · exact hread key' ab hab

/-- What `_load` returns: pairs of the file, the second scaled by `lora_alpha / r`. -/
theorem load_spec {pairs : LoraPairs K} (h : c.load = .ok pairs) :
    ∃ r, c.config.r = some r ∧ r ≠ 0 ∧ c.Read (c.config.loraAlpha.getD r / r) pairs := by
  obtain ⟨scaling, hscaling, h⟩ := bind_eq_ok h
  unfold Checkpoint.scaling at hscaling
  split at hscaling
  · cases hscaling
  · rename_i r hr
    split at hscaling
    · cases hscaling
    · rename_i hzero
      obtain rfl := Except.ok.inj hscaling
      refine ⟨r, hr, hzero, invariant_foldlM (fun key _ _ _ hread hkey => hread.loadKey hkey)
        (fun key ab hab => ?_) h⟩
      cases hab

end Checkpoint

/-! ## Merging -/

/-- A packed projection of the model: its base weight and the rows of each projection
in it. -/
structure AttnModule (K : Type) where
  weight : Tensor K
  projRows : String → ℕ

/-- The installed modules; the rows of a weight are those of its projections. -/
structure AttnLayers (K : Type) where
  modules : Dict String (AttnModule K)
  packed : ∀ name m, modules.get? name = some m →
    m.weight.rows = Tensor.blockTotal m.projRows (packedProjs name)

abbrev MergedWeights (K : Type) := Dict String (Tensor K)

def loraPair (pairs : LoraPairs K) (i : ℤ) (p : String) : Except L3Error (Tensor K × Tensor K) :=
  match pairs.get? (layerKey i p) with
  | none => .error (.keyError (layerKey i p))
  | some ab => .ok ab

/-- The result of a tensor operation; torch raises when the shapes do not go together. -/
def tensorOp : Option (Tensor K) → Except L3Error (Tensor K)
  | none => .error .runtimeError
  | some t => .ok t

/-- The merged weight of one module. -/
def mergedWeight (pairs : LoraPairs K) (name : String) (m : AttnModule K) :
    Except L3Error (Tensor K) := do
  let i ← layerIndex name
  let deltas ← (packedProjs name).mapM (loraPair pairs i)
  let products ← deltas.mapM fun d => tensorOp (d.2.matmul? d.1)
  let delta ← tensorOp (Tensor.cat? products)
  tensorOp (m.weight.add? delta)

/-- The loop of `process` over the modules. -/
def mergeAll (layers : AttnLayers K) (pairs : LoraPairs K) : Except L3Error (MergedWeights K) :=
  layers.modules.mapValuesM (mergedWeight pairs)

/-- The product of the tensors of every projection has the shape of its rows. -/
def ShapedFor (layers : AttnLayers K) (pairs : LoraPairs K) : Prop :=
  ∀ name m i p a b, layers.modules.get? name = some m → layerIndex name = .ok i →
    p ∈ packedProjs name → pairs.get? (layerKey i p) = some (a, b) →
    b.rows = m.projRows p ∧ a.cols = m.weight.cols

/-- The tensors have the shapes of the model's projections. -/
def Fits (layers : AttnLayers K) (pairs : LoraPairs K) : Prop :=
  ∀ name m i p a b, layers.modules.get? name = some m → layerIndex name = .ok i →
    p ∈ packedProjs name → pairs.get? (layerKey i p) = some (a, b) →
    b.rows = m.projRows p ∧ b.cols = a.rows ∧ a.cols = m.weight.cols

/-- Every projection of every module has its tensors. -/
def Complete (layers : AttnLayers K) (pairs : LoraPairs K) : Prop :=
  ∀ name ∈ layers.modules, ∃ i, layerIndex name = .ok i
    ∧ ∀ p ∈ packedProjs name, layerKey i p ∈ pairs

section Merging

variable {layers : AttnLayers K} {pairs : LoraPairs K} {name : String} {m : AttnModule K}
  {w : Tensor K}

omit [Field K] in
theorem loraPair_eq_ok {i : ℤ} {p : String} {ab : Tensor K × Tensor K} :
    loraPair pairs i p = .ok ab ↔ pairs.get? (layerKey i p) = some ab := by
  unfold loraPair
  cases hget : pairs.get? (layerKey i p) with
  | none => exact iff_of_false (fun h => by cases h) fun h => by cases h
  | some ab' => rw [Except.ok.injEq, Option.some.injEq]

/-- The three lookups of a packed module, or the one of an output projection. -/
theorem mapM_loraPair {i : ℤ} {deltas : List (Tensor K × Tensor K)}
    (h : (packedProjs name).mapM (loraPair pairs i) = .ok deltas) :
    ∃ ab : String → Tensor K × Tensor K,
      (∀ p ∈ packedProjs name, pairs.get? (layerKey i p) = some (ab p))
        ∧ deltas = (packedProjs name).map ab := by
  have hpresent := mapM_eq_ok h
  choose! ab hab using hpresent
  refine ⟨ab, fun p hp => loraPair_eq_ok.mp (hab p hp), ?_⟩
  exact Except.ok.inj (h.symm.trans (mapM_of_ok hab))

omit [Field K] in
theorem tensorOp_eq_ok {o : Option (Tensor K)} {t : Tensor K} :
    tensorOp o = .ok t ↔ o = some t := by
  cases o with
  | none => exact iff_of_false (fun h => by cases h) fun h => by cases h
  | some t' => rw [tensorOp, Except.ok.injEq, Option.some.injEq]

/-- What a merged weight is made of. -/
theorem mergedWeight_eq_ok (h : mergedWeight pairs name m = .ok w) :
    ∃ i, layerIndex name = .ok i ∧ ∃ ab : String → Tensor K × Tensor K,
      (∀ p ∈ packedProjs name, pairs.get? (layerKey i p) = some (ab p)
        ∧ (ab p).2.cols = (ab p).1.rows)
        ∧ ∃ delta, Tensor.cat? ((packedProjs name).map fun p => (ab p).2.matmul (ab p).1)
            = some delta ∧ m.weight.add? delta = some w := by
  obtain ⟨i, hi, h⟩ := bind_eq_ok h
  obtain ⟨deltas, hdeltas, h⟩ := bind_eq_ok h
  obtain ⟨products, hproducts, h⟩ := bind_eq_ok h
  obtain ⟨delta, hcat, hadd⟩ := bind_eq_ok h
  obtain ⟨ab, hab, rfl⟩ := mapM_loraPair hdeltas
  have hmul : ∀ d ∈ (packedProjs name).map ab, d.2.cols = d.1.rows := fun d hd => by
    obtain ⟨t, ht⟩ := mapM_eq_ok hproducts d hd
    exact (Tensor.matmul?_eq_some.mp (tensorOp_eq_ok.mp ht)).1
  have hall : products = ((packedProjs name).map ab).map fun d => d.2.matmul d.1 :=
    Except.ok.inj (hproducts.symm.trans (mapM_of_ok fun d hd =>
      tensorOp_eq_ok.mpr (Tensor.matmul?_eq_some.mpr ⟨hmul d hd, rfl⟩)))
  refine ⟨i, hi, ab, fun p hp => ⟨hab p hp, hmul _ (List.mem_map_of_mem hp)⟩, delta, ?_,
    tensorOp_eq_ok.mp hadd⟩
  rw [hall, List.map_map] at hcat
  exact tensorOp_eq_ok.mp hcat

/-- The product blocks of one module, when all shapes are right. -/
theorem cat_of_shapes {ab : String → Tensor K × Tensor K}
    (hm : layers.modules.get? name = some m)
    (hshape : ∀ p ∈ packedProjs name, (ab p).2.rows = m.projRows p
      ∧ (ab p).2.cols = (ab p).1.rows ∧ (ab p).1.cols = m.weight.cols) :
    ∃ delta, Tensor.cat? ((packedProjs name).map fun p => (ab p).2.matmul (ab p).1) = some delta
      ∧ delta = Tensor.cat ((packedProjs name).map fun p => (ab p).2.matmul (ab p).1)
      ∧ m.weight.add? delta = some (m.weight.add delta) := by
  have hcols : ∀ t ∈ (packedProjs name).map fun p => (ab p).2.matmul (ab p).1,
      t.cols = m.weight.cols := by
    intro t ht
    obtain ⟨p, hp, rfl⟩ := List.mem_map.mp ht
    exact (hshape p hp).2.2
  have hne : (packedProjs name).map (fun p => (ab p).2.matmul (ab p).1) ≠ [] := by
    unfold packedProjs
    split <;> exact List.cons_ne_nil _ _
  refine ⟨_, Tensor.cat?_of_cols hcols, rfl, Tensor.add?_of_shape ?_ (Tensor.cols_cat hne hcols)⟩
  rw [layers.packed name m hm]
  exact Tensor.rows_cat fun p hp => (hshape p hp).1

/-- A row of a merged weight: the row of the base weight and that of the product of
its projection. -/
theorem mergedWeight_spec (hfits : Fits layers pairs) (hm : layers.modules.get? name = some m)
    (h : mergedWeight pairs name m = .ok w) :
    ∃ i, layerIndex name = .ok i ∧ w.rows = m.weight.rows ∧ w.cols = m.weight.cols
      ∧ ∀ row p r, Tensor.locate m.projRows (packedProjs name) row = some (p, r) →
        p ∈ packedProjs name → ∃ a b, pairs.get? (layerKey i p) = some (a, b)
          ∧ ∀ j, w.entry row j = m.weight.entry row j + (b.matmul a).entry r j := by
  obtain ⟨i, hi, ab, hab, delta, hcat, hadd⟩ := mergedWeight_eq_ok h
  have hshape := fun p hp => hfits name m i p (ab p).1 (ab p).2 hm hi hp (hab p hp).1
  obtain ⟨delta', hcat', rfl, hadd'⟩ := cat_of_shapes hm hshape
  obtain rfl := Option.some.inj (hcat.symm.trans hcat')
  obtain rfl := Option.some.inj (hadd.symm.trans hadd')
  refine ⟨i, hi, rfl, rfl, fun row p r hloc hp => ⟨(ab p).1, (ab p).2, (hab p hp).1, fun j => ?_⟩⟩
  have hrows : ∀ q ∈ packedProjs name, ((ab q).2.matmul (ab q).1).rows = m.projRows q :=
    fun q hq => (hshape q hq).1
  exact congrArg (m.weight.entry row j + ·) (Tensor.entry_cat hrows hloc)

theorem mergedWeight_returns (hfits : Fits layers pairs)
    (hm : layers.modules.get? name = some m) {i : ℤ} (hi : layerIndex name = .ok i)
    (hmem : ∀ p ∈ packedProjs name, layerKey i p ∈ pairs) :
    ∃ w, mergedWeight pairs name m = .ok w := by
  have hpairs : ∀ p ∈ packedProjs name, ∃ ab, pairs.get? (layerKey i p) = some ab :=
    fun p hp => Dict.mem_iff_get?.mp (hmem p hp)
  choose! ab hab using hpairs
  have hshape := fun p hp => hfits name m i p (ab p).1 (ab p).2 hm hi hp (hab p hp)
  obtain ⟨delta, hcat, -, hadd⟩ := cat_of_shapes hm hshape
  have hdeltas : (packedProjs name).mapM (loraPair pairs i) = .ok ((packedProjs name).map ab) :=
    mapM_of_ok fun p hp => loraPair_eq_ok.mpr (hab p hp)
  have hproducts : ((packedProjs name).map ab).mapM (fun d => tensorOp (d.2.matmul? d.1))
      = .ok (((packedProjs name).map ab).map fun d => d.2.matmul d.1) := by
    refine mapM_of_ok fun d hd => ?_
    obtain ⟨p, hp, rfl⟩ := List.mem_map.mp hd
    exact tensorOp_eq_ok.mpr (Tensor.matmul?_eq_some.mpr ⟨(hshape p hp).2.1, rfl⟩)
  have hdelta : tensorOp (Tensor.cat? (((packedProjs name).map ab).map fun d => d.2.matmul d.1))
      = .ok delta := by
    rw [List.map_map]
    exact tensorOp_eq_ok.mpr hcat
  refine ⟨m.weight.add delta, ?_⟩
  simp only [mergedWeight, hi, hdeltas, hproducts, hdelta, bind, Except.bind]
  exact tensorOp_eq_ok.mpr hadd

/-- The loop gets through when nothing is missing and the shapes fit. -/
theorem mergeAll_returns (hcomplete : Complete layers pairs) (hfits : Fits layers pairs) :
    ∃ merged, mergeAll layers pairs = .ok merged := by
  refine Dict.mapValuesM_returns fun name m hm => ?_
  obtain ⟨i, hi, hmem⟩ := hcomplete name (Dict.mem_iff_get?.mpr ⟨m, hm⟩)
  exact mergedWeight_returns hfits hm hi hmem

/-- What the loop has checked when it got through. -/
theorem complete_of_mergeAll {merged : MergedWeights K} (h : mergeAll layers pairs = .ok merged) :
    Complete layers pairs ∧ (ShapedFor layers pairs → Fits layers pairs) := by
  have hmodule : ∀ name m, layers.modules.get? name = some m → ∃ i, layerIndex name = .ok i
      ∧ ∃ ab : String → Tensor K × Tensor K, ∀ p ∈ packedProjs name,
        pairs.get? (layerKey i p) = some (ab p) ∧ (ab p).2.cols = (ab p).1.rows := by
    intro name m hm
    obtain ⟨w, hw, -⟩ := Dict.get?_mapValuesM h hm
    obtain ⟨i, hi, ab, hab, -⟩ := mergedWeight_eq_ok hw
    exact ⟨i, hi, ab, hab⟩
  constructor
  · intro name hname
    obtain ⟨m, hm⟩ := Dict.mem_iff_get?.mp hname
    obtain ⟨i, hi, ab, hab⟩ := hmodule name m hm
    exact ⟨i, hi, fun p hp => Dict.mem_iff_get?.mpr ⟨ab p, (hab p hp).1⟩⟩
  · intro hshaped name m i p a b hm hi hp hget
    obtain ⟨i', hi', ab, hab⟩ := hmodule name m hm
    obtain rfl := Except.ok.inj (hi.symm.trans hi')
    obtain ⟨hrows, hcols⟩ := hshaped name m i p a b hm hi hp hget
    obtain ⟨hget', hinner⟩ := hab p hp
    rw [hget, Option.some.injEq] at hget'
    rw [← hget'] at hinner
    exact ⟨hrows, hinner, hcols⟩

end Merging

end AdapterSlots
