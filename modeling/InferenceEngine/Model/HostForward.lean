import InferenceEngine.Model.Checkpoint
import InferenceEngine.Model.Chunks
import InferenceEngine.Model.HostKernels
import Mathlib.Analysis.SpecialFunctions.Pow.Real

/-!
# The forward pass of the host on tensors

`Model::forward_cached` of `model.cpp` on whole tensors, with the contiguous cache as flat vectors. On the tensors of
a checkpoint it returns what the model of rows returns, row by row, and leaves the same rows in its cache.
-/

namespace InferenceEngine

open Exec
open Nn (linearRow rmsNormRow)

/-- The constructor of a tensor from a shape and its data. -/
def Nn.Tensor.ofData {K : Type} (shape : Dims) (data : List K) : Except Error (Nn.Tensor K) :=
  if h : data.length = shape.numel then .ok ⟨shape, data, h⟩
  else .error (.invalidArgument "Tensor: shape does not match data size")

namespace Host

/-- `KVCache`, its vectors flat. -/
structure KVCache (K : Type) where
  keys : Nat → List K
  values : Nat → List K
  kvDim : Nat
  length : Nat

namespace KVCache

variable {K : Type}

def create (kvDim : Nat) : KVCache K := ⟨fun _ => [], fun _ => [], kvDim, 0⟩

def append (cache : KVCache K) (layer : Nat) (k v : List K) (nRows : Nat) : KVCache K :=
  let n := nRows * cache.kvDim
  { cache with
    keys := Function.update cache.keys layer (cache.keys layer ++ k.take n)
    values := Function.update cache.values layer (cache.values layer ++ v.take n) }

def rows (cache : KVCache K) (layer : Nat) : Nat := (cache.keys layer).length / cache.kvDim

def keyTensor (cache : KVCache K) (layer : Nat) : Except Error (Nn.Tensor K) :=
  Nn.Tensor.ofData [cache.rows layer, cache.kvDim] (cache.keys layer)

def valueTensor (cache : KVCache K) (layer : Nat) : Except Error (Nn.Tensor K) :=
  Nn.Tensor.ofData [cache.rows layer, cache.kvDim] (cache.values layer)

def advance (n : Nat) (cache : KVCache K) : KVCache K := { cache with length := cache.length + n }

/-- A cache that holds the rows of another, one after another. -/
structure HoldsRows (width : Nat) (cache : KVCache K) (rows : InferenceEngine.KVCache K) : Prop where
  kvDim : cache.kvDim = width
  keys : ∀ l, cache.keys l = (rows.keys l).flatten
  values : ∀ l, cache.values l = (rows.values l).flatten
  keyWidth : ∀ l, ∀ row ∈ rows.keys l, row.length = width
  valueWidth : ∀ l, ∀ row ∈ rows.values l, row.length = width
  count : ∀ l, (rows.values l).length = (rows.keys l).length
  length : cache.length = rows.length

theorem holdsRows_create (width : Nat) : HoldsRows width (create width : KVCache K) InferenceEngine.KVCache.empty where
  kvDim := rfl
  keys _ := rfl
  values _ := rfl
  keyWidth _ _ h := absurd h List.not_mem_nil
  valueWidth _ _ h := absurd h List.not_mem_nil
  count _ := rfl
  length := rfl

namespace HoldsRows

variable {width : Nat} {cache : KVCache K} {rowCache : InferenceEngine.KVCache K}

theorem advance (h : HoldsRows width cache rowCache) (n : Nat) :
    HoldsRows width (cache.advance n) { rowCache with length := rowCache.length + n } :=
  { h with length := congrArg (· + n) h.length }

theorem append_data {old : List K} {oldRows rows : Rows K} {t : Nn.Tensor K} {n : Nat} (hold : old = oldRows.flatten)
    (ht : t.HasRows width rows) (hn : rows.length = n) :
    old ++ t.data.take (n * width) = (oldRows ++ rows.take n).flatten := by
  have hlen : t.data.length = n * width := by rw [ht.data, Loop.length_flatten_of_width ht.width, hn]
  rw [List.take_of_length_le hlen.le, List.take_of_length_le hn.le, List.flatten_append, hold, ht.data]

theorem append (h : HoldsRows width cache rowCache) (layer : Nat) {k v : Nn.Tensor K} {kRows vRows : Rows K} {n : Nat}
    (hk : k.HasRows width kRows) (hv : v.HasRows width vRows) (hkn : kRows.length = n) (hvn : vRows.length = n) :
    HoldsRows width (cache.append layer k.data v.data n) (rowCache.append layer kRows vRows n) := by
  have hwidth : ∀ {old rows : Rows K}, (∀ row ∈ old, row.length = width) → (∀ row ∈ rows, row.length = width) →
      ∀ row ∈ old ++ rows.take n, row.length = width := by
    intro old rows hold hrows row hrow
    rcases List.mem_append.mp hrow with hrow | hrow
    · exact hold row hrow
    · exact hrows row (List.mem_of_mem_take hrow)
  have hkvDim := h.kvDim
  subst hkvDim
  have hcount : (rowCache.values layer ++ vRows.take n).length = (rowCache.keys layer ++ kRows.take n).length := by
    rw [List.length_append, List.length_append, List.length_take, List.length_take, h.count, hkn, hvn]
  refine ⟨rfl, fun l => ?_, fun l => ?_, fun l => ?_, fun l => ?_, fun l => ?_, h.length⟩
  all_goals
    by_cases hl : l = layer
    case neg =>
      simp only [KVCache.append, InferenceEngine.KVCache.append, Function.update_of_ne hl]
      first | exact h.keys l | exact h.values l | exact h.keyWidth l | exact h.valueWidth l | exact h.count l
    subst hl
    simp only [KVCache.append, InferenceEngine.KVCache.append, Function.update_self]
  · exact append_data (h.keys l) hk hkn
  · exact append_data (h.values l) hv hvn
  · exact hwidth (h.keyWidth l) hk.width
  · exact hwidth (h.valueWidth l) hv.width
  · exact hcount

theorem tensor_of_rows {rows : Rows K} (hwidth : 0 < width) (h : ∀ row ∈ rows, row.length = width) :
    ∃ t, Nn.Tensor.ofData [rows.flatten.length / width, width] rows.flatten = .ok t ∧ t.HasRows width rows := by
  have hlen := Loop.length_flatten_of_width h
  have hrows : rows.flatten.length / width = rows.length := by rw [hlen, Nat.mul_div_cancel _ hwidth]
  have hsize : rows.flatten.length = Dims.numel [rows.flatten.length / width, width] := by
    rw [Dims.numel_matrix, hrows, hlen]
  rw [Nn.Tensor.ofData, dif_pos hsize]
  exact ⟨_, rfl, congrArg (fun n => [n, width]) hrows, h, rfl⟩

theorem keyTensor (h : HoldsRows width cache rowCache) (hwidth : 0 < width) (layer : Nat) :
    ∃ t, cache.keyTensor layer = .ok t ∧ t.HasRows width (rowCache.keys layer) := by
  rw [KVCache.keyTensor, KVCache.rows, h.keys, h.kvDim]
  exact tensor_of_rows hwidth (h.keyWidth layer)

theorem valueTensor (h : HoldsRows width cache rowCache) (hwidth : 0 < width) (layer : Nat) :
    ∃ t, cache.valueTensor layer = .ok t ∧ t.HasRows width (rowCache.values layer) := by
  have hlen : (rowCache.keys layer).flatten.length = (rowCache.values layer).flatten.length := by
    rw [Loop.length_flatten_of_width (h.keyWidth layer), Loop.length_flatten_of_width (h.valueWidth layer), h.count]
  rw [KVCache.valueTensor, KVCache.rows, h.keys, h.values, h.kvDim, hlen]
  exact tensor_of_rows hwidth (h.valueWidth layer)

end HoldsRows

end KVCache

/-- `Model`, loaded from a checkpoint. Nothing is quantised. -/
structure Model (K : Type) [Field K] [LinearOrder K] where
  checkpoint : Checkpoint K
  math : MathFunctions K

namespace Model

variable {K : Type} [Field K] [LinearOrder K] (M : Model K)

protected def get (name : String) : Except Error (Nn.Tensor K) :=
  match M.checkpoint.weights name with
  | some w => .ok w
  | none => .error (.runtimeError ("safetensors: missing tensor '" ++ name ++ "'"))

/-- `linear_w`, with or without a bias. -/
def linearW (x : Nn.Tensor K) (name : String) (bias : Option (Nn.Tensor K)) : Except Error (Nn.Tensor K) := do
  let weight ← M.get name
  Nn.linear x weight (bias.getD .empty)

def project (l : Nat) (normed : Nn.Tensor K) (name : String) : Except Error (Nn.Tensor K) := do
  let wkey := layerKey l ("self_attn." ++ name ++ "_proj.weight")
  if M.checkpoint.config.attentionQkvBias then
    let bias ← M.get (layerKey l ("self_attn." ++ name ++ "_proj.bias"))
    M.linearW normed wkey (some bias)
  else M.linearW normed wkey none

/-- A layer of `forward_cached` up to the rotation of queries and keys. -/
def layerInputs (l : Nat) (positions : List Nat) (x : Nn.Tensor K) :
    Except Error (Nn.Tensor K × Nn.Tensor K × Nn.Tensor K) := do
  let c := M.checkpoint.config
  let inputNorm ← M.get (layerKey l "input_layernorm.weight")
  let normed ← rmsNorm M.math x inputNorm c.rmsNormEps
  let q ← M.project l normed "q"
  let k ← M.project l normed "k"
  let v ← M.project l normed "v"
  let q ← ropeInplace M.math q c.numAttentionHeads c.headDim c.ropeTheta positions
  let k ← ropeInplace M.math k c.numKeyValueHeads c.headDim c.ropeTheta positions
  return (q, k, v)

/-- A layer of `forward_cached` from the output projection on. -/
def layerOutput (l : Nat) (x attn : Nn.Tensor K) : Except Error (Nn.Tensor K) := do
  let attnOut ← M.linearW attn (layerKey l "self_attn.o_proj.weight") none
  let x := addInplace x attnOut
  let postNorm ← M.get (layerKey l "post_attention_layernorm.weight")
  let normed2 ← rmsNorm M.math x postNorm M.checkpoint.config.rmsNormEps
  let gate ← M.linearW normed2 (layerKey l "mlp.gate_proj.weight") none
  let up ← M.linearW normed2 (layerKey l "mlp.up_proj.weight") none
  let act ← siluMul M.math gate up
  let down ← M.linearW act (layerKey l "mlp.down_proj.weight") none
  return addInplace x down

def layerCached (past : Nat) (positions : List Nat) (x : Nn.Tensor K) (l : Nat) :
    EStateM Error (KVCache K) (Nn.Tensor K) := do
  let c := M.checkpoint.config
  let (q, k, v) ← lift (M.layerInputs l positions x)
  modify fun cache => cache.append l k.data v.data positions.length
  let cache ← get
  let kAll ← lift (cache.keyTensor l)
  let vAll ← lift (cache.valueTensor l)
  let attn ← lift (attention M.math q kAll vAll c.numAttentionHeads c.numKeyValueHeads c.headDim past)
  lift (M.layerOutput l x attn)

def forwardCached (ids : List Int) : EStateM Error (KVCache K) (Nn.Tensor K) := do
  if ids = [] then
    throw (.invalidArgument "forward: empty input sequence")
  let c := M.checkpoint.config
  let past := (← get).length
  let positions := (List.range ids.length).map (past + ·)
  let embed ← lift (M.get "model.embed_tokens.weight")
  let x ← lift (embedding embed ids)
  let x ← (List.range c.numHiddenLayers).foldlM (M.layerCached past positions) x
  modify (KVCache.advance ids.length)
  let norm ← lift (M.get "model.norm.weight")
  let normed ← lift (rmsNorm M.math x norm c.rmsNormEps)
  let lmHead := (M.checkpoint.weights "lm_head.weight").getD embed
  lift (Nn.linear normed lmHead .empty)

def forwardWithCache (ids : List Int) : EStateM Error (KVCache K) (Nn.Tensor K) := M.forwardCached ids

/-- `forward`: the logits of every token of a sequence. -/
def forward (ids : List Int) : Except Error (Nn.Tensor K) :=
  let c := M.checkpoint.config
  match M.forwardWithCache ids (KVCache.create (c.numKeyValueHeads * c.headDim)) with
  | .ok logits _ => .ok logits
  | .error e _ => .error e

/-! ### Row by row -/

section Rows

variable {M} {rows : Rows K} {x : Nn.Tensor K}

theorem get_tensor {name : String} {shape : Dims} (h : HasShape M.checkpoint.weights name shape) :
    M.get name = .ok (M.checkpoint.tensor name) := by
  rw [Model.get, (Checkpoint.found h).1]

theorem linearW_rows {name : String} {inDim outDim : Nat} (h : HasShape M.checkpoint.weights name [outDim, inDim])
    (hx : x.HasRows inDim rows) {bias : Option (Nn.Tensor K)} (hbias : ∀ b ∈ bias, b.shape = [outDim]) :
    ∃ out, M.linearW x name bias = .ok out ∧
      out.HasRows outDim (rows.map fun row => linearRow row (M.checkpoint.tensor name) bias) := by
  rw [linearW, get_tensor h, ok_bind]
  exact linear_rows hx (Checkpoint.found h).2 hbias

theorem project_rows {l : Nat} (name : String) {inDim outDim : Nat}
    (h : HasShape M.checkpoint.weights (layerKey l ("self_attn." ++ name ++ "_proj.weight")) [outDim, inDim])
    (hbias : M.checkpoint.config.attentionQkvBias →
      HasShape M.checkpoint.weights (layerKey l ("self_attn." ++ name ++ "_proj.bias")) [outDim])
    (hx : x.HasRows inDim rows) :
    ∃ out, M.project l x name = .ok out ∧ out.HasRows outDim (rows.map fun row =>
      linearRow row (M.checkpoint.tensor (layerKey l ("self_attn." ++ name ++ "_proj.weight")))
        (M.checkpoint.biasTensor l name)) := by
  rw [project, Checkpoint.biasTensor]
  split
  · next hqkv =>
    have hshape := (Checkpoint.found (hbias hqkv)).2
    rw [get_tensor (hbias hqkv), ok_bind]
    exact linearW_rows h hx fun b hb => Option.some.inj hb ▸ hshape
  · exact linearW_rows h hx fun b hb => absurd hb (by simp)

variable {l : Nat} (hl : l < M.checkpoint.config.numHiddenLayers)
include hl

/-- The tensors of queries, keys and values have the rows of the block. -/
theorem layerInputs_rows {positions : List Nat} (hx : x.HasRows M.checkpoint.hiddenSize rows)
    (hlen : positions.length = rows.length) :
    ∃ q k v, M.layerInputs l positions x = .ok (q, k, v) ∧
      q.HasRows M.checkpoint.qDim (List.zipWith (M.checkpoint.block M.math l).query positions rows) ∧
      k.HasRows M.checkpoint.kvDim (List.zipWith (M.checkpoint.block M.math l).key positions rows) ∧
      v.HasRows M.checkpoint.kvDim (List.zipWith (M.checkpoint.block M.math l).value positions rows) := by
  have h := M.checkpoint.layer l hl
  obtain ⟨normed, hnormed, hrows⟩ := rmsNorm_rows (F := M.math) hx (Checkpoint.found h.inputNorm).2
    M.checkpoint.config.rmsNormEps
  obtain ⟨q, hq, hqRows⟩ := project_rows "q" h.query h.queryBias hrows
  obtain ⟨k, hk, hkRows⟩ := project_rows "k" h.key h.keyBias hrows
  obtain ⟨v, hv, hvRows⟩ := project_rows "v" h.value h.valueBias hrows
  have hlen' : positions.length = (rows.map fun row => rmsNormRow M.math row
      (M.checkpoint.tensor (layerKey l "input_layernorm.weight")) M.checkpoint.config.rmsNormEps).length := by
    rwa [List.length_map]
  obtain ⟨q', hq', hqRows'⟩ := ropeInplace_rows (F := M.math) hqRows M.checkpoint.config.ropeTheta
    (hlen'.trans (List.length_map _).symm)
  obtain ⟨k', hk', hkRows'⟩ := ropeInplace_rows (F := M.math) hkRows M.checkpoint.config.ropeTheta
    (hlen'.trans (List.length_map _).symm)
  rw [List.map_map, List.zipWith_map_right] at hqRows' hkRows'
  rw [List.map_map] at hvRows
  refine ⟨q', k', v, ?_, hqRows', hkRows', ?_⟩
  · simp only [layerInputs]
    rw [get_tensor h.inputNorm, ok_bind, hnormed, ok_bind, hq, ok_bind, hk, ok_bind, hv, ok_bind, hq', ok_bind, hk',
      ok_bind]
    rfl
  · have hvalue : List.zipWith (M.checkpoint.block M.math l).value positions rows =
        rows.map (M.checkpoint.projectRow M.math l "v") := zipWith_const_left _ hlen
    rw [hvalue]
    exact hvRows

theorem layerOutput_rows {attn : Nn.Tensor K} {attnRows : Rows K} (hx : x.HasRows M.checkpoint.hiddenSize rows)
    (hattn : attn.HasRows M.checkpoint.qDim attnRows) (hlen : attnRows.length = rows.length) :
    ∃ out, M.layerOutput l x attn = .ok out ∧
      out.HasRows M.checkpoint.hiddenSize (List.zipWith (M.checkpoint.finishRow M.math l) rows attnRows) := by
  have h := M.checkpoint.layer l hl
  have hnone : ∀ {shape : Dims}, ∀ b ∈ (none : Option (Nn.Tensor K)), b.shape = shape :=
    fun b hb => absurd hb (by simp)
  obtain ⟨attnOut, hattnOut, hattnOutRows⟩ := linearW_rows h.output hattn hnone
  have hx' := addInplace_rows hx hattnOutRows ((List.length_map _).trans hlen)
  obtain ⟨normed, hnormed, hnormedRows⟩ := rmsNorm_rows (F := M.math) hx' (Checkpoint.found h.postNorm).2
    M.checkpoint.config.rmsNormEps
  obtain ⟨gate, hgate, hgateRows⟩ := linearW_rows h.gate hnormedRows hnone
  obtain ⟨up, hup, hupRows⟩ := linearW_rows h.up hnormedRows hnone
  obtain ⟨act, hact, hactRows⟩ := siluMul_rows (F := M.math) hgateRows hupRows (by simp)
  obtain ⟨down, hdown, hdownRows⟩ := linearW_rows h.down hactRows hnone
  have hout := addInplace_rows hx' hdownRows (by simp)
  refine ⟨addInplace (addInplace x attnOut) down, ?_, ?_⟩
  · simp only [layerOutput]
    rw [hattnOut, ok_bind, get_tensor h.postNorm, ok_bind, hnormed, ok_bind, hgate, ok_bind, hup, ok_bind, hact,
      ok_bind, hdown, ok_bind]
    rfl
  · rw [Checkpoint.finishRows_eq]
    exact hout

omit hl

theorem attention_yields {past : Nat} {q k v : Nn.Tensor K} {qRows kRows vRows : Rows K}
    (hq : q.HasRows M.checkpoint.qDim qRows) (hk : k.HasRows M.checkpoint.kvDim kRows)
    (hv : v.HasRows M.checkpoint.kvDim vRows) (hlen : vRows.length = kRows.length) :
    Yields (fun t rows => t.HasRows M.checkpoint.qDim rows ∧ rows.length = qRows.length)
      (attention M.math q k v M.checkpoint.config.numAttentionHeads M.checkpoint.config.numKeyValueHeads
        M.checkpoint.config.headDim past)
      ((M.checkpoint.host M.math).attend qRows kRows vRows past) := by
  rw [InferenceEngine.Model.attend, Kernels.attentionRows, if_neg (not_not_intro hlen)]
  split
  · exact fun out hout => absurd hout (by simp)
  split
  · exact fun out hout => absurd hout (by simp)
  next hroom =>
    obtain ⟨out, hout, hrows⟩ := attention_rows (F := M.math) hq hk hv hlen M.checkpoint.numKeyValueHeads_pos
      M.checkpoint.heads_dvd (not_lt.mp hroom)
    rw [hout]
    exact Yields.ok ⟨hrows, List.length_mapIdx⟩

include hl

/-- A layer returns the rows that the layer of rows returns, over the same cache. -/
theorem follows_layerCached (past : Nat) {positions : List Nat} (hx : x.HasRows M.checkpoint.hiddenSize rows)
    (hlen : positions.length = rows.length) :
    Follows (KVCache.HoldsRows M.checkpoint.kvDim)
      (fun t rows' => t.HasRows M.checkpoint.hiddenSize rows' ∧ positions.length = rows'.length)
      (M.layerCached past positions x l) ((M.checkpoint.host M.math).layerCached past positions rows l) := by
  have hblock := Checkpoint.host_block (F := M.math) hl
  have hkv : 0 < M.checkpoint.kvDim := Nat.mul_pos M.checkpoint.numKeyValueHeads_pos M.checkpoint.headDim_pos
  have hcount : ∀ f : Nat → Row K → Row K, (List.zipWith f positions rows).length = positions.length := by
    intro f
    rw [List.length_zipWith, hlen, Nat.min_self]
  obtain ⟨q, k, v, hinputs, hq, hk, hv⟩ := layerInputs_rows hl hx hlen
  obtain ⟨_, _, _, -, hfinish, -⟩ := InferenceEngine.Model.block_ok hblock
  rw [layerCached, InferenceEngine.Model.layerCached, hinputs, InferenceEngine.Model.layerInputs_eq hblock hlen,
    lift_ok_bind, lift_ok_bind]
  apply (follows_modify fun cache rowCache h => h.append l hk hv (hcount _) (hcount _)).bind
  intro _ _ _
  apply follows_get.bind
  intro cache rowCache h
  obtain ⟨kAll, hkAll, hkRows⟩ := h.keyTensor hkv l
  obtain ⟨vAll, hvAll, hvRows⟩ := h.valueTensor hkv l
  rw [hkAll, hvAll, lift_ok_bind, lift_ok_bind]
  apply (follows_lift (attention_yields hq hkRows hvRows (h.count l))).bind
  intro attn attnRows hattn
  have hattnLen : attnRows.length = rows.length := hattn.2.trans ((hcount _).trans hlen)
  obtain ⟨out, hout, hrows⟩ := layerOutput_rows hl hx hattn.1 hattnLen
  rw [InferenceEngine.Model.layerOutput_eq, hfinish, hout]
  apply follows_lift
  apply Yields.ok
  refine ⟨hrows, ?_⟩
  rw [List.length_zipWith, hattnLen, Nat.min_self, hlen]

omit hl

theorem embedding_yields (ids : List Int) :
    Yields (fun t rows => t.HasRows M.checkpoint.hiddenSize rows ∧ ids.length = rows.length)
      (embedding (M.checkpoint.tensor "model.embed_tokens.weight") ids)
      ((M.checkpoint.host M.math).kernels.embedding (M.checkpoint.tensor "model.embed_tokens.weight") ids) := by
  intro rows hrows
  obtain ⟨hfound, hshape⟩ := Checkpoint.found M.checkpoint.embed
  have hvocab := InferenceEngine.Model.inVocab_of_embedding (M := M.checkpoint.host M.math) hfound hrows
  rw [InferenceEngine.Model.embedding_eq hfound hvocab] at hrows
  obtain rfl := Except.ok.inj hrows
  obtain ⟨out, hout, hrows⟩ := embedding_rows hshape fun id hid => Checkpoint.host_inVocab.mp (hvocab id hid)
  refine ⟨out, hout, ?_, (List.length_map _).symm⟩
  rw [funext (Checkpoint.host_embed (F := M.math) (C := M.checkpoint))]
  exact hrows

/-- The last norm and the output projection give the logits of the rows. -/
theorem logits_rows (hx : x.HasRows M.checkpoint.hiddenSize rows) :
    ∃ normed out, rmsNorm M.math x (M.checkpoint.tensor "model.norm.weight") M.checkpoint.config.rmsNormEps =
        .ok normed ∧
      Nn.linear normed M.checkpoint.headTensor .empty = .ok out ∧
      out.HasRows M.checkpoint.config.vocabSize (rows.map (M.checkpoint.host M.math).logitsRow) := by
  obtain ⟨normed, hnormed, hrows⟩ := rmsNorm_rows (F := M.math) hx (Checkpoint.found M.checkpoint.norm).2
    M.checkpoint.config.rmsNormEps
  have hnone : ∀ b ∈ (none : Option (Nn.Tensor K)), b.shape = [M.checkpoint.config.vocabSize] :=
    fun b hb => absurd hb (by simp)
  obtain ⟨out, hout, hlogits⟩ := linear_rows hrows Checkpoint.headTensor_shape hnone
  rw [List.map_map] at hlogits
  refine ⟨normed, out, hnormed, hout, ?_⟩
  rw [funext (Checkpoint.host_logitsRow (F := M.math) (C := M.checkpoint))]
  exact hlogits

/-- **The forward pass** returns the rows that the model of rows returns, over the same cache. -/
theorem follows_forwardCached (ids : List Int) :
    Follows (KVCache.HoldsRows M.checkpoint.kvDim) (fun t rows => t.HasRows M.checkpoint.config.vocabSize rows)
      (M.forwardCached ids) ((M.checkpoint.host M.math).forwardWithCache ids) := by
  have hembed := (Checkpoint.found M.checkpoint.embed).1
  have hnorm := (Checkpoint.found M.checkpoint.norm).1
  have hlen : ∀ past : Nat, ((List.range ids.length).map (past + ·)).length = ids.length := by simp
  have hfirst : (M.checkpoint.host M.math).get "model.embed_tokens.weight" =
      .ok (M.checkpoint.tensor "model.embed_tokens.weight") := Checkpoint.get_tensor M.checkpoint.embed
  rw [forwardCached, InferenceEngine.Model.forwardWithCache, InferenceEngine.Model.forwardCached]
  split
  · intro cache rowCache h b t hb
    cases hb
  apply follows_get.bind
  intro cache rowCache h
  have hpast : (Cache.length rowCache : Nat) = cache.length := h.length.symm
  simp only [hpast]
  rw [get_tensor M.checkpoint.embed, hfirst, lift_ok_bind, lift_ok_bind]
  apply (follows_lift (embedding_yields ids)).bind
  intro x rows hx
  have hloop : Follows (KVCache.HoldsRows M.checkpoint.kvDim)
      (fun t rows => t.HasRows M.checkpoint.hiddenSize rows ∧ ids.length = rows.length)
      ((List.range M.checkpoint.config.numHiddenLayers).foldlM
        (M.layerCached cache.length ((List.range ids.length).map (cache.length + ·))) x)
      ((List.range M.checkpoint.config.numHiddenLayers).foldlM ((M.checkpoint.host M.math).layerCached cache.length
        ((List.range ids.length).map (cache.length + ·))) rows) := by
    apply Follows.foldlM
    · intro x rows hx l hl
      have hlayer := follows_layerCached (List.mem_range.mp hl) cache.length hx.1 ((hlen cache.length).trans hx.2)
      rwa [hlen] at hlayer
    · exact hx
  apply hloop.bind
  intro x rows hx
  apply (follows_modify fun cache rowCache h => h.advance ids.length).bind
  intro _ _ _
  obtain ⟨normed, out, hnormed, hout, hrows⟩ := logits_rows hx.1
  obtain ⟨hfinal, hhead⟩ := InferenceEngine.Model.finalNorm_lmHead (M := M.checkpoint.host M.math) hembed hnorm rows
  rw [get_tensor M.checkpoint.norm, hfinal, lift_ok_bind, lift_ok_bind, hnormed, lift_ok_bind, hhead]
  change Follows _ _ (lift (Nn.linear normed M.checkpoint.headTensor .empty)) _
  rw [hout]
  exact follows_pure hrows

theorem forward_rows {ids : List Int} {logits : Rows K} (h : (M.checkpoint.host M.math).forward ids = .ok logits) :
    ∃ out, M.forward ids = .ok out ∧ out.HasRows M.checkpoint.config.vocabSize logits := by
  rw [InferenceEngine.Model.forward] at h
  split at h
  · next rows rowCache hrun =>
    obtain rfl := Except.ok.inj h
    obtain ⟨out, cache, hout, hrows, -⟩ := follows_forwardCached ids _ _ (KVCache.holdsRows_create
      (M.checkpoint.config.numKeyValueHeads * M.checkpoint.config.headDim)) _ _ hrun
    have hout : M.forwardWithCache ids (KVCache.create
      (M.checkpoint.config.numKeyValueHeads * M.checkpoint.config.headDim)) = .ok out cache := hout
    refine ⟨out, ?_, hrows⟩
    simp only [forward, hout]
  · exact absurd h (by simp)

end Rows

end Model

end Host

/-! ### A small checkpoint -/

def tinyShape (name : String) : Option Dims :=
  match name with
  | "model.embed_tokens.weight" => some [3, 2]
  | "model.norm.weight" => some [2]
  | "model.layers.0.input_layernorm.weight" => some [2]
  | "model.layers.0.self_attn.q_proj.weight" => some [4, 2]
  | "model.layers.0.self_attn.k_proj.weight" => some [2, 2]
  | "model.layers.0.self_attn.v_proj.weight" => some [2, 2]
  | "model.layers.0.self_attn.q_proj.bias" => some [4]
  | "model.layers.0.self_attn.k_proj.bias" => some [2]
  | "model.layers.0.self_attn.v_proj.bias" => some [2]
  | "model.layers.0.self_attn.o_proj.weight" => some [2, 4]
  | "model.layers.0.post_attention_layernorm.weight" => some [2]
  | "model.layers.0.mlp.gate_proj.weight" => some [1, 2]
  | "model.layers.0.mlp.up_proj.weight" => some [1, 2]
  | "model.layers.0.mlp.down_proj.weight" => some [2, 1]
  | _ => none

def tinyWeights (name : String) : Option (Nn.Tensor ℝ) :=
  (tinyShape name).map fun shape => Nn.Tensor.ofCells shape fun i => i

theorem tiny_hasShape {name : String} {shape : Dims} (h : tinyShape name = some shape) :
    HasShape tinyWeights name shape := by
  refine ⟨Nn.Tensor.ofCells shape fun i => i, ?_, rfl⟩
  rw [tinyWeights, h]
  rfl

/-- A checkpoint of one layer, with two query heads over one key head. -/
def tinyCheckpoint : Checkpoint ℝ where
  config := ⟨1, 2, 1, 2, 3, 1, 1, true⟩
  hiddenSize := 2
  intermediateSize := 1
  weights := tinyWeights
  numHiddenLayers_pos := Nat.one_pos
  numKeyValueHeads_pos := Nat.one_pos
  numAttentionHeads_pos := Nat.two_pos
  heads_dvd := by decide
  headDim_pos := Nat.two_pos
  hiddenSize_pos := Nat.two_pos
  intermediateSize_pos := Nat.one_pos
  embed := tiny_hasShape (by decide)
  layer l hl := by
    obtain rfl := Nat.lt_one_iff.mp hl
    constructor
    all_goals first | exact tiny_hasShape (by decide) | exact fun _ => tiny_hasShape (by decide)
  norm := tiny_hasShape (by decide)
  head w hw := by
    have hnone : tinyShape "lm_head.weight" = none := by decide
    rw [tinyWeights, hnone] at hw
    exact absurd hw (by simp)

noncomputable def realFunctions : MathFunctions ℝ where
  exp := Real.exp
  pos := Real.exp_pos
  add := Real.exp_add
  sqrt := Real.sqrt
  cos := Real.cos
  sin := Real.sin
  pow := fun x y => x ^ y

end InferenceEngine
