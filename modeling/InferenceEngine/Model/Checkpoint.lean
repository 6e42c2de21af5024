import InferenceEngine.Model.Decoder
import InferenceEngine.Model.RowKernels

/-!
# Checkpoints

A configuration and tensors of the shapes it asks for. The model that the host loads from one finds every tensor,
and each of its layers is a causal block made of the row kernels.
-/

namespace InferenceEngine

open Nn (linearRow rmsNormRow ropeRow attentionRow)

/-- A tensor is there and has a shape. -/
def HasShape {K : Type} (weights : String → Option (Nn.Tensor K)) (name : String) (shape : Dims) : Prop :=
  ∃ w, weights name = some w ∧ w.shape = shape

/-- The tensors of a layer. -/
structure LayerShaped {K : Type} (config : ModelConfig K) (hiddenSize intermediateSize : Nat)
    (weights : String → Option (Nn.Tensor K)) (l : Nat) : Prop where
  inputNorm : HasShape weights (layerKey l "input_layernorm.weight") [hiddenSize]
  query : HasShape weights (layerKey l "self_attn.q_proj.weight")
    [config.numAttentionHeads * config.headDim, hiddenSize]
  key : HasShape weights (layerKey l "self_attn.k_proj.weight")
    [config.numKeyValueHeads * config.headDim, hiddenSize]
  value : HasShape weights (layerKey l "self_attn.v_proj.weight")
    [config.numKeyValueHeads * config.headDim, hiddenSize]
  queryBias : config.attentionQkvBias → HasShape weights (layerKey l "self_attn.q_proj.bias")
    [config.numAttentionHeads * config.headDim]
  keyBias : config.attentionQkvBias → HasShape weights (layerKey l "self_attn.k_proj.bias")
    [config.numKeyValueHeads * config.headDim]
  valueBias : config.attentionQkvBias → HasShape weights (layerKey l "self_attn.v_proj.bias")
    [config.numKeyValueHeads * config.headDim]
  output : HasShape weights (layerKey l "self_attn.o_proj.weight")
    [hiddenSize, config.numAttentionHeads * config.headDim]
  postNorm : HasShape weights (layerKey l "post_attention_layernorm.weight") [hiddenSize]
  gate : HasShape weights (layerKey l "mlp.gate_proj.weight") [intermediateSize, hiddenSize]
  up : HasShape weights (layerKey l "mlp.up_proj.weight") [intermediateSize, hiddenSize]
  down : HasShape weights (layerKey l "mlp.down_proj.weight") [hiddenSize, intermediateSize]

/-- A configuration with positive dimensions whose heads divide, and a tensor of the right shape for every name. -/
structure Checkpoint (K : Type) where
  config : ModelConfig K
  hiddenSize : Nat
  intermediateSize : Nat
  weights : String → Option (Nn.Tensor K)
  numHiddenLayers_pos : 0 < config.numHiddenLayers
  numKeyValueHeads_pos : 0 < config.numKeyValueHeads
  numAttentionHeads_pos : 0 < config.numAttentionHeads
  heads_dvd : config.numKeyValueHeads ∣ config.numAttentionHeads
  headDim_pos : 0 < config.headDim
  hiddenSize_pos : 0 < hiddenSize
  intermediateSize_pos : 0 < intermediateSize
  embed : HasShape weights "model.embed_tokens.weight" [config.vocabSize, hiddenSize]
  layer : ∀ l < config.numHiddenLayers, LayerShaped config hiddenSize intermediateSize weights l
  norm : HasShape weights "model.norm.weight" [hiddenSize]
  head : ∀ w, weights "lm_head.weight" = some w → w.shape = [config.vocabSize, hiddenSize]

namespace Checkpoint

variable {K : Type} (C : Checkpoint K)

def qDim : Nat := C.config.numAttentionHeads * C.config.headDim

def kvDim : Nat := C.config.numKeyValueHeads * C.config.headDim

def tensor (name : String) : Nn.Tensor K := (C.weights name).getD Nn.Tensor.empty

def headTensor : Nn.Tensor K := (C.weights "lm_head.weight").getD (C.tensor "model.embed_tokens.weight")

def biasTensor (l : Nat) (name : String) : Option (Nn.Tensor K) :=
  if C.config.attentionQkvBias then some (C.tensor (layerKey l ("self_attn." ++ name ++ "_proj.bias"))) else none

variable {C}

theorem found {name : String} {shape : Dims} (h : HasShape C.weights name shape) :
    C.weights name = some (C.tensor name) ∧ (C.tensor name).shape = shape := by
  obtain ⟨w, hw, hshape⟩ := h
  have htensor : C.tensor name = w := by rw [tensor, hw, Option.getD_some]
  rw [htensor]
  exact ⟨hw, hshape⟩

theorem headTensor_shape : C.headTensor.shape = [C.config.vocabSize, C.hiddenSize] := by
  rw [headTensor]
  cases hhead : C.weights "lm_head.weight" with
  | none => exact (found C.embed).2
  | some w => exact C.head w hhead

/-! ### The model on the host -/

variable [Field K] [LinearOrder K] (F : MathFunctions K) (C)

def host : Model (Nn.Tensor K) Empty K where
  config := C.config
  kernels := Nn.kernels F
  weights := C.weights
  quantized := false
  quant _ := none

def projectRow (l : Nat) (name : String) (row : Row K) : Row K :=
  linearRow (rmsNormRow F row (C.tensor (layerKey l "input_layernorm.weight")) C.config.rmsNormEps)
    (C.tensor (layerKey l ("self_attn." ++ name ++ "_proj.weight"))) (C.biasTensor l name)

/-- A row after attention: the output projection and the gated MLP, each added. -/
def finishRow (l : Nat) (row attn : Row K) : Row K :=
  let x := List.zipWith (· + ·) row (linearRow attn (C.tensor (layerKey l "self_attn.o_proj.weight")) none)
  let normed := rmsNormRow F x (C.tensor (layerKey l "post_attention_layernorm.weight")) C.config.rmsNormEps
  let gate := linearRow normed (C.tensor (layerKey l "mlp.gate_proj.weight")) none
  let up := linearRow normed (C.tensor (layerKey l "mlp.up_proj.weight")) none
  let down := linearRow (List.zipWith (Nn.siluMul F) gate up) (C.tensor (layerKey l "mlp.down_proj.weight")) none
  List.zipWith (· + ·) x down

def block (l : Nat) : Causal.Block (Row K) where
  query p row := ropeRow F C.config.numAttentionHeads C.config.headDim C.config.ropeTheta p (C.projectRow F l "q" row)
  key p row := ropeRow F C.config.numKeyValueHeads C.config.headDim C.config.ropeTheta p (C.projectRow F l "k" row)
  value _ row := C.projectRow F l "v" row
  attend := attentionRow F C.config.numAttentionHeads C.config.numKeyValueHeads C.config.headDim
  finish := C.finishRow F l

theorem finishRows_eq (l : Nat) (rows attn : Rows K) :
    List.zipWith (C.finishRow F l) rows attn =
      let x := List.zipWith (List.zipWith (· + ·)) rows
        (attn.map fun row => linearRow row (C.tensor (layerKey l "self_attn.o_proj.weight")) none)
      let normed := x.map fun row =>
        rmsNormRow F row (C.tensor (layerKey l "post_attention_layernorm.weight")) C.config.rmsNormEps
      let gate := normed.map fun row => linearRow row (C.tensor (layerKey l "mlp.gate_proj.weight")) none
      let up := normed.map fun row => linearRow row (C.tensor (layerKey l "mlp.up_proj.weight")) none
      let down := (List.zipWith (List.zipWith (Nn.siluMul F)) gate up).map fun row =>
        linearRow row (C.tensor (layerKey l "mlp.down_proj.weight")) none
      List.zipWith (List.zipWith (· + ·)) x down := by
  apply List.ext_getElem
  · simp
  · intro r _ _
    simp only [List.getElem_zipWith, List.getElem_map]
    rfl

variable {F C}

theorem get_tensor {name : String} {shape : Dims} (h : HasShape C.weights name shape) :
    (C.host F).get name = .ok (C.tensor name) := Model.get_eq_of_some (found h).1

theorem linearRow_tensor {name : String} {shape : Dims} (h : HasShape C.weights name shape)
    (bias : Option (Nn.Tensor K)) :
    (C.host F).linearRow name bias = .ok fun row => linearRow row (C.tensor name) bias := by
  have hget := get_tensor (F := F) h
  rw [Model.linearRow]
  simp only [host, Bool.false_eq_true, if_false]
  change ((C.host F).get name >>= _) = _
  rw [hget]
  rfl

theorem projectRow_tensor {l : Nat} (name : String) {shape biasShape : Dims}
    (h : HasShape C.weights (layerKey l ("self_attn." ++ name ++ "_proj.weight")) shape)
    (hbias : C.config.attentionQkvBias →
      HasShape C.weights (layerKey l ("self_attn." ++ name ++ "_proj.bias")) biasShape) :
    (C.host F).projectRow l name = .ok fun row =>
      linearRow row (C.tensor (layerKey l ("self_attn." ++ name ++ "_proj.weight"))) (C.biasTensor l name) := by
  rw [Model.projectRow, biasTensor]
  change (if C.config.attentionQkvBias then _ else _) = _
  split
  · next hqkv =>
    rw [get_tensor (hbias hqkv), ok_bind]
    exact linearRow_tensor h _
  · exact linearRow_tensor h _

theorem host_block {l : Nat} (hl : l < C.config.numHiddenLayers) : (C.host F).block l = .ok (C.block F l) := by
  have h := C.layer l hl
  have hfinish : (C.host F).finishRow l = .ok (C.finishRow F l) := by
    rw [Model.finishRow, linearRow_tensor h.output, ok_bind, get_tensor h.postNorm, ok_bind, linearRow_tensor h.gate,
      ok_bind, linearRow_tensor h.up, ok_bind, linearRow_tensor h.down]
    rfl
  have hinputs : (C.host F).inputRows l = .ok (C.projectRow F l "q", C.projectRow F l "k", C.projectRow F l "v") := by
    rw [Model.inputRows, get_tensor h.inputNorm, ok_bind, projectRow_tensor "q" h.query h.queryBias, ok_bind,
      projectRow_tensor "k" h.key h.keyBias, ok_bind, projectRow_tensor "v" h.value h.valueBias]
    rfl
  rw [Model.block, hinputs, ok_bind, hfinish]
  rfl

theorem host_complete : (C.host F).Complete where
  embed := ⟨_, (found C.embed).1⟩
  norm := ⟨_, (found C.norm).1⟩
  block _ hl := ⟨_, host_block hl⟩
  heads _ := ⟨C.numKeyValueHeads_pos.ne', Nat.mod_eq_zero_of_dvd C.heads_dvd⟩

theorem host_decoder_block {l : Nat} (hl : l < C.config.numHiddenLayers) :
    (C.host F).decoder.block l = C.block F l := by
  simp only [Model.decoder, host_block hl]

theorem host_embed (token : Int) :
    (C.host F).decoder.embed token =
      readRow C.hiddenSize (C.tensor "model.embed_tokens.weight").cell token.toNat := by
  obtain ⟨hfound, hshape⟩ := found C.embed
  have hwidth : (C.tensor "model.embed_tokens.weight").dim 1 = C.hiddenSize := Nn.Tensor.dim_one_of_shape hshape
  have hweights : (C.host F).weights Model.embedKey = some (C.tensor "model.embed_tokens.weight") := hfound
  simp only [Model.decoder, hweights]
  exact congrArg (fun width => readRow width (C.tensor "model.embed_tokens.weight").cell token.toNat) hwidth

theorem host_inVocab {token : Int} : (C.host F).InVocab token ↔ 0 ≤ token ∧ token < C.config.vocabSize := by
  obtain ⟨hfound, hshape⟩ := found C.embed
  have hrows : (C.host F).kernels.vocab (C.tensor "model.embed_tokens.weight") = C.config.vocabSize :=
    Nn.Tensor.dim_zero_of_shape hshape
  constructor
  · intro h
    have hhigh := h.2 _ hfound
    rw [hrows] at hhigh
    exact ⟨h.1, hhigh⟩
  · intro h
    refine ⟨h.1, fun w hw => ?_⟩
    obtain rfl := Option.some.inj (hfound.symm.trans hw)
    rw [hrows]
    exact h.2

theorem host_logitsRow (row : Row K) :
    (C.host F).logitsRow row =
      linearRow (rmsNormRow F row (C.tensor "model.norm.weight") C.config.rmsNormEps) C.headTensor none := by
  have hembed : (C.host F).weights Model.embedKey = some (C.tensor "model.embed_tokens.weight") := (found C.embed).1
  have hnorm : (C.host F).weights Model.normKey = some (C.tensor "model.norm.weight") := (found C.norm).1
  rw [Model.logitsRow, hembed, hnorm]
  rfl

end Checkpoint

end InferenceEngine
