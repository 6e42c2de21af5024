import InferenceEngine.Model.Nn

/-!
# The model and its per-layer operations

A model is its configuration, its kernels and its weights by name. `forward_cached` and
`forward_batch` run the same operations on a layer before and after attention; they are stated once
here, in the order in which the source looks weights up.
-/

namespace InferenceEngine

/-- The fields of `ModelConfig` the forward pass reads. -/
structure ModelConfig (K : Type) where
  numHiddenLayers : Nat
  numAttentionHeads : Nat
  numKeyValueHeads : Nat
  headDim : Nat
  vocabSize : Nat
  ropeTheta : K
  rmsNormEps : K
  attentionQkvBias : Bool

/-- A loaded model. `weights` finds a tensor that is present and that the operation it is handed to
accepts: a tensor rejected for its shape throws at the same point of the forward pass as a missing one.
`quant` holds the matrices `quantize` made, and is looked at only when `quantized` is set. -/
structure Model (W Q K : Type) where
  config : ModelConfig K
  kernels : Kernels W Q K
  weights : String → Option W
  quantized : Bool
  quant : String → Option Q

def layerKey (layer : Nat) (suffix : String) : String :=
  "model.layers." ++ toString layer ++ "." ++ suffix

namespace Model

variable {W Q K : Type} (M : Model W Q K)

protected def get (name : String) : Except Error W :=
  match M.weights name with
  | some w => .ok w
  | none => .error (.runtimeError ("safetensors: missing tensor '" ++ name ++ "'"))

/-- `linear_w`: the int8 path when the weight has been quantised. -/
def linearW (x : Rows K) (name : String) (bias : Option W) : Except Error (Rows K) :=
  match if M.quantized then M.quant name else none with
  | some weight => .ok (M.kernels.linearInt8Rows x weight bias)
  | none => do
    let weight ← M.get name
    return M.kernels.linearRows x weight bias

def project (l : Nat) (normed : Rows K) (name : String) : Except Error (Rows K) := do
  let wkey := layerKey l ("self_attn." ++ name ++ "_proj.weight")
  if M.config.attentionQkvBias then
    let bias ← M.get (layerKey l ("self_attn." ++ name ++ "_proj.bias"))
    M.linearW normed wkey (some bias)
  else M.linearW normed wkey none

/-- Layer `l` up to attention: the rotated queries and keys, and the values. -/
def layerInputs (l : Nat) (positions : List Nat) (x : Rows K) :
    Except Error (Rows K × Rows K × Rows K) := do
  let c := M.config
  let inputNorm ← M.get (layerKey l "input_layernorm.weight")
  let normed := M.kernels.rmsNormRows x inputNorm c.rmsNormEps
  let q ← M.project l normed "q"
  let k ← M.project l normed "k"
  let v ← M.project l normed "v"
  let q ← M.kernels.ropeInplace q c.numAttentionHeads c.headDim c.ropeTheta positions
  let k ← M.kernels.ropeInplace k c.numKeyValueHeads c.headDim c.ropeTheta positions
  return (q, k, v)

/-- The attention of a layer, with the configured heads. -/
def attend (q k v : Rows K) (queryOffset : Nat) : Except Error (Rows K) :=
  M.kernels.attentionRows q k v M.config.numAttentionHeads M.config.numKeyValueHeads
    M.config.headDim queryOffset

/-- Layer `l` from attention on: the output projection and the gated MLP, each added to `x`. -/
def layerOutput (l : Nat) (x attn : Rows K) : Except Error (Rows K) := do
  let attnOut ← M.linearW attn (layerKey l "self_attn.o_proj.weight") none
  let x := M.kernels.addInplace x attnOut
  let postNorm ← M.get (layerKey l "post_attention_layernorm.weight")
  let normed2 := M.kernels.rmsNormRows x postNorm M.config.rmsNormEps
  let gate ← M.linearW normed2 (layerKey l "mlp.gate_proj.weight") none
  let up ← M.linearW normed2 (layerKey l "mlp.up_proj.weight") none
  let act := M.kernels.siluMulRows gate up
  let down ← M.linearW act (layerKey l "mlp.down_proj.weight") none
  return M.kernels.addInplace x down

def finalNorm (x : Rows K) : Except Error (Rows K) := do
  let norm ← M.get "model.norm.weight"
  return M.kernels.rmsNormRows x norm M.config.rmsNormEps

/-- The output projection: `embed_tokens` is tied unless `lm_head` is present. -/
def lmHead (embed : W) (normed : Rows K) : Rows K :=
  let head := (M.weights "lm_head.weight").getD embed
  M.kernels.linearRows normed head none

end Model

end InferenceEngine
