import InferenceEngine.Cuda.Contiguous
import InferenceEngine.Cuda.Device
import InferenceEngine.Model.Checkpoint

/-!
# The forward pass on device buffers

`forward_cached` of `model.cu` with every kernel on flat buffers, and the device cache as flat memory. The order of
the threads of every launch and what new arrays hold are parameters of a run.
-/

namespace InferenceEngine

open Exec

namespace Device

/-- `GpuKVCache`, its buffers flat. -/
structure GpuKVCache (kvDim : Nat) (K : Type) where
  capacity : Int
  length : Nat
  keys : Nat → Nat → K
  values : Nat → Nat → K

namespace GpuKVCache

variable {kvDim : Nat} {K : Type}

/-- The constructor, on buffers that hold whatever the memory held. -/
def create (numLayers capacity : Int) (keys values : Nat → Nat → K) : Except Error (GpuKVCache kvDim K) :=
  if numLayers ≤ 0 ∨ kvDim = 0 ∨ capacity ≤ 0 then
    .error (.invalidArgument "GpuKVCache: num_layers, kv_dim, capacity must be positive")
  else .ok ⟨capacity, 0, keys, values⟩

/-- `cudaMemcpy` of `n` rows into the buffer of a layer, from row `off` on. -/
def copyInto (kvDim : Nat) (buffers : Nat → Nat → K) (layer off : Nat) (src : Nat → K) (n : Nat) : Nat → Nat → K :=
  Function.update buffers layer (Loop.storeRange (off * kvDim) (n * kvDim) src (buffers layer))

def append (layer : Nat) (k v : Nat → K) (nRows : Nat) : EStateM Error (GpuKVCache kvDim K) Unit := do
  if 0 < nRows then
    let cache ← get
    if cache.capacity < cache.length + nRows then
      throw (.runtimeError "GpuKVCache: capacity exceeded")
    modify fun cache => { cache with
      keys := copyInto kvDim cache.keys layer cache.length k nRows
      values := copyInto kvDim cache.values layer cache.length v nRows }

def advance (nRows : Nat) (cache : GpuKVCache kvDim K) : GpuKVCache kvDim K :=
  { cache with length := cache.length + nRows }

def toRows (cache : GpuKVCache kvDim K) : InferenceEngine.GpuKVCache K where
  capacity := cache.capacity
  length := cache.length
  keys layer := readRow kvDim (cache.keys layer)
  values layer := readRow kvDim (cache.values layer)

end GpuKVCache

/-- The device arrays of a forward pass. -/
structure Arrays (K : Type) where
  x : Nat → K
  normed : Nat → K
  q : Nat → K
  k : Nat → K
  v : Nat → K
  attn : Nat → K
  attnOut : Nat → K
  normed2 : Nat → K
  gate : Nat → K
  up : Nat → K
  act : Nat → K
  down : Nat → K
  logits : Nat → K

/-- What nobody fixes in a forward pass: what new arrays hold, and how every launch goes. The launches of a layer
have a number each. -/
structure Run (K : Type) where
  arrays : Arrays K
  embedding : Launch K
  layer : Nat → Nat → Launch K
  norm : Launch K
  head : Launch K

/-- `CudaModel`, loaded from a checkpoint whose heads have a pair to rotate, without which `rope` launches an empty
grid, and fit the accumulator of the attention kernel. -/
structure CudaModel (K : Type) [Field K] [LinearOrder K] where
  checkpoint : Checkpoint K
  math : MathFunctions K
  blas : Blas K
  one_lt_headDim : 1 < checkpoint.config.headDim
  headDim_le : checkpoint.config.headDim ≤ 256

namespace CudaModel

variable {K : Type} [Field K] [LinearOrder K] (M : CudaModel K)

def weight (name : String) : Except Error (Nn.Tensor K) :=
  match M.checkpoint.weights name with
  | some w => .ok w
  | none => .error (.outOfRange "unordered_map::at")

def bias (l : Nat) (name : String) : Except Error (Option (Nat → K)) := do
  if M.checkpoint.config.attentionQkvBias then
    let bias ← M.weight (layerKey l ("self_attn." ++ name ++ "_proj.bias"))
    return CudaKernels.pointer bias
  return none

/-- A layer of `forward_cached` up to the rotation of queries and keys. -/
def layerInputs (launch : Nat → Launch K) (l : Nat) (positions : List Nat) (d : Arrays K) :
    Except Error (Arrays K) := do
  let c := M.checkpoint.config
  let seq := positions.length
  let hidden := M.checkpoint.hiddenSize
  let nqDim := c.numAttentionHeads * c.headDim
  let nkvDim := c.numKeyValueHeads * c.headDim
  let pos := fun t => positions.getD t 0
  let inputNorm ← M.weight (layerKey l "input_layernorm.weight")
  let normed := CudaKernels.rmsNorm M.math (launch 0) d.x inputNorm.cell d.normed seq hidden c.rmsNormEps
  let qBias ← M.bias l "q"
  let kBias ← M.bias l "k"
  let vBias ← M.bias l "v"
  let qProj ← M.weight (layerKey l "self_attn.q_proj.weight")
  let q := CudaKernels.linear M.blas (launch 1) normed qProj.cell qBias d.q seq hidden nqDim
  let kProj ← M.weight (layerKey l "self_attn.k_proj.weight")
  let k := CudaKernels.linear M.blas (launch 2) normed kProj.cell kBias d.k seq hidden nkvDim
  let vProj ← M.weight (layerKey l "self_attn.v_proj.weight")
  let v := CudaKernels.linear M.blas (launch 3) normed vProj.cell vBias d.v seq hidden nkvDim
  let q := CudaKernels.rope M.math (launch 4) q seq c.numAttentionHeads c.headDim c.ropeTheta pos
  let k := CudaKernels.rope M.math (launch 5) k seq c.numKeyValueHeads c.headDim c.ropeTheta pos
  return { d with normed, q, k, v }

/-- A layer of `forward_cached` from the output projection on. -/
def layerOutput (launch : Nat → Launch K) (l seq : Nat) (d : Arrays K) : Except Error (Arrays K) := do
  let c := M.checkpoint.config
  let hidden := M.checkpoint.hiddenSize
  let nqDim := c.numAttentionHeads * c.headDim
  let inter := M.checkpoint.intermediateSize
  let oProj ← M.weight (layerKey l "self_attn.o_proj.weight")
  let attnOut := CudaKernels.linear M.blas (launch 7) d.attn oProj.cell none d.attnOut seq nqDim hidden
  let x := CudaKernels.addInplace (launch 8) d.x attnOut (seq * hidden)
  let postNorm ← M.weight (layerKey l "post_attention_layernorm.weight")
  let normed2 := CudaKernels.rmsNorm M.math (launch 9) x postNorm.cell d.normed2 seq hidden c.rmsNormEps
  let gateProj ← M.weight (layerKey l "mlp.gate_proj.weight")
  let gate := CudaKernels.linear M.blas (launch 10) normed2 gateProj.cell none d.gate seq hidden inter
  let upProj ← M.weight (layerKey l "mlp.up_proj.weight")
  let up := CudaKernels.linear M.blas (launch 11) normed2 upProj.cell none d.up seq hidden inter
  let act := CudaKernels.siluMul M.math (launch 12) gate up d.act (seq * inter)
  let downProj ← M.weight (layerKey l "mlp.down_proj.weight")
  let down := CudaKernels.linear M.blas (launch 13) act downProj.cell none d.down seq inter hidden
  let x := CudaKernels.addInplace (launch 14) x down (seq * hidden)
  return { d with x, attnOut, normed2, gate, up, act, down }

def layerCached (launch : Nat → Nat → Launch K) (past : Nat) (positions : List Nat) (d : Arrays K) (l : Nat) :
    EStateM Error (GpuKVCache M.checkpoint.kvDim K) (Arrays K) := do
  let c := M.checkpoint.config
  let seq := positions.length
  let d ← lift (M.layerInputs (launch l) l positions d)
  GpuKVCache.append l d.k d.v seq
  let cache ← get
  let attn ← lift (CudaKernels.attention M.math.exp M.math.sqrt (launch l 6).order d.q (cache.keys l) (cache.values l)
    d.attn seq (past + seq) c.numAttentionHeads c.numKeyValueHeads c.headDim past)
  lift (M.layerOutput (launch l) l seq { d with attn })

def forwardCached (run : Run K) (ids : List Int) : EStateM Error (GpuKVCache M.checkpoint.kvDim K) (Nn.Tensor K) := do
  if ids = [] then
    throw (.invalidArgument "CudaModel::forward: empty input sequence")
  let c := M.checkpoint.config
  let seq := ids.length
  let hidden := M.checkpoint.hiddenSize
  let past := (← get).length
  let positions := (List.range seq).map (past + ·)
  let embed ← lift (M.weight "model.embed_tokens.weight")
  let x := CudaKernels.embedding run.embedding embed.cell (fun i => (ids.getD i 0).toNat) run.arrays.x seq hidden
  let d ← (List.range c.numHiddenLayers).foldlM (M.layerCached run.layer past positions) { run.arrays with x }
  modify (GpuKVCache.advance seq)
  let norm ← lift (M.weight "model.norm.weight")
  let normed := CudaKernels.rmsNorm M.math run.norm d.x norm.cell d.normed seq hidden c.rmsNormEps
  let lmHead := (M.checkpoint.weights "lm_head.weight").getD embed
  let logits := CudaKernels.linear M.blas run.head normed lmHead.cell none run.arrays.logits seq hidden c.vocabSize
  return .ofCells [seq, c.vocabSize] logits

/-- `forward`: the logits of every token of a sequence, over a cache of its own. -/
def forward (run : Run K) (keys values : Nat → Nat → K) (ids : List Int) : Except Error (Nn.Tensor K) := do
  let cache ← GpuKVCache.create M.checkpoint.config.numHiddenLayers ids.length keys values
  match M.forwardCached run ids cache with
  | .ok logits _ => .ok logits
  | .error e _ => .error e

end CudaModel

end Device

end InferenceEngine
