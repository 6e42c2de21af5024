import InferenceEngine.Cuda.DeviceForward
import InferenceEngine.Engine.HostGreedy

/-!
# Generating on the device

`CudaModel::generate`: greedy decoding over one device cache, that feeds the prompt and then token after
token. It is compared with plain greedy decoding on the host, where every token takes a forward pass over
all tokens before it.
-/

namespace InferenceEngine

open Exec Decoding Speculative

namespace Device

namespace CudaModel

variable {K : Type} [Field K] [LinearOrder K]

section Definitions

variable (M : CudaModel K)

/-- The loop of `generate`. It makes fewer turns than there are tokens to generate. -/
def generateLoop (runs : Nat → Run K) (maxTokens eosId : Int) :
    Nat → List Int → Int → EStateM Error (GpuKVCache M.checkpoint.kvDim K) (List Int)
  | 0, out, _ => return out
  | turns + 1, out, token => do
    if (out.length : Int) < maxTokens ∧ token ≠ eosId then
      let logits ← M.forwardCached (runs out.length) [token]
      let token : Int := logits.argmaxLastRow
      generateLoop runs maxTokens eosId turns (out ++ [token]) token
    else
      return out

def generateCached (runs : Nat → Run K) (prompt : List Int) (maxTokens eosId : Int) :
    EStateM Error (GpuKVCache M.checkpoint.kvDim K) (List Int) := do
  let logits ← M.forwardCached (runs 0) prompt
  let token : Int := logits.argmaxLastRow
  M.generateLoop runs maxTokens eosId maxTokens.toNat [token] token

/-- `generate`. The `k`-th forward pass goes as `runs k` says. -/
def generate (runs : Nat → Run K) (keys values : Nat → Nat → K) (prompt : List Int) (maxTokens eosId : Int) :
    Except Error (List Int) := do
  if maxTokens ≤ 0 ∨ prompt = [] then
    return []
  let cache ← GpuKVCache.create M.checkpoint.config.numHiddenLayers (prompt.length + maxTokens) keys values
  match M.generateCached runs prompt maxTokens eosId cache with
  | .ok out _ => return out
  | .error e _ => throw e

end Definitions

variable {M : CudaModel K} {prompt chunk : List Int} {maxTokens eosId : Int} {runs : Nat → Run K}
  {cache : GpuKVCache M.checkpoint.kvDim K}

end CudaModel

end Device

end InferenceEngine
