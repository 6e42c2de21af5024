import InferenceEngine.Cuda.DeviceGenerate
import InferenceEngine.Cuda.Scheduling
import InferenceEngine.Engine.HostEngine
import InferenceEngine.Engine.Transparency

/-!
# The engines agree

A checkpoint is served by the continuous-batching engine on the host, with paged blocks, preemption and a
prefix cache, by the one on the device, and by `generate` of the device model. All of them give a greedy
request the same tokens: those of plain greedy decoding with the host's forward pass.
-/

namespace InferenceEngine

open Exec Decoding Speculative
open Nn (linearRow)

namespace Device

namespace CudaModel

variable {K G : Type} [Field K] [LinearOrder K] {M : CudaModel K} {ctx : List Int}

/-- What plain greedy decoding on the host gives a request. -/
def decoded (M : CudaModel K) (request : Request K) : List Int :=
  decode M.host.greedyNext (fun t => decide (t = request.eosId)) request.maxTokens.toNat request.prompt

end CudaModel

end Device

end InferenceEngine
