import InferenceEngine.Library.Exec
import InferenceEngine.Library.Causal
import InferenceEngine.Library.Decoding
import InferenceEngine.Engine.Arrival
import InferenceEngine.Engine.Budget
import InferenceEngine.Engine.Generate
import InferenceEngine.Engine.Oversized
import InferenceEngine.Engine.Pinning
import InferenceEngine.Engine.SamplingLaw
import InferenceEngine.Engine.Speculative
import InferenceEngine.KvCache.Closure
import InferenceEngine.KvCache.PagedRefinement
import InferenceEngine.Model.Decoder
import InferenceEngine.Model.BatchRun
import InferenceEngine.Model.HostRun
import InferenceEngine.Model.Failure
import InferenceEngine.Model.WellShaped
import InferenceEngine.Model.StoredTensors
import InferenceEngine.Model.TensorParallel
import InferenceEngine.Model.Quantization
import InferenceEngine.Server.Serving
import InferenceEngine.Cuda.Argmax
import InferenceEngine.Cuda.Attention
import InferenceEngine.Cuda.Agreement
import InferenceEngine.Cuda.DevicePagedRun
import InferenceEngine.Engine.HostEngine
