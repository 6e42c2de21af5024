import InferenceEngine.Cuda.Model
import InferenceEngine.Engine.Engine

/-!
# The device engine

`CudaEngine` admits waiting requests in arrival order while the batch has room, each with a device cache
for its prompt and the tokens it may get, and feeds all running sequences in every step. A batch of greedy
requests picks its tokens on the device; as soon as one of them samples, the logits go to the host's
sampler.
-/

namespace InferenceEngine

open Exec

/-- `Seq`. Its cache is an address on the device. -/
structure CudaSequence (K : Type) where
  request : Request K
  cache : Option Nat := none
  output : List Int := []
  status : SeqStatus := .waiting
  prefilled : Bool := false

/-- Append a token. A sequence that is done gives its cache back. Returns whether it is. -/
def CudaSequence.record {K : Type} (seq : CudaSequence K) (token : Int) : CudaSequence K × Bool :=
  let output := seq.output ++ [token]
  let hitEos := 0 ≤ seq.request.eosId ∧ token = seq.request.eosId
  let hitLen := seq.request.maxTokens ≤ (output.length : Int)
  if hitEos ∨ hitLen then
    ({ seq with prefilled := true, output, status := .finished, cache := none }, true)
  else ({ seq with prefilled := true, output }, false)

/-- What stays fixed in a `CudaEngine`. -/
structure CudaEngine (K G : Type) [Field K] [LinearOrder K] where
  model : CudaModel K
  sampler : Sampler K G
  maxBatch : Int

/-- What changes in a `CudaEngine`, and the caches it keeps on the device. -/
structure CudaEngineState (K G : Type) where
  rng : G
  waiting : List Nat
  running : List Nat
  sequences : Nat → CudaSequence K
  nextId : Nat
  caches : GpuCaches K

namespace CudaEngineState

variable {K G : Type}

def setSequence (s : CudaEngineState K G) (id : Nat) (seq : CudaSequence K) : CudaEngineState K G :=
  { s with sequences := Function.update s.sequences id seq }

def hasWork (s : CudaEngineState K G) : Bool := s.waiting ≠ [] || s.running ≠ []

def onCaches {α : Type} (x : EStateM Error (GpuCaches K) α) : EStateM Error (CudaEngineState K G) α :=
  zoom CudaEngineState.caches (fun caches s => { s with caches }) x

/-- The item of a running sequence: its last token once it is prefilled, else its prompt. -/
def item (s : CudaEngineState K G) (id : Nat) : GpuBatchItem :=
  let seq := s.sequences id
  ⟨seq.cache, if seq.prefilled then [seq.output.getLastD 0] else seq.request.prompt⟩

/-- Append the tokens of a batch. Returns whether some sequence is done. -/
def recordAll (s : CudaEngineState K G) (picked : List (Nat × Nat)) : CudaEngineState K G × Bool :=
  picked.foldl (fun (s, anyFinished) (id, token) =>
    let (seq, finished) := (s.sequences id).record token
    (s.setSequence id seq, anyFinished || finished)) (s, false)

end CudaEngineState

namespace CudaEngine

variable {K G : Type} [Field K] [LinearOrder K] (E : CudaEngine K G)

open CudaEngineState

/-- A new engine. The sequences and caches that do not exist yet are never looked at. -/
def create (rng : G) : CudaEngineState K G where
  rng := rng
  waiting := []
  running := []
  sequences := fun _ => { request := { prompt := [], params := ⟨0, 0, 0⟩ } }
  nextId := 0
  caches := fun _ => ⟨0, 0, fun _ _ => [], fun _ _ => []⟩

def addRequest (request : Request K) : EStateM Error (CudaEngineState K G) Nat := do
  if request.prompt = [] then
    throw (.invalidArgument "CudaEngine: empty prompt")
  let id := (← get).nextId
  modify fun s =>
    { s.setSequence id { request } with waiting := s.waiting ++ [id], nextId := s.nextId + 1 }
  return id

/-- The admission loop of `step`. The cache of sequence `id` lies at the address `id`. -/
def admitWaiting : List Nat → EStateM Error (CudaEngineState K G) Unit
  | [] => return ()
  | id :: rest => do
    let s ← get
    if (s.running.length : Int) < E.maxBatch then
      let seq := s.sequences id
      let capacity : Int := seq.request.prompt.length + seq.request.maxTokens
      let cache ← lift (GpuKVCache.create E.model.config.numHiddenLayers E.model.kvDim capacity)
      set { s.setSequence id { seq with cache := some id, status := .running } with
        caches := Function.update s.caches id cache
        running := s.running ++ [id]
        waiting := rest }
      admitWaiting rest

/-- The next token of every item: on the device when all requests are greedy, else by the sampler. -/
def pickTokens (ids : List Nat) (items : List GpuBatchItem) :
    EStateM Error (CudaEngineState K G) (List Nat) := do
  let sequences := (← get).sequences
  if ∀ id ∈ ids, ¬0 < (sequences id).request.params.temperature then
    onCaches (E.model.forwardBatchArgmax items)
  else
    let logits ← onCaches (E.model.forwardBatch items)
    let vocab := E.model.config.vocabSize
    ids.zipIdx.mapM fun (id, k) =>
      zoom CudaEngineState.rng (fun rng s => { s with rng })
        (E.sampler.sample (sliceRows logits.flatten (k * vocab) vocab) vocab
          (sequences id).request.params)

/-- What `step` does with the running sequences: a token for each, and the finished ones leave. -/
def runBatch (ids : List Nat) : EStateM Error (CudaEngineState K G) Unit := do
  let items := ids.map (← get).item
  let tokens ← E.pickTokens ids items
  let (s, anyFinished) := (← get).recordAll (ids.zip tokens)
  if anyFinished then
    set { s with running := s.running.filter fun id => (s.sequences id).status ≠ SeqStatus.finished }
  else set s

def step : EStateM Error (CudaEngineState K G) Unit := do
  E.admitWaiting (← get).waiting
  let ids := (← get).running
  if ids = [] then
    return ()
  E.runBatch ids

/-- The engine as a machine. A call that throws leaves the state it has reached. -/
def machine (rng : G) : Machine (CudaEngineState K G) (Engine.Action K) where
  start := create rng
  next s
    | .addRequest request => finalState (addRequest request) s
    | .step => finalState E.step s

end CudaEngine

end InferenceEngine
