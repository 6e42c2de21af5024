import InferenceEngine.Engine.Sampler
import InferenceEngine.Library.Machine
import InferenceEngine.Model.Forward

/-!
# The continuous-batching engine

Requests wait in arrival order, run in batched steps over one pool of blocks, and finish. A step admits
waiting requests, assembles a batch within the free blocks, preempting the youngest holder of blocks
when nothing fits, runs the forward pass, samples a token for every sequence of the batch and retires
those that are done. The block table of sequence `id` is `pool.seqs id`.
-/

namespace InferenceEngine

open Exec

/-- `Request`. -/
structure Request (K : Type) where
  prompt : List Int
  params : SamplingParams K
  maxTokens : Int := 16
  eosId : Int := -1

/-- `SeqStatus`. -/
inductive SeqStatus where
  | waiting
  | running
  | finished
  deriving DecidableEq

/-- `EngineSequence`, less its paging state. -/
structure EngineSequence (K : Type) where
  request : Request K
  output : List Int := []
  status : SeqStatus := .waiting
  prefilled : Bool := false

/-- What stays fixed in an `Engine`. The pool is built for the model. -/
structure Engine (W Q K G : Type) [Field K] [LinearOrder K] where
  model : Model W Q K
  sampler : Sampler K G
  config : PoolConfig
  maxBatch : Int
  prefixCache : Bool
  numLayers_eq : config.numLayers = model.config.numHiddenLayers
  kvDim_eq : config.kvDim = model.config.numKeyValueHeads * model.config.headDim

/-- What changes in an `Engine`. -/
structure EngineState (K G : Type) where
  pool : Pool K
  rng : G
  waiting : List Nat
  running : List Nat
  sequences : Nat → EngineSequence K
  nextId : Nat
  preemptions : Nat

/-- One sequence of a batch: what `step` collects in `items`, `batched_ids`, `was_prefill` and
`prefill_ctx`. -/
structure Batched where
  id : Nat
  tokens : List Int
  wasPrefill : Bool
  prefillCtx : List Int
  deriving DecidableEq

namespace EngineSequence

variable {K : Type}

def context (seq : EngineSequence K) : List Int := seq.request.prompt ++ seq.output

/-- `step_tokens`: the last token of a prefilled sequence, else the context after the committed rows. -/
def stepTokens (seq : EngineSequence K) (blocks : SequenceBlocks) : List Int :=
  if seq.prefilled then [seq.output.getLastD 0] else seq.context.drop blocks.length

end EngineSequence

namespace EngineState

variable {K G : Type}

def setSequence (s : EngineState K G) (id : Nat) (seq : EngineSequence K) : EngineState K G :=
  { s with sequences := Function.update s.sequences id seq }

def hasWork (s : EngineState K G) : Bool := s.waiting ≠ [] || s.running ≠ []

def onPool {α : Type} (x : EStateM Error (Pool K) α) : EStateM Error (EngineState K G) α :=
  zoom EngineState.pool (fun pool s => { s with pool }) x

end EngineState

namespace Engine

variable {W Q K G : Type} [Field K] [LinearOrder K] (E : Engine W Q K G)

open EngineState

/-- A new engine. The sequences that do not exist yet are never looked at. -/
def create (rng : G) : EngineState K G where
  pool := .create E.config
  rng := rng
  waiting := []
  running := []
  sequences := fun _ => { request := { prompt := [], params := ⟨0, 0, 0⟩ } }
  nextId := 0
  preemptions := 0

def addRequest (request : Request K) : EStateM Error (EngineState K G) Nat := do
  if request.prompt = [] then
    throw (.invalidArgument "Engine: empty prompt")
  let id := (← get).nextId
  modify fun s =>
    { s.setSequence id { request } with waiting := s.waiting ++ [id], nextId := s.nextId + 1 }
  return id

/-- The admission loop of `step`: first come, first served, while the batch has room and the free
blocks can hold the next request. -/
def admitWaiting : List Nat → EngineState K G → EngineState K G
  | [], s => s
  | id :: rest, s =>
    if (s.running.length : Int) < E.maxBatch then
      let seq := s.sequences id
      let need := if seq.prefilled then 1 else seq.request.prompt.length + seq.output.length
      if s.pool.canAppend E.config id need then
        admitWaiting rest
          { s.setSequence id { seq with status := .running } with
            running := s.running ++ [id], waiting := rest }
      else s
    else s

/-- Share a cached prompt prefix when a sequence first needs blocks, leaving at least one token. -/
def sharePrefix (id : Nat) : EStateM Error (EngineState K G) Unit := do
  let s ← get
  let seq := s.sequences id
  if E.prefixCache ∧ ¬seq.prefilled ∧ (s.pool.seqs id).blockTable = [] then
    let cap := (seq.context.length - 1) / E.config.blockSize * E.config.blockSize
    if 0 < cap then
      let _ ← onPool (Pool.acquireSharedPrefix E.config id (seq.context.take cap))

/-- One pass over the running sequences: batch each one that fits what is left of the budget. -/
def assemble : List Nat → Int → EStateM Error (EngineState K G) (List Batched)
  | [], _ => return []
  | id :: ids, budget => do
    E.sharePrefix id
    let s ← get
    let seq := s.sequences id
    let blocks := s.pool.seqs id
    let tokens := seq.stepTokens blocks
    let delta : Int := E.config.blocksFor (blocks.length + tokens.length) - blocks.blockTable.length
    if budget < delta then
      assemble ids budget
    else
      let wasPrefill := !seq.prefilled
      let prefillCtx := if wasPrefill && E.prefixCache then seq.context else []
      let batch ← assemble ids (budget - delta)
      return ⟨id, tokens, wasPrefill, prefillCtx⟩ :: batch

/-- `preempt_youngest`: the last running sequence that holds blocks gives them back and waits. -/
def preemptYoungest : EStateM Error (EngineState K G) Bool := do
  let s ← get
  match s.running.reverse.find? fun id => (s.pool.seqs id).blockTable ≠ [] with
  | none => return false
  | some id =>
    onPool (Pool.free id)
    modify fun s =>
      { s.setSequence id { s.sequences id with prefilled := false, status := .waiting } with
        running := (s.running.reverse.erase id).reverse
        waiting := id :: s.waiting
        preemptions := s.preemptions + 1 }
    return true

/-- The retry loop of `step`. A turn that goes on has preempted a running sequence, so more turns than
there are running sequences are never made. -/
def formBatch : Nat → EStateM Error (EngineState K G) (List Batched)
  | 0 => return []
  | fuel + 1 => do
    let s ← get
    let batch ← E.assemble s.running s.pool.freeBlocks
    if batch ≠ [] ∨ s.running.length ≤ 1 then
      return batch
    if ← preemptYoungest then formBatch fuel else return batch

/-- Sample a token for the `k`-th sequence of the batch, and retire the sequence or cache its freshly
prefilled blocks. Returns whether it finished. -/
def sampleOne (logits : Rows K) (b : Batched) (k : Nat) : EStateM Error (EngineState K G) Bool := do
  let vocab := E.model.config.vocabSize
  let seq := (← get).sequences b.id
  let token ← zoom EngineState.rng (fun rng s => { s with rng })
    (E.sampler.sample (sliceRows logits.flatten (k * vocab) vocab) vocab seq.request.params)
  let output := seq.output ++ [(token : Int)]
  let seq := { seq with prefilled := true, output }
  modify fun s => s.setSequence b.id seq
  let hitEos := 0 ≤ seq.request.eosId ∧ (token : Int) = seq.request.eosId
  let hitLen := seq.request.maxTokens ≤ (output.length : Int)
  if hitEos ∨ hitLen then
    modify fun s => s.setSequence b.id { seq with status := .finished }
    onPool (Pool.free b.id)
    return true
  else
    if E.prefixCache ∧ b.wasPrefill then
      onPool (Pool.registerPrefix E.config b.id b.prefillCtx)
    return false

/-- The items handed to `forward_batch`. -/
def batchItems (batch : List Batched) : List BatchItem := batch.map fun b => ⟨some b.id, b.tokens⟩

/-- What `step` does with a batch: the forward pass, a token for every sequence of the batch, and the
finished sequences leave. -/
def runBatch (batch : List Batched) : EStateM Error (EngineState K G) Unit := do
  let logits ← onPool (E.model.forwardBatch E.config (batchItems batch))
  let anyFinished ← batch.zipIdx.foldlM
    (fun any (b, k) => do return (← E.sampleOne logits b k) || any) false
  if anyFinished then
    modify fun s =>
      { s with running := s.running.filter fun id => (s.sequences id).status ≠ .finished }

def step : EStateM Error (EngineState K G) Unit := do
  modify fun s => E.admitWaiting s.waiting s
  let batch ← E.formBatch ((← get).running.length + 1)
  if batch = [] then
    return ()
  E.runBatch batch

/-- What a caller can do with an engine. -/
inductive Action (K : Type) where
  | addRequest (request : Request K)
  | step

/-- The engine as a machine. A call that throws leaves the state it has reached. -/
def machine (rng : G) : Machine (EngineState K G) (Action K) where
  start := E.create rng
  next s
    | .addRequest request => finalState (addRequest request) s
    | .step => finalState E.step s

end Engine

end InferenceEngine
