import InferenceEngine.Cuda.DeviceBatch
import InferenceEngine.Cuda.DeviceGenerate

/-!
# Batches over device caches

`forward_batch` and `forward_batch_argmax` of `model.cu` over contiguous caches in device memory. Read row by row they
are the batches of the model of rows, whatever the order of the threads and whatever new arrays hold.
-/

namespace InferenceEngine

open Exec

namespace Device

abbrev GpuCaches (kvDim : Nat) (K : Type) := Nat → GpuKVCache kvDim K

namespace GpuCaches

variable {kvDim : Nat} {K A : Type}

def onCache (address : Nat) (x : EStateM Error (GpuKVCache kvDim K) A) : EStateM Error (GpuCaches kvDim K) A :=
  zoom (fun caches => caches address) (fun cache caches => Function.update caches address cache) x

def toRows (caches : GpuCaches kvDim K) : InferenceEngine.GpuCaches K := fun a => (caches a).toRows

theorem toRows_update (caches : GpuCaches kvDim K) (address : Nat) (cache : GpuKVCache kvDim K) :
    toRows (Function.update caches address cache) = Function.update (toRows caches) address cache.toRows := by
  funext a
  rw [toRows]
  by_cases ha : a = address
  · rw [ha, Function.update_self, Function.update_self]
  · rw [Function.update_of_ne ha, Function.update_of_ne ha, toRows]

theorem follows_onCache (address : Nat) {x : EStateM Error (GpuKVCache kvDim K) A}
    {y : EStateM Error (InferenceEngine.GpuKVCache K) A}
    (h : Follows (fun cache rows => cache.toRows = rows) Eq x y) :
    Follows (fun caches rows => toRows caches = rows) Eq (onCache address x)
      (InferenceEngine.GpuKVCache.onCache address y) := by
  intro caches rows hcaches a rows' hy
  subst hcaches
  rw [InferenceEngine.GpuKVCache.onCache, zoom] at hy
  cases hrun : y (toRows caches address) with
  | error e t =>
    rw [hrun] at hy
    cases hy
  | ok b t =>
    rw [hrun] at hy
    cases hy
    obtain ⟨b', cache, hx, heq, hcache⟩ := h (caches address) _ rfl _ _ hrun
    refine ⟨b', Function.update caches address cache, ?_, heq, ?_⟩
    · rw [onCache, zoom, hx]
    · show toRows (Function.update caches address cache) = Function.update (toRows caches) address t
      rw [toRows_update, hcache]

end GpuCaches

namespace CudaModel

variable {K : Type} [Field K] [LinearOrder K] (M : CudaModel K)

def cacheOf {S : Type} (message : String) (item : GpuBatchItem) : EStateM Error S Nat :=
  match item.cache with
  | some address => return address
  | none => throw (.invalidArgument message)

def attendCache (launch : Nat → Nat → Launch K) (addresses : List Nat) :
    Attend (GpuCaches M.checkpoint.kvDim K) K := fun l i len past q k v attn => do
  let c := M.checkpoint.config
  let address := addresses.getD i 0
  GpuCaches.onCache address (GpuKVCache.append l k v len)
  let cache := (← get) address
  lift (CudaKernels.attention M.math.exp M.math.sqrt (launch l i).order q (cache.keys l) (cache.values l) attn len
    (past + len) c.numAttentionHeads c.numKeyValueHeads c.headDim past)

/-- What `forward_batch` and `forward_batch_argmax` share: the device array of the logits of the last token of every
item. The caches advance at the end. -/
def forwardBatchCaches (run : BatchRun K) (message : String) (items : List GpuBatchItem) :
    EStateM Error (GpuCaches M.checkpoint.kvDim K) (Nat → K) := do
  let addresses ← items.mapM (cacheOf message)
  let caches ← get
  let logits ← M.forwardBatchDevice run (M.attendCache run.attend addresses) (items.map GpuBatchItem.tokens)
    (addresses.map fun address => (caches address).length)
  forM (addresses.zip items) fun (address, item) =>
    modify fun caches => Function.update caches address ((caches address).advance item.tokens.length)
  return logits

def forwardBatch (run : BatchRun K) (items : List GpuBatchItem) :
    EStateM Error (GpuCaches M.checkpoint.kvDim K) (Nn.Tensor K) := do
  let logits ← M.forwardBatchCaches run "CudaModel::forward_batch: null cache" items
  return .ofCells [items.length, M.checkpoint.config.vocabSize] logits

/-- `forward_batch_argmax`. `lowest` is `-FLT_MAX`, `tokens` what the device array of the tokens holds before. -/
def forwardBatchArgmax (run : BatchRun K) (lowest : K) (launch : ArgmaxLaunch K) (tokens : Nat → Nat)
    (items : List GpuBatchItem) : EStateM Error (GpuCaches M.checkpoint.kvDim K) (List Nat) := do
  let logits ← M.forwardBatchCaches run "CudaModel::forward_batch_argmax: null cache" items
  return (List.range items.length).map
    (CudaKernels.argmax lowest launch logits items.length M.checkpoint.config.vocabSize tokens)

/-! ### Row by row -/

section Rows

variable {M} {l : Nat}

theorem attendsAs_attendCache (launch : Nat → Nat → Launch K) (addresses : List Nat) :
    AttendsAs M (fun caches rows => GpuCaches.toRows caches = rows) (M.attendCache launch addresses)
      (M.toRows.attendCache addresses) := by
  intro l hl i len past q k v attn
  rw [attendCache, InferenceEngine.CudaModel.attendCache]
  apply (GpuCaches.follows_onCache _ (GpuKVCache.simulates_append l k v len).follows).bind
  intro _ _ _
  apply follows_get.bind
  intro caches rows hrows
  subst hrows
  obtain ⟨new, hnew, hattn⟩ := attention_rows hl rowsOf_toRows (launch l i) q (caches (addresses.getD i 0) |>.keys l)
    (caches (addresses.getD i 0) |>.values l) attn past len
  dsimp only
  rw [hnew]
  exact follows_pure hattn

omit [Field K] [LinearOrder K] in
theorem follows_cacheOf {kvDim : Nat} (message : String) (items : List GpuBatchItem) :
    Follows (fun (caches : GpuCaches kvDim K) rows => caches.toRows = rows) Eq (items.mapM (cacheOf message))
      (items.mapM (InferenceEngine.CudaModel.cacheOf message)) := by
  have hitems : Follows (fun (caches : GpuCaches kvDim K) rows => caches.toRows = rows) (List.Forall₂ Eq)
      (items.mapM (cacheOf message)) (items.mapM (InferenceEngine.CudaModel.cacheOf message)) := by
    apply Follows.mapM
    intro item _
    rw [cacheOf, InferenceEngine.CudaModel.cacheOf]
    cases item.cache with
    | some address => exact follows_pure rfl
    | none =>
      intro caches rows _ address rows' hthrow
      cases hthrow
  apply hitems.mono
  intro addresses addresses' h
  rwa [List.forall₂_eq_eq_eq] at h

theorem follows_forwardBatchCaches (run : BatchRun K) (message : String) (items : List GpuBatchItem) :
    Follows (fun caches rows => GpuCaches.toRows caches = rows)
      (fun logits rows => readRows M.checkpoint.config.vocabSize items.length logits = rows)
      (M.forwardBatchCaches run message items) (M.toRows.forwardBatchCaches message items) := by
  rw [forwardBatchCaches, InferenceEngine.CudaModel.forwardBatchCaches]
  apply (follows_cacheOf message items).bind
  intro addresses addresses' heq
  subst heq
  apply follows_get.bind
  intro caches rows hrows
  subst hrows
  have hbatch := follows_forwardBatchDevice (M := M) rowsOf_toRows (attendsAs_attendCache run.attend addresses) run
    (items.map GpuBatchItem.tokens) (addresses.map fun address => (caches address).length)
  rw [List.length_map] at hbatch
  apply hbatch.bind
  intro logits rows hlogits
  have hadvance : Follows (fun caches rows => GpuCaches.toRows caches = rows) Eq
      (forM (addresses.zip items) fun (address, item) =>
        modify fun (caches : GpuCaches M.checkpoint.kvDim K) =>
          Function.update caches address ((caches address).advance item.tokens.length) : EStateM Error _ PUnit)
      (forM (addresses.zip items) fun (address, item) =>
        modify fun caches => Function.update caches address ((caches address).advance item.tokens.length)) := by
    apply Follows.forM
    intro a
    apply follows_modify
    intro caches rows h
    rw [GpuCaches.toRows_update, h]
    subst h
    rfl
  apply hadvance.bind
  intro _ _ _
  exact follows_pure hlogits

end Rows

end CudaModel

end Device

end InferenceEngine
