import InferenceEngine.Engine.Sampler
import InferenceEngine.Library.Causal
import InferenceEngine.Model.Forward

/-!
# The device model

`CudaModel` runs its kernels on device buffers. Here they are taken row by row, as a causal decoder with a
norm and an output projection behind it. What stays are the loops around the kernels: one sequence over a
device cache, and a batch whose items stand one after another in one flat list of rows. How a batched item
stores and attends to its keys and values is a callback, as in the source.
-/

namespace InferenceEngine

open Exec

/-- `GpuKVCache`. The buffers of a layer hold rows by index; what lies behind the rows written is
arbitrary. -/
structure GpuKVCache (K : Type) where
  capacity : Int
  length : Nat
  keys : Nat → Nat → Row K
  values : Nat → Nat → Row K

abbrev GpuCaches (K : Type) := Nat → GpuKVCache K

namespace GpuKVCache

variable {K : Type}

def create (numLayers kvDim capacity : Int) : Except Error (GpuKVCache K) :=
  if numLayers ≤ 0 ∨ kvDim ≤ 0 ∨ capacity ≤ 0 then
    .error (.invalidArgument "GpuKVCache: num_layers, kv_dim, capacity must be positive")
  else .ok ⟨capacity, 0, fun _ _ => [], fun _ _ => []⟩

/-- `cudaMemcpy` of `n` rows into the buffer of a layer, from row `off` on. -/
def copyInto (buffers : Nat → Nat → Row K) (layer off : Nat) (src : Rows K) (n : Nat) :
    Nat → Nat → Row K :=
  Function.update buffers layer fun r =>
    if off ≤ r ∧ r < off + n then src.getD (r - off) [] else buffers layer r

def append (layer : Nat) (k v : Rows K) (nRows : Nat) : EStateM Error (GpuKVCache K) Unit := do
  if 0 < nRows then
    let cache ← get
    if cache.capacity < cache.length + nRows then
      throw (.runtimeError "GpuKVCache: capacity exceeded")
    set { cache with
      keys := copyInto cache.keys layer cache.length k nRows
      values := copyInto cache.values layer cache.length v nRows }

def advance (nRows : Nat) (cache : GpuKVCache K) : GpuKVCache K :=
  { cache with length := cache.length + nRows }

def keyRows (cache : GpuKVCache K) (layer n : Nat) : Rows K := (List.range n).map (cache.keys layer)

def valueRows (cache : GpuKVCache K) (layer n : Nat) : Rows K := (List.range n).map (cache.values layer)

def onCache {α : Type} (address : Nat) (x : EStateM Error (GpuKVCache K) α) :
    EStateM Error (GpuCaches K) α :=
  zoom (fun caches => caches address) (fun cache caches => Function.update caches address cache) x

end GpuKVCache

/-- `GpuBatchItem`: the address of a cache, and the tokens to process now. -/
structure GpuBatchItem where
  cache : Option Nat
  tokens : List Int

/-- `CudaModel`, its kernels taken row by row. The attention kernel keeps an accumulator of
`kMaxHeadDim` numbers, so that a larger head makes every forward throw. -/
structure CudaModel (K : Type) where
  config : ModelConfig K
  decoder : Causal.Decoder Int (Row K)
  finalNorm : Row K → Row K
  lmHead : Row K → Row K
  length_lmHead : ∀ row, (lmHead row).length = config.vocabSize
  headDim_le : config.headDim ≤ 256

namespace CudaModel

variable {K S : Type} (M : CudaModel K)

def kvDim : Nat := M.config.numKeyValueHeads * M.config.headDim

/-- `kernels::attention`: query row `i` looks at keys and values `0..queryOffset + i`. -/
def attention (l : Nat) (q k v : Rows K) (queryOffset : Nat) : Rows K :=
  q.mapIdx fun i row =>
    let last := queryOffset + i
    (M.decoder.block l).attend row (k.take (last + 1)) (v.take (last + 1))

def layerCached (past : Nat) (positions : List Nat) (x : Rows K) (l : Nat) :
    EStateM Error (GpuKVCache K) (Rows K) := do
  let q := List.zipWith (M.decoder.block l).query positions x
  let k := List.zipWith (M.decoder.block l).key positions x
  let v := List.zipWith (M.decoder.block l).value positions x
  GpuKVCache.append l k v positions.length
  let cache ← get
  let total := past + positions.length
  let attn := M.attention l q (cache.keyRows l total) (cache.valueRows l total) past
  return List.zipWith (M.decoder.block l).finish x attn

def forwardCached (ids : List Int) : EStateM Error (GpuKVCache K) (Rows K) := do
  if ids = [] then
    throw (.invalidArgument "CudaModel::forward: empty input sequence")
  let past := (← get).length
  let positions := (List.range ids.length).map (past + ·)
  let x := ids.map M.decoder.embed
  let x ← (List.range M.config.numHiddenLayers).foldlM (M.layerCached past positions) x
  modify (GpuKVCache.advance ids.length)
  return (x.map M.finalNorm).map M.lmHead

/-- `forward`: the logits of every token of a sequence, over a cache of its own. -/
def forward (ids : List Int) : Except Error (Rows K) := do
  let cache ← GpuKVCache.create M.config.numHiddenLayers M.kvDim ids.length
  match M.forwardCached ids cache with
  | .ok logits _ => .ok logits
  | .error e _ => .error e

/-- What `forward_batch_device` asks of its callback: for a layer and an item, the number of new rows, the
rows before them, and the new queries, keys and values, the attention rows. -/
abbrev Attend (S K : Type) :=
  Nat → Nat → Nat → Nat → Rows K → Rows K → Rows K → EStateM Error S (Rows K)

/-- The items of a batch, from item `i` on, laid out one after another from row `total` on. -/
def layoutFrom (pasts : List Nat) : List (List Int) → Nat → Nat → List BatchSlot
  | [], _, _ => []
  | tokens :: rest, i, total =>
    ⟨i, total, tokens.length, pasts.getD i 0⟩ :: layoutFrom pasts rest (i + 1) (total + tokens.length)

def layerBatch (attend : Attend S K) (slots : List BatchSlot) (positions : List Nat) (x : Rows K)
    (l : Nat) : EStateM Error S (Rows K) := do
  let q := List.zipWith (M.decoder.block l).query positions x
  let k := List.zipWith (M.decoder.block l).key positions x
  let v := List.zipWith (M.decoder.block l).value positions x
  let attn ← slots.foldlM (fun attn slot => do
    let rows ← attend l slot.blocks slot.len slot.past (sliceRows q slot.offset slot.len)
      (sliceRows k slot.offset slot.len) (sliceRows v slot.offset slot.len)
    return copyRows attn slot.offset rows) (List.replicate positions.length [])
  return List.zipWith (M.decoder.block l).finish x attn

/-- `forward_batch_device`: the logits of the last token of every item. -/
def forwardBatchDevice (attend : Attend S K) (tokenLists : List (List Int)) (pasts : List Nat) :
    EStateM Error S (Rows K) := do
  if tokenLists = [] then
    throw (.invalidArgument "CudaModel::forward_batch: empty batch")
  if [] ∈ tokenLists then
    throw (.invalidArgument "CudaModel::forward_batch: item has no tokens")
  let slots := layoutFrom pasts tokenLists 0 0
  let positions := slots.flatMap fun slot => (List.range slot.len).map (slot.past + ·)
  let x := tokenLists.flatten.map M.decoder.embed
  let x ← (List.range M.config.numHiddenLayers).foldlM (M.layerBatch attend slots positions) x
  let normed := x.map M.finalNorm
  let last := slots.map fun slot => normed.getD (slot.offset + slot.len - 1) []
  return last.map M.lmHead

section Contiguous

def cacheOf (message : String) (item : GpuBatchItem) : EStateM Error (GpuCaches K) Nat :=
  match item.cache with
  | some address => return address
  | none => throw (.invalidArgument message)

/-- The callback over contiguous caches: the new rows are appended to the item's cache, and attention runs
over its buffers. -/
def attendCache (addresses : List Nat) : Attend (GpuCaches K) K := fun l i len past q k v => do
  let address := addresses.getD i 0
  GpuKVCache.onCache address (GpuKVCache.append l k v len)
  let cache := (← get) address
  return M.attention l q (cache.keyRows l (past + len)) (cache.valueRows l (past + len)) past

/-- What `forward_batch` and `forward_batch_argmax` share: the logits of the last token of every item. The
caches advance at the end. -/
def forwardBatchCaches (message : String) (items : List GpuBatchItem) :
    EStateM Error (GpuCaches K) (Rows K) := do
  let addresses ← items.mapM (cacheOf message)
  let caches ← get
  let logits ← M.forwardBatchDevice (M.attendCache addresses) (items.map GpuBatchItem.tokens)
    (addresses.map fun address => (caches address).length)
  forM (addresses.zip items) fun (address, item) =>
    modify fun caches => Function.update caches address ((caches address).advance item.tokens.length)
  return logits

def forwardBatch (items : List GpuBatchItem) : EStateM Error (GpuCaches K) (Rows K) :=
  M.forwardBatchCaches "CudaModel::forward_batch: null cache" items

/-- `forward_batch_argmax`: the first largest logit of every item. -/
def forwardBatchArgmax [Field K] [LinearOrder K] (items : List GpuBatchItem) :
    EStateM Error (GpuCaches K) (List Nat) := do
  let logits ← M.forwardBatchCaches "CudaModel::forward_batch_argmax: null cache" items
  return logits.map fun row => Sampler.argmax row M.config.vocabSize

end Contiguous

end CudaModel

end InferenceEngine
