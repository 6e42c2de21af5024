import InferenceEngine.KvCache.BlockManager

/-!
# The caches of a single sequence

`forward_cached` is a template over the cache. Its two instances keep the rows of a layer in one
contiguous vector, or in fixed-size blocks behind a block table that all layers share.
-/

namespace InferenceEngine

open Exec

/-- What `forward_cached` asks of a cache. -/
class Cache (C : Type) (K : outParam Type) where
  length : C → Nat
  /-- Append `n` rows of keys and values to a layer. -/
  append : (layer : Nat) → (k v : Rows K) → (n : Nat) → EStateM Error C Unit
  keyTensor : C → Nat → Rows K
  valueTensor : C → Nat → Rows K
  advance : Nat → C → C

/-- `KVCache`: per layer, the keys and values appended so far. -/
structure KVCache (K : Type) where
  keys : Nat → Rows K
  values : Nat → Rows K
  length : Nat

namespace KVCache

variable {K : Type}

def empty : KVCache K := ⟨fun _ => [], fun _ => [], 0⟩

def append (cache : KVCache K) (layer : Nat) (k v : Rows K) (n : Nat) : KVCache K :=
  { cache with
    keys := Function.update cache.keys layer (cache.keys layer ++ k.take n)
    values := Function.update cache.values layer (cache.values layer ++ v.take n) }

instance : Cache (KVCache K) K where
  length cache := cache.length
  append layer k v n := modify fun cache => cache.append layer k v n
  keyTensor cache layer := cache.keys layer
  valueTensor cache layer := cache.values layer
  advance n cache := { cache with length := cache.length + n }

end KVCache

/-- `PagedKVCache`: one sequence over its own pool of blocks. `filled` counts the rows of a layer. -/
structure PagedKVCache (c : PoolSizes) (K : Type) where
  alloc : BlockAllocator
  blockTable : List Nat
  keys : Nat → Nat → Row K
  values : Nat → Nat → Row K
  filled : Nat → Nat
  length : Nat

namespace PagedKVCache

variable {K : Type} {c : PoolSizes}

def create (c : PoolSizes) [Zero K] : PagedKVCache c K where
  alloc := .create c.numBlocks
  blockTable := []
  keys := fun _ _ => List.replicate c.kvDim 0
  values := fun _ _ => List.replicate c.kvDim 0
  filled := fun _ => 0
  length := 0

/-- `ensure_blocks`: grow the table to hold `rows` rows, one block a turn. -/
def ensureBlocks (rows : Nat) : EStateM Error (PagedKVCache c K) Unit := do
  let cache ← get
  forM (List.range (c.blocksFor rows - cache.blockTable.length)) fun _ => do
    let (block, alloc) ← lift (← get).alloc.allocate
    modify fun cache => { cache with alloc, blockTable := cache.blockTable ++ [block] }

/-- `append`: rows land at the layer's fill position. -/
def append (layer : Nat) (k v : Rows K) (n : Nat) : EStateM Error (PagedKVCache c K) Unit := do
  let start := (← get).filled layer
  ensureBlocks (start + n)
  modify fun cache =>
    { cache with
      keys := Function.update cache.keys layer
        (c.writeOne (cache.keys layer) cache.blockTable start k n)
      values := Function.update cache.values layer
        (c.writeOne (cache.values layer) cache.blockTable start v n)
      filled := Function.update cache.filled layer (start + n) }

def keyTensor (cache : PagedKVCache c K) (layer : Nat) : Rows K :=
  c.gatherOne (cache.keys layer) cache.blockTable (cache.filled layer)

def valueTensor (cache : PagedKVCache c K) (layer : Nat) : Rows K :=
  c.gatherOne (cache.values layer) cache.blockTable (cache.filled layer)

instance : Cache (PagedKVCache c K) K where
  length cache := cache.length
  append := append
  keyTensor := keyTensor
  valueTensor := valueTensor
  advance n cache := { cache with length := cache.length + n }

end PagedKVCache

end InferenceEngine
