import InferenceEngine.Library.Exec
import InferenceEngine.KvCache.BlockAllocator
import Mathlib.Algebra.Group.Nat.Defs

/-!
# The block manager

One pool of physical blocks serves many sequences. A pool here is the manager together with the
`SequenceBlocks` objects of its callers, by address: a method that takes a `SequenceBlocks&` takes the
address. K/V storage is addressed by row: row `block * block_size + slot` of a layer.
-/

namespace InferenceEngine

open Exec

/-- The sizes a `BlockManager` is constructed with. -/
structure PoolSizes where
  numLayers : Nat
  kvDim : Nat
  blockSize : Nat
  numBlocks : Nat
  numLayers_pos : 0 < numLayers
  kvDim_pos : 0 < kvDim
  blockSize_pos : 0 < blockSize

/-- Sizes of a pool whose stores hold its blocks: the product the constructor resizes them to fits `int64_t`. -/
structure PoolConfig extends PoolSizes where
  store_lt : numBlocks * blockSize * kvDim < 2 ^ 63

instance : Coe PoolConfig PoolSizes := ⟨PoolConfig.toPoolSizes⟩

/-- `SequenceBlocks`: the physical blocks of a sequence, in order, and its committed rows. -/
structure SequenceBlocks where
  blockTable : List Nat := []
  length : Nat := 0
  deriving DecidableEq

abbrev Hash := BitVec 64

/-- `PrefixEntry`: a cached block, the hash of the chain in front of it, and its LRU tick. -/
structure PrefixEntry where
  parent : Hash
  tokens : List Int
  block : Nat
  lastUsed : Nat
  deriving DecidableEq

/-- A `BlockManager` and the sequences that draw from it. `prefixes` holds the entries of the source's
hash map with the key of their bucket; a bucket is the sublist of its key, in order. -/
structure Pool (K : Type) where
  alloc : BlockAllocator
  keys : Nat → Nat → Row K
  values : Nat → Nat → Row K
  prefixes : List (Hash × PrefixEntry)
  prefixHits : Nat
  tick : Nat
  seqs : Nat → SequenceBlocks

namespace PoolSizes

variable (c : PoolSizes)

/-- The constructor's check. -/
def create (numLayers kvDim blockSize numBlocks : Nat) : Except Error PoolSizes :=
  if h : 0 < numLayers ∧ 0 < kvDim ∧ 0 < blockSize then
    .ok ⟨numLayers, kvDim, blockSize, numBlocks, h.1, h.2.1, h.2.2⟩
  else .error (.invalidArgument "BlockManager: num_layers, kv_dim, block_size must be positive")

/-- `blocks_for`: blocks required to store `tokens` tokens. -/
def blocksFor (tokens : Nat) : Nat := (tokens + c.blockSize - 1) / c.blockSize

/-- The physical row of logical row `r`. -/
def rowAddr (table : List Nat) (r : Nat) : Nat :=
  table.getD (r / c.blockSize) 0 * c.blockSize + r % c.blockSize

/-- The full blocks of a token list. -/
def spans (tokens : List Int) : List (List Int) :=
  (List.range (tokens.length / c.blockSize)).map fun b => sliceRows tokens (b * c.blockSize) c.blockSize

/-- `write_one`: rows `start..start + n` of a sequence, from the rows of `src`. -/
def writeOne {K : Type} (store : Nat → Row K) (table : List Nat) (start : Nat) (src : Rows K)
    (n : Nat) : Nat → Row K :=
  (List.range n).foldl
    (fun store r => Function.update store (c.rowAddr table (start + r)) (src.getD r [])) store

/-- `gather_one`: the first `rows` rows of a sequence. -/
def gatherOne {K : Type} (store : Nat → Row K) (table : List Nat) (rows : Nat) : Rows K :=
  (List.range rows).map fun r => store (c.rowAddr table r)

end PoolSizes

/-- `hash_block`: FNV-1a over the parent hash and the bytes of the tokens, low byte first. -/
def hashBlock (parent : Hash) (tokens : List Int) : Hash :=
  tokens.foldl
    (fun h token =>
      let value := BitVec.ofInt 64 token
      (List.range 8).foldl
        (fun h i => (h ^^^ ((value >>> (8 * i)) &&& 0xff#64)) * 0x100000001b3#64) h)
    (parent ^^^ 0xcbf29ce484222325#64)

/-- The test a probe makes on an entry of the right bucket. -/
def PrefixEntry.Matches (c : PoolSizes) (parent : Hash) (span : List Int) (e : PrefixEntry) : Prop :=
  e.parent = parent ∧ e.tokens.length = c.blockSize ∧ e.tokens = span

instance (c : PoolSizes) (parent : Hash) (span : List Int) (e : PrefixEntry) :
    Decidable (e.Matches c parent span) := by
  unfold PrefixEntry.Matches
  infer_instance

namespace Pool

variable {K : Type} (c : PoolSizes)

/-- The constructor, with every sequence fresh. -/
def create [Zero K] : Pool K where
  alloc := .create c.numBlocks
  keys := fun _ _ => List.replicate c.kvDim 0
  values := fun _ _ => List.replicate c.kvDim 0
  prefixes := []
  prefixHits := 0
  tick := 0
  seqs := fun _ => {}

def freeBlocks (p : Pool K) : Nat := p.alloc.numFree

/-- `can_append`: whether the free blocks can grow a sequence by `nNew` tokens. -/
def canAppend (p : Pool K) (id nNew : Nat) : Bool :=
  let seq := p.seqs id
  (c.blocksFor (seq.length + nNew) : Int) - seq.blockTable.length ≤ p.freeBlocks

def setSeq (p : Pool K) (id : Nat) (seq : SequenceBlocks) : Pool K :=
  { p with seqs := Function.update p.seqs id seq }

def pushBlock (p : Pool K) (id block : Nat) : Pool K :=
  p.setSeq id { p.seqs id with blockTable := (p.seqs id).blockTable ++ [block] }

def onAlloc (f : BlockAllocator → Except Error BlockAllocator) : EStateM Error (Pool K) Unit := do
  let alloc ← lift (f (← get).alloc)
  modify fun p => { p with alloc }

/-- The entry `evict_lru` drops: the least recently used of those whose block only the cache holds. -/
def lruVictim (a : BlockAllocator) (entries : List (Hash × PrefixEntry)) :
    Option (Hash × PrefixEntry) :=
  entries.foldl
    (fun victim e =>
      match victim with
      | none => if a.refCount e.2.block = 1 then some e else none
      | some v => if a.refCount e.2.block = 1 ∧ e.2.lastUsed < v.2.lastUsed then some e else some v)
    none

def evictLru : EStateM Error (Pool K) Unit := do
  let p ← get
  match lruVictim p.alloc p.prefixes with
  | none => return ()
  | some victim =>
    onAlloc fun a => a.free victim.2.block
    modify fun p => { p with prefixes := p.prefixes.erase victim }

/-- `allocate_block`: with no block free, a cached prefix block is given up first. -/
def allocateBlock : EStateM Error (Pool K) Nat := do
  if (← get).alloc.numFree = 0 then
    evictLru
  let (block, alloc) ← lift (← get).alloc.allocate
  modify fun p => { p with alloc }
  return block

/-- `reserve`. The loop runs until the table has the needed size; each turn adds one block. -/
def reserve (id nNew : Nat) : EStateM Error (Pool K) Unit := do
  let seq := (← get).seqs id
  let need := c.blocksFor (seq.length + nNew)
  forM (List.range (need - seq.blockTable.length)) fun _ => do
    let block ← allocateBlock
    modify fun p => p.pushBlock id block

/-- `write`: `n` rows of keys and values of one layer, at logical rows `start..start + n`. -/
def write (p : Pool K) (id layer start : Nat) (k v : Rows K) (n : Nat) : Pool K :=
  let table := (p.seqs id).blockTable
  { p with
    keys := Function.update p.keys layer (c.writeOne (p.keys layer) table start k n)
    values := Function.update p.values layer (c.writeOne (p.values layer) table start v n) }

def gatherKeys (p : Pool K) (id layer rows : Nat) : Rows K :=
  c.gatherOne (p.keys layer) (p.seqs id).blockTable rows

def gatherValues (p : Pool K) (id layer rows : Nat) : Rows K :=
  c.gatherOne (p.values layer) (p.seqs id).blockTable rows

def commit (p : Pool K) (id n : Nat) : Pool K :=
  p.setSeq id { p.seqs id with length := (p.seqs id).length + n }

/-- `free`: every block of the sequence goes back, and the sequence is fresh again. -/
def free (id : Nat) : EStateM Error (Pool K) Unit := do
  forM ((← get).seqs id).blockTable fun block => onAlloc fun a => a.free block
  modify fun p => p.setSeq id {}

/-- Find the entry for a block in its bucket and refresh its tick. -/
def probe (h parent : Hash) (span : List Int) (tick : Nat) :
    List (Hash × PrefixEntry) → Option (Nat × List (Hash × PrefixEntry))
  | [] => none
  | (key, e) :: rest =>
    if key = h ∧ e.Matches c parent span then some (e.block, (key, { e with lastUsed := tick }) :: rest)
    else (probe h parent span tick rest).map fun (block, rest) => (block, (key, e) :: rest)

/-- The loop of `acquire_shared_prefix` from one block on: the first miss ends it. -/
def acquireFrom (id : Nat) : List (List Int) → Hash → EStateM Error (Pool K) Nat
  | [], _ => return 0
  | span :: spans, parent => do
    let h := hashBlock parent span
    let p ← get
    match probe c h parent span (p.tick + 1) p.prefixes with
    | none => return 0
    | some (block, prefixes) =>
      set { p with prefixes, tick := p.tick + 1 }
      onAlloc fun a => a.incref block
      modify fun p => p.pushBlock id block
      let matched ← acquireFrom id spans h
      return c.blockSize + matched

/-- `acquire_shared_prefix`: a fresh sequence takes over the cached blocks of its leading full blocks.
Returns the number of tokens they cover. -/
def acquireSharedPrefix (id : Nat) (tokens : List Int) : EStateM Error (Pool K) Nat := do
  let seq := (← get).seqs id
  if seq.blockTable ≠ [] ∨ seq.length ≠ 0 then
    return 0
  let matched ← acquireFrom c id (c.spans tokens) 0
  modify fun p =>
    { p.setSeq id { p.seqs id with length := matched } with
      prefixHits := if 0 < matched then p.prefixHits + 1 else p.prefixHits }
  return matched

/-- One turn of `register_prefix`: cache `block` under its chain unless the chain is cached already. -/
def registerBlock (parent : Hash) (span : List Int) (block : Nat) : EStateM Error (Pool K) Hash := do
  let h := hashBlock parent span
  let p ← get
  if ∀ e ∈ p.prefixes, ¬(e.1 = h ∧ e.2.Matches c parent span) then
    onAlloc fun a => a.incref block
    modify fun p =>
      { p with prefixes := p.prefixes ++ [(h, ⟨parent, span, block, p.tick + 1⟩)], tick := p.tick + 1 }
  return h

/-- `register_prefix`: cache the full blocks of `tokens`, as far as the sequence has blocks. -/
def registerPrefix (id : Nat) (tokens : List Int) : EStateM Error (Pool K) Unit := do
  let table := ((← get).seqs id).blockTable
  let _ ← ((c.spans tokens).zip table).foldlM
    (fun parent (span, block) => registerBlock c parent span block) 0

/-- `clear_prefix_cache`: drop every reference the cache holds. -/
def clearPrefixCache : EStateM Error (Pool K) Unit := do
  forM (← get).prefixes fun e => onAlloc fun a => a.free e.2.block
  modify fun p => { p with prefixes := [] }

end Pool

end InferenceEngine
