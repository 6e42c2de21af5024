import InferenceEngine.KvCache.KVCache
import InferenceEngine.Model.Errors

/-!
# The forward passes

`forward_cached` runs one sequence over a cache of its own; `forward` is its run on an empty `KVCache`.
`forward_batch` runs many sequences over one pool: their new tokens stand one after another in one flat
list of rows, and attention goes back and forth between that list and each sequence's blocks.
-/

namespace InferenceEngine

open Exec

/-- `BatchItem`: the address of a sequence, and the tokens to process now. -/
structure BatchItem where
  blocks : Option Nat
  tokens : List Int

/-- Where `forward_batch` keeps an item: its sequence, and its part of the flat list. -/
structure BatchSlot where
  blocks : Nat
  offset : Nat
  len : Nat
  past : Nat

namespace Model

variable {W Q K : Type} (M : Model W Q K)

section Cached

variable {C : Type} [Cache C K]

def layerCached (past : Nat) (positions : List Nat) (x : Rows K) (l : Nat) :
    EStateM Error C (Rows K) := do
  let (q, k, v) ← lift (M.layerInputs l positions x)
  Cache.append l k v positions.length
  let cache ← get
  let attn ← lift (M.attend q (Cache.keyTensor cache l) (Cache.valueTensor cache l) past)
  lift (M.layerOutput l x attn)

def forwardCached (ids : List Int) : EStateM Error C (Rows K) := do
  if ids = [] then
    throw (.invalidArgument "forward: empty input sequence")
  let past := Cache.length (← get)
  let positions := (List.range ids.length).map (past + ·)
  let embed ← lift (M.get "model.embed_tokens.weight")
  let x ← lift (M.kernels.embedding embed ids)
  let x ← (List.range M.config.numHiddenLayers).foldlM (M.layerCached past positions) x
  modify (Cache.advance ids.length)
  let normed ← lift (M.finalNorm x)
  return M.lmHead embed normed

end Cached

def forwardWithCache (ids : List Int) : EStateM Error (KVCache K) (Rows K) := M.forwardCached ids

def forwardPaged {c : PoolSizes} (ids : List Int) : EStateM Error (PagedKVCache c K) (Rows K) :=
  M.forwardCached ids

/-- `forward`: the logits of every token of a sequence. -/
def forward (ids : List Int) : Except Error (Rows K) :=
  match M.forwardWithCache ids KVCache.empty with
  | .ok logits _ => .ok logits
  | .error e _ => .error e

section Batch

variable (c : PoolSizes)

/-- The first loop of `forward_batch`: lay the items out one after another from `total` on, and grow
every item's block table. Returns the slots, the tokens and their positions. -/
def layoutItems : List BatchItem → Nat →
    EStateM Error (Pool K) (List BatchSlot × List Int × List Nat)
  | [], _ => return ([], [], [])
  | item :: items, total => do
    match item.blocks with
    | none => throw (.invalidArgument "forward_batch: null sequence blocks")
    | some id =>
      if item.tokens = [] then
        throw (.invalidArgument "forward_batch: item has no tokens")
      let len := item.tokens.length
      let past := ((← get).seqs id).length
      Pool.reserve c id len
      let (slots, ids, positions) ← layoutItems items (total + len)
      return (⟨id, total, len, past⟩ :: slots, item.tokens ++ ids,
        (List.range len).map (past + ·) ++ positions)

/-- The attention of one item: store its new keys and values, and attend over all it has. -/
def attendItem (l : Nat) (q k v : Rows K) (attn : Rows K) (slot : BatchSlot) :
    EStateM Error (Pool K) (Rows K) := do
  modify fun p => p.write c slot.blocks l slot.past (k.drop slot.offset) (v.drop slot.offset) slot.len
  let p ← get
  let total := slot.past + slot.len
  let kAll := p.gatherKeys c slot.blocks l total
  let vAll := p.gatherValues c slot.blocks l total
  let attnSlice ← lift (M.attend (sliceRows q slot.offset slot.len) kAll vAll slot.past)
  return copyRows attn slot.offset attnSlice

def layerBatch (slots : List BatchSlot) (positions : List Nat) (x : Rows K) (l : Nat) :
    EStateM Error (Pool K) (Rows K) := do
  let (q, k, v) ← lift (M.layerInputs l positions x)
  let attn ← slots.foldlM (M.attendItem c l q k v) (List.replicate positions.length [])
  lift (M.layerOutput l x attn)

/-- `forward_batch`: the logits of the last token of every item. -/
def forwardBatch (items : List BatchItem) : EStateM Error (Pool K) (Rows K) := do
  if items = [] then
    throw (.invalidArgument "forward_batch: empty batch")
  let (slots, allIds, positions) ← layoutItems c items 0
  let embed ← lift (M.get "model.embed_tokens.weight")
  let x ← lift (M.kernels.embedding embed allIds)
  let x ← (List.range M.config.numHiddenLayers).foldlM (M.layerBatch c slots positions) x
  forM slots fun slot => modify fun p => p.commit slot.blocks slot.len
  let normed ← lift (M.finalNorm x)
  let lastHidden := slots.map fun slot => normed.getD (slot.offset + slot.len - 1) []
  return M.lmHead embed lastHidden

end Batch

end Model

end InferenceEngine
