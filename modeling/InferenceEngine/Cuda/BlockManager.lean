import InferenceEngine.KvCache.BlockManager
import InferenceEngine.Library.Kernel

/-!
# The device block manager

The pool of a layer is one flat buffer of numbers. Rows get there and back by kernels of one thread per
number, which find the block of a row in a device copy of the block table. That copy is one buffer for all
sequences, refreshed before every launch.
-/

namespace InferenceEngine

open Exec

namespace CudaKernels

variable {K : Type}

/-- `grid_for` blocks of `kThreads` threads. -/
def threadsFor (work : Nat) : Nat := (work + 256 - 1) / 256 * 256

theorem le_threadsFor (work : Nat) : work ≤ threadsFor work := by
  unfold threadsFor
  omega

def pagedScatterThread (blockTable : Nat → Nat) (src : Nat → K) (start n blockSize kvDim idx : Nat)
    (pool : Nat → K) : Nat → K :=
  if n * kvDim ≤ idx then pool
  else
    let r := idx / kvDim
    let e := idx % kvDim
    let logical := start + r
    let pb := blockTable (logical / blockSize)
    let slot := logical % blockSize
    Function.update pool ((pb * blockSize + slot) * kvDim + e) (src (r * kvDim + e))

def pagedGatherThread (blockTable : Nat → Nat) (pool : Nat → K) (rows blockSize kvDim idx : Nat)
    (out : Nat → K) : Nat → K :=
  if rows * kvDim ≤ idx then out
  else
    let r := idx / kvDim
    let e := idx % kvDim
    let pb := blockTable (r / blockSize)
    let slot := r % blockSize
    Function.update out idx (pool ((pb * blockSize + slot) * kvDim + e))

/-- `paged_scatter`, its threads acting in a given order. -/
def pagedScatter (order : Nat → List Nat) (blockTable : Nat → Nat) (src : Nat → K)
    (start n blockSize kvDim : Nat) (pool : Nat → K) : Nat → K :=
  if n = 0 ∨ kvDim = 0 then pool
  else Kernel.launch (pagedScatterThread blockTable src start n blockSize kvDim)
    (order (threadsFor (n * kvDim))) pool

def pagedGather (order : Nat → List Nat) (blockTable : Nat → Nat) (pool : Nat → K)
    (rows blockSize kvDim : Nat) (out : Nat → K) : Nat → K :=
  if rows = 0 ∨ kvDim = 0 then out
  else Kernel.launch (pagedGatherThread blockTable pool rows blockSize kvDim)
    (order (threadsFor (rows * kvDim))) out

end CudaKernels

/-- A `GpuBlockManager` and the sequences that draw from it. `deviceTable` is the device copy of a block
table, all `device_table_cap_` entries of it, and `launches` counts the kernels launched. -/
structure GpuPool (K : Type) where
  alloc : BlockAllocator
  keys : Nat → Nat → K
  values : Nat → Nat → K
  deviceTable : List Nat
  launches : Nat
  seqs : Nat → SequenceBlocks

/-- The scratch buffers of a batch, of `size` numbers each. `overrun` tells whether a thread has stored past
their end. -/
structure Scratch (K : Type) where
  size : Nat
  keys : Nat → K
  values : Nat → K
  overrun : Bool

namespace Scratch

variable {K : Type}

/-- New buffers, with whatever the memory held before. -/
def allocate (size : Nat) (s : Scratch K) : Scratch K := { s with size }

/-- Whether a thread of a gather of `work` numbers stores past the end. -/
def overruns (s : Scratch K) (work : Nat) : Bool :=
  (List.range (CudaKernels.threadsFor work)).any fun idx => idx < work && s.size ≤ idx

end Scratch

namespace GpuPool

variable {K : Type} (c : PoolSizes) (sched : Kernel.Schedule)

/-- The constructor, with every sequence fresh. What the buffers hold is arbitrary. -/
def create (keys values : Nat → Nat → K) : GpuPool K where
  alloc := .create c.numBlocks
  keys := keys
  values := values
  deviceTable := []
  launches := 0
  seqs := fun _ => {}

def pushBlock (m : GpuPool K) (id block : Nat) : GpuPool K :=
  { m with seqs :=
      Function.update m.seqs id { m.seqs id with blockTable := (m.seqs id).blockTable ++ [block] } }

def allocate : EStateM Error (GpuPool K) Nat := do
  let (block, alloc) ← lift (← get).alloc.allocate
  modify fun m => { m with alloc }
  return block

/-- `reserve`. The loop runs until the table has the needed size; each turn adds one block. -/
def reserve (id nNew : Nat) : EStateM Error (GpuPool K) Unit := do
  let seq := (← get).seqs id
  let need := c.blocksFor (seq.length + nNew)
  forM (List.range (need - seq.blockTable.length)) fun _ => do
    let block ← allocate
    modify fun m => m.pushBlock id block

/-- `upload_table`: a buffer that is too small is replaced by one of the size of the table. -/
def uploadTable (id : Nat) (m : GpuPool K) : GpuPool K :=
  let table := (m.seqs id).blockTable
  if table = [] then m
  else
    let device :=
      if m.deviceTable.length < table.length then List.replicate table.length 0 else m.deviceTable
    { m with deviceTable := table ++ device.drop table.length }

def tableEntry (m : GpuPool K) (i : Nat) : Nat := m.deviceTable.getD i 0

/-- `write`: one launch for the keys, one for the values. -/
def write [Zero K] (id layer start : Nat) (k v : Rows K) (n : Nat) (m : GpuPool K) : GpuPool K :=
  if n = 0 then m
  else
    let m := m.uploadTable id
    { m with
      keys := Function.update m.keys layer (CudaKernels.pagedScatter (sched.order m.launches) m.tableEntry
        (pointerTo k) start n c.blockSize c.kvDim (m.keys layer))
      values := Function.update m.values layer (CudaKernels.pagedScatter (sched.order (m.launches + 1))
        m.tableEntry (pointerTo v) start n c.blockSize c.kvDim (m.values layer))
      launches := m.launches + 2 }

def gather (id layer rows : Nat) (m : GpuPool K) (s : Scratch K) : GpuPool K × Scratch K :=
  if rows = 0 then (m, s)
  else
    let m := m.uploadTable id
    ({ m with launches := m.launches + 2 },
      { s with
        keys := CudaKernels.pagedGather (sched.order m.launches) m.tableEntry (m.keys layer) rows c.blockSize
          c.kvDim s.keys
        values := CudaKernels.pagedGather (sched.order (m.launches + 1)) m.tableEntry (m.values layer) rows
          c.blockSize c.kvDim s.values
        overrun := s.overrun || s.overruns (rows * c.kvDim) })

def commit (id n : Nat) (m : GpuPool K) : GpuPool K :=
  { m with seqs := Function.update m.seqs id { m.seqs id with length := (m.seqs id).length + n } }

end GpuPool

end InferenceEngine
