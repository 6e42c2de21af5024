import InferenceEngine.Cuda.DeviceBatch
import InferenceEngine.Cuda.PagedRun

/-!
# Paged batches on device buffers

`forward_batch_paged` of `model.cu`: the kernels scatter flat rows of keys and values from where the projections left
them into the pool, gather the rows of a sequence into scratch buffers and run the attention kernel over those. It does
to the pool what the model of rows does, whose rows come from the same checkpoint.
-/

namespace InferenceEngine

open Exec
open Nn (linearRow)

/-! ### A scatter from pointers -/

theorem CudaKernels.pagedScatter_readRows {K : Type} [Zero K] (order : Nat → List Nat) (blockTable : Nat → Nat)
    (src : Nat → K) (start n blockSize kvDim : Nat) (pool : Nat → K) :
    pagedScatter order blockTable (pointerTo (readRows kvDim n src)) start n blockSize kvDim pool =
      pagedScatter order blockTable src start n blockSize kvDim pool := by
  rw [pagedScatter, pagedScatter]
  split
  · rfl
  · next hwork =>
    congr 1
    funext idx pool
    rw [pagedScatterThread, pagedScatterThread]
    split
    · rfl
    · next hidx =>
      have hkv : 0 < kvDim := by omega
      have hrow : idx / kvDim < n := (Nat.div_lt_iff_lt_mul hkv).mpr (not_le.mp hidx)
      dsimp only
      rw [pointerTo_readRows hrow (Nat.mod_lt idx hkv)]

namespace GpuPool

variable {K : Type} (c : PoolSizes) (sched : Kernel.Schedule)

/-- `write`, of the rows behind two pointers. -/
def writeCells (id layer start : Nat) (k v : Nat → K) (n : Nat) (m : GpuPool K) : GpuPool K :=
  if n = 0 then m
  else
    let m := m.uploadTable id
    { m with
      keys := Function.update m.keys layer (CudaKernels.pagedScatter (sched.order m.launches) m.tableEntry k start n
        c.blockSize c.kvDim (m.keys layer))
      values := Function.update m.values layer (CudaKernels.pagedScatter (sched.order (m.launches + 1)) m.tableEntry v
        start n c.blockSize c.kvDim (m.values layer))
      launches := m.launches + 2 }

variable {c}

theorem writeCells_eq [Zero K] (id layer start : Nat) (k v : Nat → K) (n : Nat) (m : GpuPool K) :
    m.writeCells c sched id layer start k v n =
      m.write c sched id layer start (readRows c.kvDim n k) (readRows c.kvDim n v) n := by
  rw [writeCells, write]
  split
  · rfl
  · simp only [CudaKernels.pagedScatter_readRows]

end GpuPool

namespace Device

namespace CudaModel

variable {K : Type} [Field K] [LinearOrder K] (M : CudaModel K) (c : PoolSizes) (sched : Kernel.Schedule)

def preparePaged (items : List BatchItem) : EStateM Error (GpuPaged K) (List Nat × List Nat) := do
  let (ids, pasts, maxTotal) ← zoom GpuPaged.pool (fun pool s => { s with pool }) (GpuPool.reserveItems c items 0)
  modify fun s => { s with scratch := s.scratch.allocate (maxTotal * M.checkpoint.kvDim) }
  return (ids, pasts)

def attendPaged (launch : Nat → Nat → Launch K) (ids : List Nat) : Attend (GpuPaged K) K :=
    fun l i len past q k v attn => do
  let config := M.checkpoint.config
  let id := ids.getD i 0
  modify fun s => { s with pool := s.pool.writeCells c sched id l past k v len }
  let total := past + len
  modify fun s =>
    let (pool, scratch) := s.pool.gather c sched id l total s.scratch
    ⟨pool, scratch⟩
  let scratch := (← get).scratch
  lift (CudaKernels.attention M.math.exp M.math.sqrt (launch l i).order q scratch.keys scratch.values attn len total
    config.numAttentionHeads config.numKeyValueHeads config.headDim past)

def forwardBatchPaged (run : BatchRun K) (items : List BatchItem) : EStateM Error (GpuPaged K) (Nn.Tensor K) := do
  let (ids, pasts) ← M.preparePaged c items
  let logits ← M.forwardBatchDevice run (M.attendPaged c sched run.attend ids) (items.map BatchItem.tokens) pasts
  forM (ids.zip items) fun (id, item) =>
    modify fun s => { s with pool := s.pool.commit id item.tokens.length }
  return .ofCells [items.length, M.checkpoint.config.vocabSize] logits

/-! ### Row by row -/

omit [LinearOrder K] in
theorem length_linearRow (row : Row K) {weight : Nn.Tensor K} {rows cols : Nat} (h : weight.shape = [rows, cols])
    (bias : Option (Nn.Tensor K)) : (linearRow row weight bias).length = rows := by
  rw [linearRow, List.length_map, List.length_range, Nn.Tensor.dim_zero_of_shape h]

/-- The device model of rows, whose layers beyond the last one are like the first. -/
def sized : SizedModel K where
  toCudaModel := { M.toRows with
    decoder :=
      { embed := M.toRows.decoder.embed
        block := fun l => M.checkpoint.block M.math (if l < M.checkpoint.config.numHiddenLayers then l else 0) } }
  length_key l p row := by
    show (Nn.ropeRow ..).length = _
    rw [Nn.ropeRow, List.length_map, List.length_range]
    rfl
  length_value l p row := by
    have hl : (if l < M.checkpoint.config.numHiddenLayers then l else 0) < M.checkpoint.config.numHiddenLayers := by
      split
      · assumption
      · exact M.checkpoint.numHiddenLayers_pos
    exact length_linearRow _ (Checkpoint.found (M.checkpoint.layer _ hl).value).2 _

variable {M c}

theorem rowsOf_sized : RowsOf M M.sized.toCudaModel := by
  refine ⟨rfl, rfl, fun l hl => ?_, rfl, rfl⟩
  show M.checkpoint.block M.math (if l < M.checkpoint.config.numHiddenLayers then l else 0) = _
  rw [if_pos hl]

theorem attendsAs_attendPaged (hkv : c.kvDim = M.checkpoint.kvDim) (launch : Nat → Nat → Launch K) (ids : List Nat) :
    AttendsAs M Eq (M.attendPaged c sched launch ids)
      (M.sized.attendOver (M.sized.fetchPaged c sched ids)) := by
  intro l hl i len past q k v attn
  rw [attendPaged, InferenceEngine.CudaModel.attendOver, InferenceEngine.CudaModel.fetchPaged]
  simp only [bind_assoc, pure_bind]
  have hwrite : ∀ pool : GpuPool K, pool.writeCells c sched (ids.getD i 0) l past k v len =
      pool.write c sched (ids.getD i 0) l past (readRows M.checkpoint.kvDim len k) (readRows M.checkpoint.kvDim len v)
        len := by
    intro pool
    rw [GpuPool.writeCells_eq, hkv]
  apply (follows_modify fun s t hst => by rw [hst, hwrite]).bind
  intro _ _ _
  apply (follows_modify fun s t hst => by rw [hst]).bind
  intro _ _ _
  apply follows_get.bind
  intro s t hst
  subst hst
  obtain ⟨new, hnew, hattn⟩ := attention_rows hl rowsOf_sized (launch l i) q s.scratch.keys s.scratch.values attn past
    len
  rw [hnew]
  exact follows_pure hattn

theorem follows_forwardBatchPaged (hkv : c.kvDim = M.checkpoint.kvDim) (run : BatchRun K) (items : List BatchItem) :
    Follows Eq (fun logits rows => logits.HasRows M.checkpoint.config.vocabSize rows)
      (M.forwardBatchPaged c sched run items) (M.sized.forwardBatchPaged c sched items) := by
  have hprepare : Follows Eq Eq (M.preparePaged c items)
      (M.sized.preparePaged c items : EStateM Error (GpuPaged K) (List Nat × List Nat)) := by
    intro s t hst out t' hrun
    subst hst
    exact ⟨out, t', hrun, rfl, rfl⟩
  rw [forwardBatchPaged, InferenceEngine.CudaModel.forwardBatchPaged]
  apply hprepare.bind
  intro out out' hout
  subst hout
  dsimp only
  apply (follows_forwardBatchDevice rowsOf_sized (attendsAs_attendPaged sched hkv run.attend out.1) run
    (items.map BatchItem.tokens) out.2).bind
  intro logits rows hlogits
  have hcommit : Follows Eq Eq (forM (out.1.zip items) fun (id, item) =>
        modify fun s : GpuPaged K => { s with pool := s.pool.commit id item.tokens.length } :
          EStateM Error (GpuPaged K) PUnit)
      (forM (out.1.zip items) fun (id, item) =>
        modify fun s : GpuPaged K => { s with pool := s.pool.commit id item.tokens.length }) := by
    apply Follows.forM
    intro a
    apply follows_modify
    intro s t hst
    rw [hst]
  apply hcommit.bind
  intro _ _ _
  rw [List.length_map] at hlogits
  exact follows_pure (Nn.Tensor.hasRows_ofCells hlogits)

end CudaModel

end Device

end InferenceEngine
