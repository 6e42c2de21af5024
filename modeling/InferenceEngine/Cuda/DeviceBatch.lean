import InferenceEngine.Cuda.Argmax
import InferenceEngine.Cuda.DeviceForward
import InferenceEngine.Model.HostBatch

/-!
# The batched forward on device buffers

`forward_batch_device` of `model.cu` with every kernel on flat buffers: the items of a batch are parts of the same
arrays, and a callback is given pointers into them. Over a callback that goes along with one on rows it computes
what the model of rows computes, whatever the order of the threads.
-/

namespace InferenceEngine

open Exec
open Nn (linearRow rmsNormRow)

namespace Device

section Pointers

variable {K : Type}

/-- The cells behind the pointer `p + n`. -/
def behind (cells : Nat → K) (n : Nat) : Nat → K := fun i => cells (n + i)

/-- An array whose cells behind `p + n` have changed. -/
def written (cells : Nat → K) (n : Nat) (new : Nat → K) : Nat → K := fun i => if n ≤ i then new (i - n) else cells i

theorem readRow_behind (width off r : Nat) (cells : Nat → K) :
    readRow width (behind cells (off * width)) r = readRow width cells (off + r) := by
  apply List.map_congr_left
  intro e _
  rw [behind, ← Nat.add_assoc, ← Nat.add_mul]

theorem readRows_behind (width off n total : Nat) (cells : Nat → K) (h : off + n ≤ total) :
    readRows width n (behind cells (off * width)) = sliceRows (readRows width total cells) off n := by
  apply List.ext_getElem
  · rw [length_readRows, sliceRows, List.length_take, List.length_drop, length_readRows]
    omega
  · intro r hr hr'
    simp only [readRows, sliceRows, List.getElem_map, List.getElem_range, List.getElem_take, List.getElem_drop]
    exact readRow_behind width off r cells

theorem readRow_written (width off r : Nat) (cells new : Nat → K) :
    readRow width (written cells (off * width) new) r =
      if off ≤ r then readRow width new (r - off) else readRow width cells r := by
  split
  · next hr =>
    apply List.map_congr_left
    intro e _
    have hle := Nat.mul_le_mul_right width hr
    have hcell : r * width + e - off * width = (r - off) * width + e := by
      rw [Nat.sub_mul]
      omega
    rw [written, if_pos (by omega), hcell]
  · next hr =>
    apply readRow_congr
    intro e he
    have hlt := Loop.lt_work (Nat.not_le.mp hr) he
    rw [written, if_neg (by omega)]

end Pointers

/-- What nobody fixes in a batch: what new arrays hold, and how every launch goes. The attention of every item of a
layer is a launch of its own. -/
structure BatchRun (K : Type) where
  arrays : Arrays K
  last : Nat → K
  embedding : Launch K
  layer : Nat → Nat → Launch K
  attend : Nat → Nat → Launch K
  norm : Launch K
  head : Launch K

/-- What `forward_batch_device` asks of its callback: for a layer and an item, the number of new rows, the rows before
them, and pointers to the new queries, keys and values and to the rows of attention, what the last points to then. -/
abbrev Attend (S K : Type) :=
  Nat → Nat → Nat → Nat → (Nat → K) → (Nat → K) → (Nat → K) → (Nat → K) → EStateM Error S (Nat → K)

namespace CudaModel

variable {K S : Type} [Field K] [LinearOrder K] (M : CudaModel K)

def layerBatch (attend : Attend S K) (launch : Nat → Nat → Launch K) (slots : List BatchSlot) (positions : List Nat)
    (d : Arrays K) (l : Nat) : EStateM Error S (Arrays K) := do
  let c := M.checkpoint.config
  let nqDim := c.numAttentionHeads * c.headDim
  let nkvDim := c.numKeyValueHeads * c.headDim
  let d ← lift (M.layerInputs (launch l) l positions d)
  let attn ← slots.foldlM (fun attn slot => do
    let new ← attend l slot.blocks slot.len slot.past (behind d.q (slot.offset * nqDim))
      (behind d.k (slot.offset * nkvDim)) (behind d.v (slot.offset * nkvDim)) (behind attn (slot.offset * nqDim))
    return written attn (slot.offset * nqDim) new) d.attn
  lift (M.layerOutput (launch l) l positions.length { d with attn })

def gatherLast (slots : List BatchSlot) (normed last : Nat → K) : Nat → K :=
  let hidden := M.checkpoint.hiddenSize
  slots.zipIdx.foldl (fun last (slot, i) =>
    let lastRow := slot.offset + slot.len - 1
    Loop.storeRange (i * hidden) hidden (behind normed (lastRow * hidden)) last) last

/-- `forward_batch_device`: the device array of the logits of the last token of every item. -/
def forwardBatchDevice (run : BatchRun K) (attend : Attend S K) (tokenLists : List (List Int)) (pasts : List Nat) :
    EStateM Error S (Nat → K) := do
  if tokenLists = [] then
    throw (.invalidArgument "CudaModel::forward_batch: empty batch")
  if tokenLists.any List.isEmpty then
    throw (.invalidArgument "CudaModel::forward_batch: item has no tokens")
  let c := M.checkpoint.config
  let hidden := M.checkpoint.hiddenSize
  let slots := InferenceEngine.CudaModel.layoutFrom pasts tokenLists 0 0
  let positions := slots.flatMap fun slot => (List.range slot.len).map (slot.past + ·)
  let allIds := tokenLists.flatten
  let total := positions.length
  let embed ← lift (M.weight "model.embed_tokens.weight")
  let x := CudaKernels.embedding run.embedding embed.cell (fun i => (allIds.getD i 0).toNat) run.arrays.x total hidden
  let d ← (List.range c.numHiddenLayers).foldlM (M.layerBatch attend run.layer slots positions)
    { run.arrays with x }
  let norm ← lift (M.weight "model.norm.weight")
  let normed := CudaKernels.rmsNorm M.math run.norm d.x norm.cell d.normed total hidden c.rmsNormEps
  let last := M.gatherLast slots normed run.last
  let lmHead := (M.checkpoint.weights "lm_head.weight").getD embed
  return CudaKernels.linear M.blas run.head last lmHead.cell none run.arrays.logits tokenLists.length hidden
    c.vocabSize

/-! ### Row by row -/

section Rows

variable {T : Type} {M} {R : S → T → Prop} {attend : Attend S K} {rowAttend : InferenceEngine.CudaModel.Attend T K}
  {N : InferenceEngine.CudaModel K}

/-- A device model of rows that computes with the checkpoint. It may do as it likes in layers that there are not. -/
structure RowsOf (M : CudaModel K) (N : InferenceEngine.CudaModel K) : Prop where
  config : N.config = M.checkpoint.config
  embed : N.decoder.embed = M.toRows.decoder.embed
  block : ∀ l < M.checkpoint.config.numHiddenLayers, N.decoder.block l = M.checkpoint.block M.math l
  finalNorm : N.finalNorm = M.toRows.finalNorm
  lmHead : N.lmHead = M.toRows.lmHead

theorem rowsOf_toRows : RowsOf M M.toRows := ⟨rfl, rfl, fun _ hl => toRows_block hl, rfl, rfl⟩

theorem RowsOf.lastLogits (h : RowsOf M N) (ids : List Int) :
    N.lastLogits ids = ((M.checkpoint.host M.math).logits ids).getLastD [] := by
  have hhidden : ∀ l ≤ M.checkpoint.config.numHiddenLayers,
      N.decoder.hidden l ids = M.toRows.decoder.hidden l ids := by
    intro l hl
    induction l with
    | zero => rw [Causal.Decoder.hidden, Causal.Decoder.hidden, h.embed]
    | succ l ih =>
      rw [Causal.Decoder.hidden, Causal.Decoder.hidden, ih (Nat.le_of_succ_le hl), h.block l hl, toRows_block hl]
  rw [← toRows_logits, InferenceEngine.CudaModel.lastLogits, InferenceEngine.CudaModel.logits,
    InferenceEngine.CudaModel.logits, h.config, h.finalNorm, h.lmHead, hhidden _ le_rfl]
  rfl

theorem attention_rows {l : Nat} (hl : l < M.checkpoint.config.numHiddenLayers)
    (hN : RowsOf M N) (launch : Launch K) (q keys values attn : Nat → K) (past len : Nat) :
    ∃ new, CudaKernels.attention M.math.exp M.math.sqrt launch.order q keys values attn len (past + len)
        M.checkpoint.config.numAttentionHeads M.checkpoint.config.numKeyValueHeads M.checkpoint.config.headDim past =
          .ok new ∧
      readRows M.checkpoint.qDim len new =
        N.attention l (readRows M.checkpoint.qDim len q) (readRows M.checkpoint.kvDim (past + len) keys)
          (readRows M.checkpoint.kvDim (past + len) values) past := by
  obtain ⟨new, hnew, hrows⟩ := CudaKernels.rows_attention M.math launch M.checkpoint.numKeyValueHeads_pos
    M.checkpoint.heads_dvd M.headDim_le q keys values attn past len
  refine ⟨new, hnew, hrows.trans ?_⟩
  rw [InferenceEngine.CudaModel.attention, hN.block l hl]
  rfl

/-- A callback on pointers that goes along with one on rows. -/
def AttendsAs (M : CudaModel K) (R : S → T → Prop) (attend : Attend S K)
    (rowAttend : InferenceEngine.CudaModel.Attend T K) : Prop :=
  ∀ l < M.checkpoint.config.numHiddenLayers, ∀ i len past q k v attn,
    Follows R (fun new rows => readRows M.checkpoint.qDim len new = rows) (attend l i len past q k v attn)
      (rowAttend l i len past (readRows M.checkpoint.qDim len q) (readRows M.checkpoint.kvDim len k)
        (readRows M.checkpoint.kvDim len v))

/-- A layer over the callback on pointers does to the rows what it does over the one on rows. -/
theorem follows_layerBatch (hN : RowsOf M N) (hattend : AttendsAs M R attend rowAttend) {l : Nat}
    (hl : l < M.checkpoint.config.numHiddenLayers) (launch : Nat → Nat → Launch K) {slots : List BatchSlot}
    {positions : List Nat} (htile : BatchSlot.Tile slots 0 positions.length) (d : Arrays K) :
    Follows R (fun d' rows => readRows M.checkpoint.hiddenSize positions.length d'.x = rows)
      (M.layerBatch attend launch slots positions d l)
      (N.layerBatch rowAttend slots positions (readRows M.checkpoint.hiddenSize positions.length d.x) l) := by
  obtain ⟨d', hinputs, hx, hq, hk, hv⟩ := layerInputs_rows hl (launch l) positions d
  rw [toRows_block hl] at hq hk hv
  rw [layerBatch, InferenceEngine.CudaModel.layerBatch, hinputs, lift_ok_bind]
  simp only [hN.block l hl, ← hq, ← hk, ← hv]
  have hitems : Follows R (BatchSlot.Attended M.checkpoint.qDim positions.length [])
      (slots.foldlM (fun attn slot => do
        let new ← attend l slot.blocks slot.len slot.past (behind d'.q (slot.offset * M.checkpoint.qDim))
          (behind d'.k (slot.offset * M.checkpoint.kvDim)) (behind d'.v (slot.offset * M.checkpoint.kvDim))
          (behind attn (slot.offset * M.checkpoint.qDim))
        return written attn (slot.offset * M.checkpoint.qDim) new) d'.attn)
      (slots.foldlM (fun attn slot => do
        let rows ← rowAttend l slot.blocks slot.len slot.past
          (sliceRows (readRows M.checkpoint.qDim positions.length d'.q) slot.offset slot.len)
          (sliceRows (readRows M.checkpoint.kvDim positions.length d'.k) slot.offset slot.len)
          (sliceRows (readRows M.checkpoint.kvDim positions.length d'.v) slot.offset slot.len)
        return copyRows attn slot.offset rows) (List.replicate positions.length [])) := by
    apply Follows.foldlM_left (S := BatchSlot.Attended M.checkpoint.qDim positions.length)
    · intro slot left attn attnRows h
      obtain ⟨off, ⟨hoffset, -, hrest⟩, -⟩ := h.2
      have hend : slot.offset + slot.len ≤ positions.length := hoffset ▸ hrest.le
      rw [← readRows_behind _ _ _ _ _ hend, ← readRows_behind _ _ _ _ _ hend, ← readRows_behind _ _ _ _ _ hend]
      apply (hattend l hl slot.blocks slot.len slot.past _ _ _ _).bind
      intro new rows hrows
      subst hrows
      apply follows_pure
      apply h.step (length_readRows _ _ _)
      · intro r hle hlt
        rw [readRow_written, if_pos hle, getD_readRows (by omega)]
      · intro r hr
        rw [readRow_written, if_neg (by omega)]
    · exact BatchSlot.attended_start htile _
  apply hitems.bind
  intro attn attnRows hattn
  obtain ⟨d'', houtput, hfinish⟩ := layerOutput_rows hl (launch l) positions.length { d' with attn }
  have hrows : readRows M.checkpoint.qDim positions.length attn = attnRows := hattn.readRows
  rw [toRows_block hl] at hfinish
  dsimp only at hfinish
  rw [houtput]
  apply follows_pure
  rw [hfinish, hx, hrows]

theorem gatherLast_rows {slots : List BatchSlot} {total : Nat} (htile : BatchSlot.Tile slots 0 total)
    (normed last : Nat → K) :
    readRows M.checkpoint.hiddenSize slots.length (M.gatherLast slots normed last) =
      slots.map fun slot =>
        (readRows M.checkpoint.hiddenSize total normed).getD (slot.offset + slot.len - 1) [] := by
  apply List.ext_getElem
  · rw [length_readRows, List.length_map]
  · intro r hr hr'
    rw [List.length_map] at hr'
    obtain ⟨hpos, hend⟩ := htile.mem (List.getElem_mem hr')
    have hrow : readRow M.checkpoint.hiddenSize (M.gatherLast slots normed last) r =
        readRow M.checkpoint.hiddenSize normed (slots[r].offset + slots[r].len - 1) := by
      apply List.map_congr_left
      intro e he
      exact Loop.foldl_zipIdx_storeRange (fun (slot : BatchSlot) =>
        behind normed ((slot.offset + slot.len - 1) * M.checkpoint.hiddenSize)) slots (List.getElem?_eq_getElem hr')
          (List.mem_range.mp he) last
    rw [List.getElem_map, getD_readRows (by omega), ← hrow]
    simp only [readRows, List.getElem_map, List.getElem_range]

omit [Field K] [LinearOrder K] in
/-- The items of a batch, none of them empty, lie one after another. -/
theorem tile_layoutFrom (pasts : List Nat) {lists : List (List Int)} (hne : [] ∉ lists) (i total : Nat) :
    BatchSlot.Tile (InferenceEngine.CudaModel.layoutFrom pasts lists i total) total (total + lists.flatten.length) := by
  induction lists generalizing i total with
  | nil => exact (Nat.add_zero total).symm
  | cons tokens lists ih =>
    rw [List.mem_cons, not_or] at hne
    rw [List.flatten_cons, List.length_append, ← Nat.add_assoc]
    exact ⟨rfl, List.length_pos_iff.mpr (Ne.symm hne.1), ih hne.2 (i + 1) (total + tokens.length)⟩

omit [Field K] [LinearOrder K] in
theorem length_positions (pasts : List Nat) (lists : List (List Int)) (i total : Nat) :
    ((InferenceEngine.CudaModel.layoutFrom pasts lists i total).flatMap fun slot =>
      (List.range slot.len).map (slot.past + ·)).length = lists.flatten.length := by
  induction lists generalizing i total with
  | nil => rfl
  | cons tokens lists ih =>
    rw [InferenceEngine.CudaModel.layoutFrom, List.flatMap_cons, List.length_append, List.length_map,
      List.length_range, ih, List.flatten_cons, List.length_append]

theorem any_isEmpty {lists : List (List Int)} : lists.any List.isEmpty = true ↔ [] ∈ lists := by
  simp

/-- **The batched forward** on device buffers does to the rows what the model of rows does. -/
theorem follows_forwardBatchDevice (hN : RowsOf M N) (hattend : AttendsAs M R attend rowAttend) (run : BatchRun K)
    (lists : List (List Int)) (pasts : List Nat) :
    Follows R (fun logits rows => readRows M.checkpoint.config.vocabSize lists.length logits = rows)
      (M.forwardBatchDevice run attend lists pasts) (N.forwardBatchDevice rowAttend lists pasts) := by
  rw [forwardBatchDevice, InferenceEngine.CudaModel.forwardBatchDevice]
  split
  · intro s t _ b t' hb
    cases hb
  split
  · next hany =>
    rw [if_pos (any_isEmpty.mp hany)]
    intro s t _ b t' hb
    cases hb
  next hany =>
  have hnil : [] ∉ lists := mt any_isEmpty.mpr hany
  rw [if_neg hnil]
  dsimp only
  have htile := tile_layoutFrom pasts hnil 0 0
  have hpositions := length_positions pasts lists 0 0
  rw [Nat.zero_add, ← hpositions] at htile
  have hcount : (InferenceEngine.CudaModel.layoutFrom pasts lists 0 0).length = lists.length :=
    InferenceEngine.CudaModel.length_layoutFrom pasts lists 0 0
  have hembed : N.decoder.embed = fun id =>
      readRow M.checkpoint.hiddenSize (M.checkpoint.tensor "model.embed_tokens.weight").cell id.toNat :=
    hN.embed.trans (funext fun id => Checkpoint.host_embed id)
  have hx := CudaKernels.rows_embedding run.embedding (M.checkpoint.tensor "model.embed_tokens.weight") lists.flatten
    run.arrays.x M.checkpoint.hiddenSize
  rw [weight_tensor M.checkpoint.embed, lift_ok_bind, hembed, ← hx, ← hpositions, hN.config, hN.finalNorm, hN.lmHead]
  generalize hslots : InferenceEngine.CudaModel.layoutFrom pasts lists 0 0 = slots at *
  generalize hlist : (slots.flatMap fun slot => (List.range slot.len).map (slot.past + ·)) = positions at *
  generalize CudaKernels.embedding run.embedding _ _ run.arrays.x positions.length _ = x
  have hloop : Follows R (fun d rows => readRows M.checkpoint.hiddenSize positions.length d.x = rows)
      ((List.range M.checkpoint.config.numHiddenLayers).foldlM (M.layerBatch attend run.layer slots positions)
        { run.arrays with x })
      ((List.range M.checkpoint.config.numHiddenLayers).foldlM (N.layerBatch rowAttend slots positions)
        (readRows M.checkpoint.hiddenSize positions.length x)) := by
    apply Follows.foldlM
    · intro d rows hd l hl
      subst hd
      exact follows_layerBatch hN hattend (List.mem_range.mp hl) run.layer htile d
    · rfl
  apply hloop.bind
  intro d rows hd
  subst hd
  rw [weight_tensor M.checkpoint.norm, lift_ok_bind]
  apply follows_pure
  have hhead : (M.checkpoint.weights "lm_head.weight").getD (M.checkpoint.tensor "model.embed_tokens.weight") =
      M.checkpoint.headTensor := rfl
  rw [hhead, CudaKernels.rows_linear_none _ _ _ _ Checkpoint.headTensor_shape M.checkpoint.hiddenSize_pos, ← hcount,
    gatherLast_rows htile, CudaKernels.rows_rmsNorm]
  rfl

end Rows

end CudaModel

end Device

end InferenceEngine
