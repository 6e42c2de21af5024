import InferenceEngine.Model.BatchRun
import InferenceEngine.Model.HostBlocks

/-!
# The batched forward on tensors

`Model::forward_batch` of `model.cpp` on whole tensors and a block manager with flat vectors. It returns what the
model of rows returns, row by row, and leaves the same rows in the pool, so that any run of batches gives the
last logits of `forward` on everything a sequence was fed.
-/

namespace InferenceEngine

open Exec
open Nn (linearRow rmsNormRow)

/-- Slots that lie one after another from `off` to `total`. -/
def BatchSlot.Tile : List BatchSlot → Nat → Nat → Prop
  | [], off, total => off = total
  | slot :: slots, off, total => slot.offset = off ∧ 0 < slot.len ∧ Tile slots (off + slot.len) total

namespace BatchSlot

theorem Tile.le {slots : List BatchSlot} {off total : Nat} (h : Tile slots off total) : off ≤ total := by
  induction slots generalizing off with
  | nil => exact Nat.le_of_eq h
  | cons slot slots ih => exact (Nat.le_add_right _ _).trans (ih h.2.2)

theorem Tile.mem {slots : List BatchSlot} {off total : Nat} (h : Tile slots off total) {slot : BatchSlot}
    (hslot : slot ∈ slots) : 0 < slot.len ∧ slot.offset + slot.len ≤ total := by
  induction slots generalizing off with
  | nil => exact absurd hslot List.not_mem_nil
  | cons first slots ih =>
    obtain ⟨hoffset, hlen, hrest⟩ := h
    obtain heq | hmem := List.mem_cons.mp hslot
    · rw [heq, hoffset]
      exact ⟨hlen, hrest.le⟩
    · exact ih hrest hmem

end BatchSlot

/-- The layout has a position for every token, and a slot for every item. -/
theorem Model.wp_layoutItems_tile {K : Type} {c : PoolSizes} (items : List BatchItem) (total : Nat) (p : Pool K) :
    wp (layoutItems c items total)
      (fun out _ => BatchSlot.Tile out.1 total (total + out.2.2.length) ∧ out.2.1.length = out.2.2.length)
      (fun _ _ => True) p := by
  induction items generalizing total p with
  | nil => exact ⟨rfl, rfl⟩
  | cons item items ih =>
    rw [layoutItems]
    split
    · trivial
    · split
      · trivial
      · next hne =>
        simp only [wp_bind, wp_get]
        apply wp_mono (wp_true _) ?_ fun _ _ _ => trivial
        intro _ p' _
        apply wp_mono (ih (total + item.tokens.length) p') ?_ fun _ _ _ => trivial
        intro out p'' hout
        obtain ⟨slots, ids, positions⟩ := out
        obtain ⟨htile, hlen⟩ := hout
        simp only [wp_pure, List.length_append, List.length_map, List.length_range]
        refine ⟨⟨rfl, List.length_pos_iff.mpr hne, ?_⟩, congrArg (item.tokens.length + ·) hlen⟩
        rw [← Nat.add_assoc]
        exact htile

theorem getD_copyRows {R : Type} {dst src : List R} {off : Nat} (hoff : off + src.length ≤ dst.length) (r : Nat)
    (d : R) :
    (copyRows dst off src).getD r d =
      if off ≤ r ∧ r < off + src.length then src.getD (r - off) d else dst.getD r d := by
  have htake : (dst.take off).length = off := List.length_take_of_le ((Nat.le_add_right _ _).trans hoff)
  rw [copyRows, List.getD_eq_getElem?_getD, List.getD_eq_getElem?_getD, List.getD_eq_getElem?_getD]
  split
  · next hr =>
    rw [List.append_assoc, List.getElem?_append_right (htake.trans_le hr.1), htake,
      List.getElem?_append_left (by omega)]
  · next hr =>
    by_cases hlt : r < off
    · rw [List.append_assoc, List.getElem?_append_left (hlt.trans_eq htake.symm), List.getElem?_take_of_lt hlt]
    · have hge : off + src.length ≤ r := by omega
      rw [List.getElem?_append_right (by rw [List.length_append, htake]; exact hge), List.getElem?_drop,
        List.length_append, htake, Nat.add_sub_cancel' hge]

namespace BatchSlot

variable {K : Type} {width total : Nat} {slot : BatchSlot} {left : List BatchSlot} {attn attn' : Nat → K}
  {rows : Rows K}

/-- The rows of attention of the items done are those of the buffer; the items left fill the rest. -/
def Attended (width total : Nat) (left : List BatchSlot) (attn : Nat → K) (rows : Rows K) : Prop :=
  rows.length = total ∧ ∃ off, Tile left off total ∧ ∀ r < off, rows.getD r [] = readRow width attn r

theorem attended_start (htile : Tile left 0 total) (attn : Nat → K) :
    Attended width total left attn (List.replicate total []) :=
  ⟨List.length_replicate, 0, htile, fun r hr => absurd hr (Nat.not_lt_zero r)⟩

/-- The rows of one more item. -/
theorem Attended.step (h : Attended width total (slot :: left) attn rows) {new : Rows K} (hlen : new.length = slot.len)
    (hnew : ∀ r, slot.offset ≤ r → r < slot.offset + slot.len →
      readRow width attn' r = new.getD (r - slot.offset) [])
    (hold : ∀ r < slot.offset, readRow width attn' r = readRow width attn r) :
    Attended width total left attn' (copyRows rows slot.offset new) := by
  obtain ⟨hrows, off, ⟨hoffset, -, htile⟩, hread⟩ := h
  subst hoffset
  have hend := htile.le
  have hfit : slot.offset + new.length ≤ rows.length := by omega
  refine ⟨(Model.length_copyRows hfit).trans hrows, slot.offset + slot.len, htile, fun r hr => ?_⟩
  rw [getD_copyRows hfit, hlen]
  by_cases hin : slot.offset ≤ r
  · rw [if_pos ⟨hin, hr⟩, hnew r hin hr]
  · rw [if_neg (fun h => hin h.1), hold r (by omega), hread r (by omega)]

theorem Attended.readRows (h : Attended width total [] attn rows) : readRows width total attn = rows := by
  obtain ⟨hlen, off, htile, hread⟩ := h
  have htotal : off = total := htile
  apply List.ext_getElem
  · rw [length_readRows, hlen]
  · intro r hr hr'
    have hrow := hread r (by omega)
    rw [List.getD_eq_getElem _ _ hr'] at hrow
    simp only [InferenceEngine.readRows, List.getElem_map, List.getElem_range]
    exact hrow.symm

end BatchSlot

namespace Nn.Tensor.HasRows

variable {K : Type} [Zero K] {t : Nn.Tensor K} {width : Nat} {rows : Rows K}

theorem readRow_from (h : t.HasRows width rows) {off r : Nat}
    (hr : off + r < rows.length) :
    readRow width (fun i => t.cell (off * width + i)) r = rows.getD (off + r) [] := by
  apply readRow_of_getD
  · rw [List.getD_eq_getElem _ _ hr]
    exact h.width _ (List.getElem_mem hr)
  · intro e he
    rw [← Nat.add_assoc, ← Nat.add_mul]
    exact h.getD_eq hr he

theorem readRows_from (h : t.HasRows width rows) {off n : Nat}
    (hn : off + n ≤ rows.length) :
    readRows width n (fun i => t.cell (off * width + i)) = sliceRows rows off n := by
  apply List.ext_getElem
  · rw [length_readRows, sliceRows, List.length_take, List.length_drop]
    omega
  · intro r hr hr'
    rw [length_readRows] at hr
    have hlt : off + r < rows.length := by omega
    have hrow := h.readRow_from hlt
    rw [List.getD_eq_getElem _ _ (by omega)] at hrow
    simp only [readRows, sliceRows, List.getElem_map, List.getElem_range, List.getElem_take, List.getElem_drop]
    exact hrow

end Nn.Tensor.HasRows

namespace Host

namespace Model

variable {K : Type} [Field K] [LinearOrder K] (M : Model K) (c : PoolSizes)

def attendItem (l : Nat) (q k v : Nn.Tensor K) (attn : Nat → K) (slot : BatchSlot) :
    EStateM Error (BlockManager K) (Nat → K) := do
  let config := M.checkpoint.config
  let nqDim := config.numAttentionHeads * config.headDim
  let nkvDim := config.numKeyValueHeads * config.headDim
  modify fun m => m.write c slot.blocks l slot.past (fun i => k.cell (slot.offset * nkvDim + i))
    (fun i => v.cell (slot.offset * nkvDim + i)) slot.len
  let m ← get
  let total := slot.past + slot.len
  let kAll := m.gatherKeys c slot.blocks l total
  let vAll := m.gatherValues c slot.blocks l total
  let qSlice := Nn.Tensor.ofCells [slot.len, nqDim] fun i => q.cell (slot.offset * nqDim + i)
  let attnSlice ← lift (attention M.math qSlice kAll vAll config.numAttentionHeads config.numKeyValueHeads
    config.headDim slot.past)
  return Loop.storeRange (slot.offset * nqDim) (slot.len * nqDim) attnSlice.cell attn

def layerBatch (slots : List BatchSlot) (positions : List Nat) (x : Nn.Tensor K) (l : Nat) :
    EStateM Error (BlockManager K) (Nn.Tensor K) := do
  let config := M.checkpoint.config
  let (q, k, v) ← lift (M.layerInputs l positions x)
  let attn ← slots.foldlM (M.attendItem c l q k v) fun _ => 0
  lift (M.layerOutput l x (.ofCells [positions.length, config.numAttentionHeads * config.headDim] attn))

def lastHidden (slots : List BatchSlot) (normed : Nn.Tensor K) : Nn.Tensor K :=
  let h := M.checkpoint.hiddenSize
  .ofCells [slots.length, h] <| slots.zipIdx.foldl (fun out (slot, i) =>
    let lastRow := slot.offset + slot.len - 1
    Loop.storeRange (i * h) h (fun j => normed.cell (lastRow * h + j)) out) fun _ => 0

/-- `forward_batch`: the logits of the last token of every item. -/
def forwardBatch (items : List BatchItem) : EStateM Error (BlockManager K) (Nn.Tensor K) := do
  if items = [] then
    throw (.invalidArgument "forward_batch: empty batch")
  let (slots, allIds, positions) ← BlockManager.onBlocks c (InferenceEngine.Model.layoutItems c items 0)
  let embed ← lift (M.get "model.embed_tokens.weight")
  let x ← lift (embedding embed allIds)
  let x ← (List.range M.checkpoint.config.numHiddenLayers).foldlM (M.layerBatch c slots positions) x
  forM slots fun slot => modify fun m => m.commit slot.blocks slot.len
  let norm ← lift (M.get "model.norm.weight")
  let normed ← lift (rmsNorm M.math x norm M.checkpoint.config.rmsNormEps)
  let lmHead := (M.checkpoint.weights "lm_head.weight").getD embed
  lift (Nn.linear (M.lastHidden slots normed) lmHead .empty)

/-! ### Row by row -/

section Rows

variable {M c} {x : Nn.Tensor K} {rows : Rows K} {l : Nat}

theorem follows_attendItem (hkv : c.kvDim = M.checkpoint.kvDim) {total : Nat} {q k v : Nn.Tensor K}
    {qRows kRows vRows : Rows K} (hq : q.HasRows M.checkpoint.qDim qRows) (hk : k.HasRows M.checkpoint.kvDim kRows)
    (hv : v.HasRows M.checkpoint.kvDim vRows) (hqn : qRows.length = total) (hkn : kRows.length = total)
    (hvn : vRows.length = total) {slot : BatchSlot} {left : List BatchSlot} {attn : Nat → K}
    (h : BatchSlot.Attended M.checkpoint.qDim total (slot :: left) attn rows) :
    Follows (fun m p => BlockManager.rows c m = p) (BatchSlot.Attended M.checkpoint.qDim total left)
      (M.attendItem c l q k v attn slot) ((M.checkpoint.host M.math).attendItem c l qRows kRows vRows rows slot) := by
  obtain ⟨off, ⟨hoffset, -, htile⟩, -⟩ := h.2
  subst hoffset
  have hend := htile.le
  have hfrom : ∀ {t : Nn.Tensor K} {src : Rows K}, t.HasRows M.checkpoint.kvDim src → src.length = total →
      ∀ r < slot.len, readRow c.kvDim (fun i => t.cell (slot.offset * M.checkpoint.kvDim + i)) r =
        (src.drop slot.offset).getD r [] := by
    intro t src ht hsrc r hr
    rw [hkv, ht.readRow_from (by omega), List.getD_eq_getElem?_getD, List.getD_eq_getElem?_getD, List.getElem?_drop]
  have hslice : (Nn.Tensor.ofCells [slot.len, M.checkpoint.qDim] fun i =>
      q.cell (slot.offset * M.checkpoint.qDim + i)).HasRows M.checkpoint.qDim (sliceRows qRows slot.offset slot.len) :=
    Nn.Tensor.hasRows_ofCells (hq.readRows_from (by omega))
  have hsliceLen : (sliceRows qRows slot.offset slot.len).length = slot.len := by
    rw [sliceRows, List.length_take, List.length_drop]
    omega
  rw [attendItem, InferenceEngine.Model.attendItem]
  have hwrite : ∀ (m : BlockManager K) (p : Pool K), BlockManager.rows c m = p →
      BlockManager.rows c (m.write c slot.blocks l slot.past
          (fun i => k.cell (slot.offset * M.checkpoint.kvDim + i))
          (fun i => v.cell (slot.offset * M.checkpoint.kvDim + i)) slot.len) =
        p.write c slot.blocks l slot.past (kRows.drop slot.offset) (vRows.drop slot.offset) slot.len := by
    intro m p hm
    rw [← hm]
    exact BlockManager.rows_write _ _ _ (hfrom hk hkn) (hfrom hv hvn)
  apply (follows_modify hwrite).bind
  intro _ _ _
  apply follows_get.bind
  intro m p hm
  subst hm
  have hkAll : (m.gatherKeys c slot.blocks l (slot.past + slot.len)).HasRows M.checkpoint.kvDim
      ((BlockManager.rows c m).gatherKeys c slot.blocks l (slot.past + slot.len)) := by
    rw [← hkv]
    exact BlockManager.gatherOne_rows _ _ _
  have hvAll : (m.gatherValues c slot.blocks l (slot.past + slot.len)).HasRows M.checkpoint.kvDim
      ((BlockManager.rows c m).gatherValues c slot.blocks l (slot.past + slot.len)) := by
    rw [← hkv]
    exact BlockManager.gatherOne_rows _ _ _
  have hcount : ((BlockManager.rows c m).gatherValues c slot.blocks l (slot.past + slot.len)).length =
      ((BlockManager.rows c m).gatherKeys c slot.blocks l (slot.past + slot.len)).length := by
    rw [Pool.gatherValues, Pool.gatherKeys, PoolSizes.gatherOne, PoolSizes.gatherOne, List.length_map,
      List.length_map]
  apply (follows_lift (attention_yields hslice hkAll hvAll hcount)).bind
  intro attnSlice sliceRows' hattn
  obtain ⟨hattnRows, hattnLen⟩ := hattn
  rw [hsliceLen] at hattnLen
  apply follows_pure
  apply h.step hattnLen
  · intro r hle hlt
    refine (readRow_storeRange _ _ _ _ _ _).trans ?_
    rw [if_pos ⟨hle, hlt⟩]
    have hrow : 0 + (r - slot.offset) < sliceRows'.length := by omega
    have hfrom := hattnRows.readRow_from hrow
    simp only [Nat.zero_mul, Nat.zero_add] at hfrom
    exact hfrom
  · intro r hr
    refine (readRow_storeRange _ _ _ _ _ _).trans ?_
    rw [if_neg (by omega)]

theorem forward_last {ids : List Int} (hne : ids ≠ [])
    (hvocab : ∀ t ∈ ids, 0 ≤ t ∧ t < M.checkpoint.config.vocabSize) :
    ∃ whole, M.forward ids = .ok whole ∧ whole.shape = [ids.length, M.checkpoint.config.vocabSize] ∧
      ∀ j < M.checkpoint.config.vocabSize, whole.cell ((ids.length - 1) * M.checkpoint.config.vocabSize + j) =
        (((M.checkpoint.host M.math).logits ids).getLastD []).getD j 0 := by
  obtain ⟨whole, hwhole, hrows⟩ := forward_rows (InferenceEngine.Model.forward_eq Checkpoint.host_complete hne
    fun t ht => Checkpoint.host_inVocab.mpr (hvocab t ht))
  have hlength : ((M.checkpoint.host M.math).logits ids).length = ids.length :=
    InferenceEngine.Model.length_logits _ _
  have hpos := List.length_pos_iff.mpr hne
  refine ⟨whole, hwhole, ?_, fun j hj => ?_⟩
  · rw [hrows.shape, hlength]
  · rw [hrows.getD_eq (by omega) hj, List.getLastD_eq_getLast?, List.getLast?_eq_getElem?,
      ← List.getD_eq_getElem?_getD, hlength]

/-- A row of `out` is the last row of the forward pass over `ids`. -/
def LastRow (M : Model K) (ids : List Int) (out : Nn.Tensor K) (i : Nat) : Prop :=
  ∃ whole, M.forward ids = .ok whole ∧ whole.shape = [ids.length, M.checkpoint.config.vocabSize] ∧
    ∀ j < M.checkpoint.config.vocabSize, out.cell (i * M.checkpoint.config.vocabSize + j) =
      whole.cell ((ids.length - 1) * M.checkpoint.config.vocabSize + j)

theorem lastRow_of_hasRows {A : Type} {items : List A} {ids : A → List Int} {out : Nn.Tensor K}
    (hout : out.HasRows M.checkpoint.config.vocabSize
      (items.map fun a => ((M.checkpoint.host M.math).logits (ids a)).getLastD []))
    {i : Nat} {a : A} (ha : items[i]? = some a) (hne : ids a ≠ [])
    (hvocab : ∀ t ∈ ids a, 0 ≤ t ∧ t < M.checkpoint.config.vocabSize) : M.LastRow (ids a) out i := by
  obtain ⟨whole, hwhole, hshape, hlast⟩ := forward_last hne hvocab
  refine ⟨whole, hwhole, hshape, fun j hj => ?_⟩
  have hi : i < (items.map fun a => ((M.checkpoint.host M.math).logits (ids a)).getLastD []).length := by
    rw [List.length_map]
    exact (List.getElem?_eq_some_iff.mp ha).1
  have hrow : (items.map fun a => ((M.checkpoint.host M.math).logits (ids a)).getLastD []).getD i [] =
      ((M.checkpoint.host M.math).logits (ids a)).getLastD [] := by
    rw [List.getD_eq_getElem?_getD, List.getElem?_map, ha, Option.map_some, Option.getD_some]
  rw [hlast j hj, hout.getD_eq hi hj, hrow]

/-- A layer returns the rows that the layer of rows returns, over the same pool. -/
theorem follows_layerBatch (hkv : c.kvDim = M.checkpoint.kvDim) (hl : l < M.checkpoint.config.numHiddenLayers)
    {slots : List BatchSlot} {positions : List Nat} (htile : BatchSlot.Tile slots 0 positions.length)
    (hx : x.HasRows M.checkpoint.hiddenSize rows) (hlen : positions.length = rows.length) :
    Follows (fun m p => BlockManager.rows c m = p)
      (fun t rows' => t.HasRows M.checkpoint.hiddenSize rows' ∧ positions.length = rows'.length)
      (M.layerBatch c slots positions x l) ((M.checkpoint.host M.math).layerBatch c slots positions rows l) := by
  have hblock := Checkpoint.host_block (F := M.math) hl
  have hcount : ∀ f : Nat → Row K → Row K, (List.zipWith f positions rows).length = positions.length := by
    intro f
    rw [List.length_zipWith, hlen, Nat.min_self]
  obtain ⟨q, k, v, hinputs, hq, hk, hv⟩ := layerInputs_rows hl hx hlen
  obtain ⟨_, _, _, -, hfinish, -⟩ := InferenceEngine.Model.block_ok hblock
  rw [layerBatch, InferenceEngine.Model.layerBatch, hinputs, InferenceEngine.Model.layerInputs_eq hblock hlen,
    lift_ok_bind, lift_ok_bind]
  have hitems : Follows (fun m p => BlockManager.rows c m = p)
      (BatchSlot.Attended M.checkpoint.qDim positions.length [])
      (slots.foldlM (M.attendItem c l q k v) fun _ => 0)
      (slots.foldlM ((M.checkpoint.host M.math).attendItem c l
        (List.zipWith (M.checkpoint.block M.math l).query positions rows)
        (List.zipWith (M.checkpoint.block M.math l).key positions rows)
        (List.zipWith (M.checkpoint.block M.math l).value positions rows)) (List.replicate positions.length [])) := by
    apply Follows.foldlM_left (S := BatchSlot.Attended M.checkpoint.qDim positions.length)
    · intro slot left attn attnRows h
      exact follows_attendItem hkv hq hk hv (hcount _) (hcount _) (hcount _) h
    · exact BatchSlot.attended_start htile _
  apply hitems.bind
  intro attn attnRows hattn
  have hattnLen : attnRows.length = rows.length := hattn.1.trans hlen
  obtain ⟨out, hout, hrows⟩ := layerOutput_rows hl hx (Nn.Tensor.hasRows_ofCells hattn.readRows) hattnLen
  rw [InferenceEngine.Model.layerOutput_eq, hfinish]
  apply follows_lift
  intro rows' hrows'
  obtain rfl := Except.ok.inj hrows'
  refine ⟨out, hout, hrows, ?_⟩
  rw [List.length_zipWith, hattnLen, Nat.min_self, hlen]

theorem lastHidden_rows {slots : List BatchSlot} {total : Nat} (htile : BatchSlot.Tile slots 0 total)
    (hx : x.HasRows M.checkpoint.hiddenSize rows) (hlen : rows.length = total) :
    (M.lastHidden slots x).HasRows M.checkpoint.hiddenSize
      (slots.map fun slot => rows.getD (slot.offset + slot.len - 1) []) := by
  have hmap : (slots.map fun slot => rows.getD (slot.offset + slot.len - 1) []).length = slots.length :=
    List.length_map _
  apply Nn.Tensor.hasRows_ofCells
  apply List.ext_getElem
  · rw [length_readRows, hmap]
  · intro r hr hr'
    rw [hmap] at hr'
    obtain ⟨hpos, hend⟩ := htile.mem (List.getElem_mem hr')
    have hlast : slots[r].offset + slots[r].len - 1 < rows.length := by omega
    simp only [readRows, List.getElem_map, List.getElem_range]
    apply readRow_of_getD
    · rw [List.getD_eq_getElem _ _ hlast]
      exact hx.width _ (List.getElem_mem hlast)
    · intro e he
      rw [← hx.getD_eq hlast he]
      exact Loop.foldl_zipIdx_storeRange (fun (slot : BatchSlot) j =>
        x.cell ((slot.offset + slot.len - 1) * M.checkpoint.hiddenSize + j)) slots (List.getElem?_eq_getElem hr') he _

omit [Field K] [LinearOrder K] in
theorem follows_commits (slots : List BatchSlot) :
    Follows (fun m p => BlockManager.rows c m = p) Eq
      (forM slots fun slot => modify fun m => m.commit slot.blocks slot.len : EStateM Error (BlockManager K) PUnit)
      (forM slots fun slot => modify fun p => p.commit slot.blocks slot.len : EStateM Error (Pool K) PUnit) := by
  apply Follows.forM
  intro slot
  apply follows_modify
  intro m p h
  rw [BlockManager.rows_commit, h]

/-- **The batched forward** returns the rows that the model of rows returns, over the same pool. -/
theorem follows_forwardBatch (hkv : c.kvDim = M.checkpoint.kvDim) (items : List BatchItem) :
    Follows (fun m p => BlockManager.rows c m = p) (fun t rows => t.HasRows M.checkpoint.config.vocabSize rows)
      (M.forwardBatch c items) ((M.checkpoint.host M.math).forwardBatch c items) := by
  have hembed := (Checkpoint.found M.checkpoint.embed).1
  have hnorm := (Checkpoint.found M.checkpoint.norm).1
  have hfirst : (M.checkpoint.host M.math).get "model.embed_tokens.weight" =
      .ok (M.checkpoint.tensor "model.embed_tokens.weight") := Checkpoint.get_tensor M.checkpoint.embed
  rw [forwardBatch, InferenceEngine.Model.forwardBatch]
  split
  · intro m p h b t hb
    cases hb
  have hlayout : Follows (fun (m : BlockManager K) p => BlockManager.rows c m = p) Eq
      (BlockManager.onBlocks c (InferenceEngine.Model.layoutItems c items 0))
      (InferenceEngine.Model.layoutItems c items 0) :=
    BlockManager.follows_onBlocks (InferenceEngine.Model.leaves_layoutItems items 0)
  apply (hlayout.strengthen (InferenceEngine.Model.wp_layoutItems_tile items 0)).bind
  intro out out' hout
  obtain ⟨heq, htile, hids⟩ := hout
  subst heq
  obtain ⟨slots, ids, positions⟩ := out
  rw [Nat.zero_add] at htile
  dsimp only at htile hids ⊢
  rw [get_tensor M.checkpoint.embed, hfirst, lift_ok_bind, lift_ok_bind]
  apply (follows_lift (embedding_yields ids)).bind
  intro x rows hx
  have hloop : Follows (fun m p => BlockManager.rows c m = p)
      (fun t rows => t.HasRows M.checkpoint.hiddenSize rows ∧ positions.length = rows.length)
      ((List.range M.checkpoint.config.numHiddenLayers).foldlM (M.layerBatch c slots positions) x)
      ((List.range M.checkpoint.config.numHiddenLayers).foldlM
        ((M.checkpoint.host M.math).layerBatch c slots positions) rows) := by
    apply Follows.foldlM
    · intro x rows hx l hl
      exact follows_layerBatch hkv (List.mem_range.mp hl) htile hx.1 hx.2
    · exact ⟨hx.1, hids.symm.trans hx.2⟩
  apply hloop.bind
  intro x rows hx
  apply (follows_commits slots).bind
  intro _ _ _
  obtain ⟨normed, hnormed, hnormedRows⟩ := rmsNorm_rows (F := M.math) hx.1 (Checkpoint.found M.checkpoint.norm).2
    M.checkpoint.config.rmsNormEps
  have hfinal := (InferenceEngine.Model.finalNorm_lmHead (M := M.checkpoint.host M.math) hembed hnorm rows).1
  have hnone : ∀ b ∈ (none : Option (Nn.Tensor K)), b.shape = [M.checkpoint.config.vocabSize] :=
    fun b hb => absurd hb (by simp)
  obtain ⟨out, hout, hlogits⟩ := linear_rows
    (lastHidden_rows htile hnormedRows ((List.length_map _).trans hx.2.symm)) Checkpoint.headTensor_shape hnone
  rw [get_tensor M.checkpoint.norm, hfinal, lift_ok_bind, lift_ok_bind, hnormed, lift_ok_bind]
  change Follows _ _ (lift (Nn.linear (M.lastHidden slots normed) M.checkpoint.headTensor .empty)) _
  rw [show Nn.linear (M.lastHidden slots normed) M.checkpoint.headTensor .empty = .ok out from hout]
  exact follows_pure hlogits

end Rows

end Model

end Host

end InferenceEngine
