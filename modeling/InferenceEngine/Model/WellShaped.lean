import InferenceEngine.Model.BatchBounds

/-!
# Models with the shapes of their configuration

Weights with the rows that the configuration says, and sizes that do not wrap, are large enough wherever a call
gets: no call leaves its buffers.
-/

namespace InferenceEngine

open Exec Checked Wrap Shapes

namespace ShapedModel

variable {M : ShapedModel} {s : Nat}

/-- The weights that nothing checks have the rows of the configuration, and nothing wraps in matrices of as many
rows as `s`. -/
structure WellShaped (M : ShapedModel) (s : Nat) : Prop where
  queries : M.numAttentionHeads * M.headDim < 2 ^ 63
  keys : M.numKeyValueHeads * M.headDim < 2 ^ 63
  embed : M.dims "model.embed_tokens.weight" = [M.vocabSize, M.hiddenSize]
  value : ∀ l < M.numHiddenLayers, M.numKeyValueHeads * M.headDim ≤ M.rows (projKey l "v")
  output : ∀ l < M.numHiddenLayers, M.hiddenSize ≤ M.rows (projKey l "o")
  down : ∀ l < M.numHiddenLayers, M.hiddenSize ≤ M.rows (layerKey l "mlp.down_proj.weight")
  head : M.vocabSize ≤ M.headDims.getD 0 0
  product : ∀ name, (M.dims name).getD 0 0 * (M.dims name).getD 1 0 < 2 ^ 63
  height : ∀ name, s * (M.dims name).getD 0 0 < 2 ^ 63
  width : ∀ name, s * (M.dims name).getD 1 0 < 2 ^ 63

theorem exists_headDims (M : ShapedModel) : ∃ name, M.headDims = M.dims name := by
  rw [headDims]
  cases hhead : M.weights "lm_head.weight" with
  | none => exact ⟨_, rfl⟩
  | some head => exact ⟨"lm_head.weight", by simp only [dims, hhead, Option.elim_some]⟩

namespace WellShaped

theorem linearPath_fits (h : M.WellShaped s) {n width : Nat} (hn : n ≤ s) (name : String) (bias : Dims) :
    AllFit (linearPath n width (M.dims name) bias) := by
  intro _ hwidth _
  refine ⟨.inr ⟨?_, ?_, ?_⟩, fun _ => trivial⟩
  · rw [← hwidth]
    exact (Nat.mul_le_mul_right _ hn).trans_lt (h.width name)
  · rw [← hwidth]
    exact h.product name
  · exact (Nat.mul_le_mul_right _ hn).trans_lt (h.height name)

theorem projectPath_fits (h : M.WellShaped s) {n width : Nat} (hn : n ≤ s) (l : Nat) (name : String) :
    AllFit (M.projectPath l n width name) := by
  rw [projectPath]
  split
  · exact fun _ _ => h.linearPath_fits hn _ _
  · exact fun _ => h.linearPath_fits hn _ _

theorem inputsPath_fits (h : M.WellShaped s) {n width : Nat} (hn : n ≤ s) (l : Nat) :
    AllFit (M.inputsPath l n width) := by
  apply allFit_flatten
  simp only [List.forall_mem_cons]
  exact ⟨fun _ _ => trivial, h.projectPath_fits hn l "q", h.projectPath_fits hn l "k", h.projectPath_fits hn l "v",
    fun _ _ => ⟨h.queries, trivial⟩, fun _ _ => ⟨h.keys, trivial⟩, List.forall_mem_nil _⟩

theorem mlpPath_fits (h : M.WellShaped s) {n width : Nat} (hn : n ≤ s) (l : Nat) : AllFit (M.mlpPath l n width) := by
  apply allFit_flatten
  simp only [List.forall_mem_cons]
  exact ⟨fun _ _ => trivial, fun _ => h.linearPath_fits hn _ _, fun _ => h.linearPath_fits hn _ _, fun _ => trivial,
    fun _ => h.linearPath_fits hn _ _, List.forall_mem_nil _⟩

theorem outputPath_fits (h : M.WellShaped s) {n l : Nat} (hn : n ≤ s) (hl : l < M.numHiddenLayers) :
    AllFit (M.outputPath l n M.hiddenSize) := by
  apply allFit_flatten
  simp only [List.forall_mem_cons]
  exact ⟨fun _ => h.linearPath_fits hn _ _, ⟨h.output l hl, trivial⟩, h.mlpPath_fits hn l, ⟨h.down l hl, trivial⟩,
    List.forall_mem_nil _⟩

/-- An embedding reads whole rows of its weight. -/
theorem embeddingPath_fits (h : M.WellShaped s) {ids : List Int} (hlen : ids.length ≤ s) :
    AllFit (embeddingPath (M.dims "model.embed_tokens.weight") ids) := by
  have hproduct := h.product "model.embed_tokens.weight"
  have hwidth := (Nat.mul_le_mul_right _ hlen).trans_lt (h.width "model.embed_tokens.weight")
  have hsize := size_dims_le (M := M) "model.embed_tokens.weight"
  rw [h.embed] at *
  change M.vocabSize * M.hiddenSize < 2 ^ 63 at hproduct
  change ids.length * M.hiddenSize < 2 ^ 63 at hwidth
  rw [embeddingPath, allFit_append]
  refine ⟨fun _ _ => trivial, fun hpass => allFit_flatMap fun i hi => ?_⟩
  rintro ⟨hid, hvocab⟩
  have hi : i < ids.length := List.mem_range.mp hi
  have hout : Dims.size [ids.length, M.hiddenSize] ≤ maxSize 4 := hpass.2.1
  rw [← le_size_iff hout] at hwidth
  rw [← le_size_iff hsize] at hproduct
  have hbound := maxSize_four
  have hrow := row_le (w := M.hiddenSize) hi
  rw [List.getD_cons_succ, List.getD_cons_zero, floats_natCast (by omega)]
  obtain ⟨token, htoken⟩ := Int.eq_ofNat_of_zero_le hid
  rw [htoken] at hvocab ⊢
  have hrows := (rows_inBuffer_iff (by omega)).mpr hproduct token (Int.ofNat_lt.mp hvocab)
  rw [Int.natCast_mul] at hrows
  exact ⟨⟨(rows_inBuffer_iff (by omega)).mpr hwidth i hi, hrows⟩, trivial⟩

theorem cachedPath_fits (h : M.WellShaped s) {n l : Nat} (hl : l < M.numHiddenLayers) : AllFit (M.cachedPath l n) :=
  ⟨h.value l hl, fun _ _ _ => trivial⟩

theorem forwardPath_fits (h : M.WellShaped s) {ids : List Int} (hlen : ids.length ≤ s) :
    AllFit (M.forwardPath ids) := by
  obtain ⟨head, hhead⟩ := M.exists_headDims
  apply allFit_flatten
  simp only [List.forall_mem_cons]
  refine ⟨fun _ _ _ _ => trivial, h.embeddingPath_fits hlen, allFit_flatMap fun l hl => allFit_flatten ?_,
    fun _ _ => trivial, hhead ▸ h.linearPath_fits hlen head [], List.forall_mem_nil _⟩
  have hl : l < M.numHiddenLayers := List.mem_range.mp hl
  rw [h.embed]
  simp only [List.forall_mem_cons]
  exact ⟨h.inputsPath_fits hlen l, h.cachedPath_fits hl, h.outputPath_fits hlen hl, List.forall_mem_nil _⟩

/-- **A well-shaped model** is safe on every sequence. -/
theorem safe_forward (h : M.WellShaped s) {ids : List Int} (hlen : ids.length ≤ s) : Safe (M.forward ids) :=
  (staged_forward ids).safe.mpr (h.forwardPath_fits hlen)

/-! ### Batches -/

variable {c : PoolSizes}

theorem slotPath_fits (h : M.WellShaped s) {l total : Nat} {table : List Nat} {slot : BatchSlot}
    (hl : l < M.numHiddenLayers) (hslot : slot.offset + slot.len ≤ total) (hrows : slot.past + slot.len < 2 ^ 63)
    (hexact : (slot.past + slot.len) * (M.numKeyValueHeads * M.headDim) < 2 ^ 63)
    (hfits : ∀ r < slot.past + slot.len, c.RowFits table (r : Nat)) : AllFit (M.slotPath c l total table slot) := by
  refine ⟨fun r hr => ?_, ?_, fun _ _ => ⟨⟨hexact, hfits⟩, fun _ _ _ => trivial⟩⟩
  · rw [int64_natCast (by omega)]
    exact hfits _ (Nat.add_lt_add_left hr _)
  · exact (Nat.mul_le_mul_right _ hslot).trans (Nat.mul_le_mul_left _ (h.value l hl))

theorem copyLastPath_fits {total count k : Nat} {slot : BatchSlot} (hk : k < count) (hlen : 0 < slot.len)
    (hslot : slot.offset + slot.len ≤ total) (htotal : total * M.hiddenSize < 2 ^ 63)
    (hcount : count * M.hiddenSize < 2 ^ 63) (hsize : Dims.size [count, M.hiddenSize] ≤ maxSize 4) :
    AllFit (M.copyLastPath total M.hiddenSize count (slot, k)) := by
  rw [← le_size_iff hsize] at hcount
  have hbound := maxSize_four
  have hrow := row_le (w := M.hiddenSize) hk
  have hlast := row_le (w := M.hiddenSize) (by omega : slot.offset + slot.len - 1 < total)
  rw [copyLastPath, floats_natCast (by omega)]
  dsimp only
  refine ⟨⟨(rows_inBuffer_iff (by omega)).mpr hcount k hk, ?_⟩, trivial⟩
  rw [int64_natCast (by omega), inBuffer_natCast]
  exact .inr hlast

theorem batchLogitsPath_fits (h : M.WellShaped s) {table : Nat → List Nat} {slots : List BatchSlot} {allIds : List Int}
    (hlen : allIds.length ≤ s) (hcount : slots.length ≤ s) (hslots : Spread allIds.length slots)
    (hexact : ∀ slot ∈ slots, (slot.past + slot.len) * (M.numKeyValueHeads * M.headDim) < 2 ^ 63)
    (hrows : ∀ slot ∈ slots, slot.past + slot.len < 2 ^ 63)
    (hfits : ∀ slot ∈ slots, ∀ r < slot.past + slot.len, c.RowFits (table slot.blocks) (r : Nat)) :
    AllFit (M.batchLogitsPath c table slots allIds) := by
  obtain ⟨head, hhead⟩ := M.exists_headDims
  have hwidth := h.width "model.embed_tokens.weight"
  rw [h.embed] at hwidth
  rw [batchLogitsPath, h.embed]
  apply allFit_flatten
  simp only [List.forall_mem_cons]
  refine ⟨fun _ => trivial, h.embed ▸ h.embeddingPath_fits hlen, allFit_flatMap fun l hl => allFit_flatten ?_,
    fun _ _ => trivial, fun hsize => allFit_flatMap fun slot hmem => ?_, ?_, List.forall_mem_nil _⟩
  · have hl : l < M.numHiddenLayers := List.mem_range.mp hl
    simp only [List.forall_mem_cons]
    refine ⟨h.inputsPath_fits hlen l, allFit_flatMap fun slot hmem => ?_, h.outputPath_fits hlen hl,
      List.forall_mem_nil _⟩
    exact h.slotPath_fits hl (hslots slot hmem).2 (hrows slot hmem) (hexact slot hmem) (hfits slot hmem)
  · obtain ⟨slot, k⟩ := slot
    have hslot := hslots slot (List.fst_mem_of_mem_zipIdx hmem)
    have htotal := (Nat.mul_le_mul_right M.hiddenSize hlen).trans_lt hwidth
    have hlast := (Nat.mul_le_mul_right M.hiddenSize hcount).trans_lt hwidth
    exact copyLastPath_fits (List.mem_zipIdx' hmem).1 hslot.1 hslot.2 htotal hlast hsize
  · exact hhead ▸ h.linearPath_fits hcount head []

/-- **Well-shaped models with blocks in 64 bits** are safe on every batch whose rows and blocks do not wrap. -/
theorem safe_sampledBatch {K : Type} [Zero K] (h : M.WellShaped s) (hbuilt : M.Built c)
    (hstore : c.numBlocks * c.blockSize * c.kvDim < 2 ^ 63) {n : Nat} {p : Pool K}
    (hp : (Pool.machine64 c).Reachable (fun _ op => op.On n) p) {items : List BatchItem}
    (hids : ∀ f ∈ itemFeeds items, f.1 < n) (hlen : ((itemFeeds items).flatMap Prod.snd).length ≤ s)
    (hrows : ∀ f ∈ itemFeeds items, ((p.seqs f.1).length + f.2.length + c.blockSize) * c.kvDim < 2 ^ 63) :
    Safe (M.sampledBatch c p items) := by
  have hcounted := Pool.counted_reachable64 hp
  have hwidth : M.numKeyValueHeads * M.headDim = c.kvDim := by
    have hkv := hbuilt.kvDim
    rw [kvDim, int64_natCast h.keys] at hkv
    exact (Int.ofNat.inj hkv).symm
  rw [(staged_sampledBatch hcounted hbuilt.numLayers hbuilt.kvDim hids).safe, sampledPath, allFit_append]
  refine ⟨?_, fun _ => ⟨h.head, trivial⟩⟩
  intro _ _ hsuffice
  have hslot : ∀ slot ∈ Model.slotsFrom (fun i => (p.seqs i).length) (itemFeeds items) 0,
      (slot.past + slot.len + c.blockSize) * c.kvDim < 2 ^ 63 := by
    intro slot hmem
    obtain ⟨f, hf, -, hlen, hpast⟩ := Model.mem_slotsFrom hmem
    rw [hlen, hpast]
    exact hrows f hf
  have hle : ∀ slot ∈ Model.slotsFrom (fun i => (p.seqs i).length) (itemFeeds items) 0,
      slot.past + slot.len + c.blockSize < 2 ^ 63 := fun slot hmem =>
    (Nat.le_mul_of_pos_right _ c.kvDim_pos).trans_lt (hslot slot hmem)
  apply h.batchLogitsPath_fits hlen ?_ (spread_of_suffice hsuffice)
  · intro slot hmem
    rw [hwidth]
    exact (Nat.mul_le_mul_right _ (Nat.le_add_right _ _)).trans_lt (hslot slot hmem)
  · exact fun slot hmem => (Nat.le_add_right _ _).trans_lt (hle slot hmem)
  · exact fun slot hmem r hr => hcounted.rowFits hstore hsuffice hmem (hle slot hmem).le hr
  · rw [length_slotsFrom]
    refine le_trans ?_ hlen
    rw [List.length_flatMap]
    have hcount := List.length_le_sum_of_one_le ((itemFeeds items).map fun f => f.2.length) ?_
    · rwa [List.length_map] at hcount
    · intro k hk
      obtain ⟨f, hf, rfl⟩ := List.mem_map.mp hk
      exact List.length_pos_iff.mpr (hsuffice.feeds.2 f hf)

end WellShaped

end ShapedModel

end InferenceEngine
