import InferenceEngine.Cuda.DeviceModel
import InferenceEngine.Cuda.DeviceRows
import InferenceEngine.Model.HostForward

/-!
# The device forward is the host forward

Read row by row, the forward pass on device buffers is the device model of rows, whatever the order of the threads and
whatever new arrays hold. On the rows of a checkpoint that model computes what the host computes, for a whole list and
chunk by chunk.
-/

namespace InferenceEngine

open Exec
open Nn (linearRow rmsNormRow)

namespace Device

/-! ### The cache row by row -/

namespace GpuKVCache

variable {kvDim : Nat} {K : Type}

theorem create_ok {numLayers capacity : Int} {keys values : Nat → Nat → K} {cache : GpuKVCache kvDim K}
    (h : create numLayers capacity keys values = .ok cache) :
    cache.length = 0 ∧ cache.capacity = capacity ∧ 0 < capacity := by
  rw [create] at h
  split at h
  · exact absurd h (by simp)
  · next hargs =>
    obtain rfl := Except.ok.inj h
    exact ⟨rfl, rfl, by omega⟩

theorem toRows_copyInto (buffers : Nat → Nat → K) (layer off : Nat) (src : Nat → K) (n : Nat) :
    (fun j => readRow kvDim (copyInto kvDim buffers layer off src n j)) =
      InferenceEngine.GpuKVCache.copyInto (fun j => readRow kvDim (buffers j)) layer off (readRows kvDim n src) n := by
  funext j r
  rw [copyInto, InferenceEngine.GpuKVCache.copyInto]
  by_cases hj : j = layer
  · subst hj
    rw [Function.update_self, Function.update_self, readRow_storeRange]
    split
    · next hr => rw [getD_readRows (by omega)]
    · rfl
  · rw [Function.update_of_ne hj, Function.update_of_ne hj]

theorem simulates_append (layer : Nat) (k v : Nat → K) (n : Nat) :
    Simulates (toRows : GpuKVCache kvDim K → _) (append layer k v n)
      (InferenceEngine.GpuKVCache.append layer (readRows kvDim n k) (readRows kvDim n v) n) := by
  intro cache Q E h
  rw [append]
  rw [InferenceEngine.GpuKVCache.append] at h
  by_cases hn : 0 < n
  case neg =>
    simp only [hn, if_false, wp_pure] at h ⊢
    exact h
  simp only [hn, if_true, wp_bind, wp_get] at h ⊢
  by_cases hroom : cache.capacity < cache.length + n
  · have hroom' : (toRows cache).capacity < (toRows cache).length + n := hroom
    simp only [hroom', if_true, wp_bind, wp_throw] at h
    simp only [hroom, if_true, wp_bind, wp_throw]
    exact h
  · have hroom' : ¬(toRows cache).capacity < (toRows cache).length + n := hroom
    simp only [hroom', if_false, wp_set] at h
    simp only [hroom, if_false, wp_modify]
    have himage : toRows ({ cache with
        keys := copyInto kvDim cache.keys layer cache.length k n
        values := copyInto kvDim cache.values layer cache.length v n } : GpuKVCache kvDim K) =
        { toRows cache with
          keys := InferenceEngine.GpuKVCache.copyInto (toRows cache).keys layer cache.length (readRows kvDim n k) n
          values :=
            InferenceEngine.GpuKVCache.copyInto (toRows cache).values layer cache.length (readRows kvDim n v) n } := by
      unfold toRows
      congr 1
      · exact toRows_copyInto cache.keys layer cache.length k n
      · exact toRows_copyInto cache.values layer cache.length v n
    rw [himage]
    exact h

end GpuKVCache

/-! ### A layer row by row -/

namespace CudaModel

variable {K : Type} [Field K] [LinearOrder K] {M : CudaModel K}

/-- The device model of rows that a flat one refines. -/
def toRows (M : CudaModel K) : InferenceEngine.CudaModel K where
  config := M.checkpoint.config
  decoder := (M.checkpoint.host M.math).decoder
  finalNorm row := rmsNormRow M.math row (M.checkpoint.tensor "model.norm.weight") M.checkpoint.config.rmsNormEps
  lmHead row := linearRow row M.checkpoint.headTensor none
  length_lmHead row := by
    rw [linearRow, List.length_map, List.length_range,
      Nn.Tensor.dim_zero_of_shape M.checkpoint.headTensor_shape]
  headDim_le := M.headDim_le

theorem weight_tensor {name : String} {shape : Dims} (h : HasShape M.checkpoint.weights name shape) :
    M.weight name = .ok (M.checkpoint.tensor name) := by
  rw [weight, (Checkpoint.found h).1]

theorem bias_tensor {l : Nat} (name : String) {shape : Dims} (h : M.checkpoint.config.attentionQkvBias →
      HasShape M.checkpoint.weights (layerKey l ("self_attn." ++ name ++ "_proj.bias")) shape) :
    M.bias l name = .ok ((M.checkpoint.biasTensor l name).bind CudaKernels.pointer) := by
  rw [bias, Checkpoint.biasTensor]
  by_cases hqkv : M.checkpoint.config.attentionQkvBias = true
  · rw [if_pos hqkv, if_pos hqkv, weight_tensor (h hqkv)]
    rfl
  · rw [if_neg hqkv, if_neg hqkv]
    rfl

variable {l : Nat} (hl : l < M.checkpoint.config.numHiddenLayers)
include hl

theorem toRows_block : M.toRows.decoder.block l = M.checkpoint.block M.math l := Checkpoint.host_decoder_block hl

/-- The rows that a layer leaves in its arrays for queries, keys and values. -/
theorem layerInputs_rows (launch : Nat → Launch K) (positions : List Nat) (d : Arrays K) :
    ∃ d', M.layerInputs launch l positions d = .ok d' ∧ d'.x = d.x ∧
      readRows M.checkpoint.qDim positions.length d'.q = List.zipWith (M.toRows.decoder.block l).query positions
        (readRows M.checkpoint.hiddenSize positions.length d.x) ∧
      readRows M.checkpoint.kvDim positions.length d'.k = List.zipWith (M.toRows.decoder.block l).key positions
        (readRows M.checkpoint.hiddenSize positions.length d.x) ∧
      readRows M.checkpoint.kvDim positions.length d'.v = List.zipWith (M.toRows.decoder.block l).value positions
        (readRows M.checkpoint.hiddenSize positions.length d.x) := by
  have h := M.checkpoint.layer l hl
  have hhidden := M.checkpoint.hiddenSize_pos
  rw [layerInputs, weight_tensor h.inputNorm, ok_bind, bias_tensor "q" h.queryBias, ok_bind,
    bias_tensor "k" h.keyBias, ok_bind, bias_tensor "v" h.valueBias, ok_bind,
    weight_tensor h.query, ok_bind, weight_tensor h.key, ok_bind, weight_tensor h.value, ok_bind]
  refine ⟨_, rfl, rfl, ?_, ?_, ?_⟩
  · change readRows (M.checkpoint.config.numAttentionHeads * M.checkpoint.config.headDim) positions.length
      (CudaKernels.rope _ _ _ _ _ _ _ _) = _
    rw [CudaKernels.rows_rope, CudaKernels.rows_linear _ _ _ _ (Checkpoint.found h.query).2 hhidden,
      CudaKernels.rows_rmsNorm, List.map_map, List.zipWith_map_right, toRows_block hl]
    rfl
  · change readRows (M.checkpoint.config.numKeyValueHeads * M.checkpoint.config.headDim) positions.length
      (CudaKernels.rope _ _ _ _ _ _ _ _) = _
    rw [CudaKernels.rows_rope, CudaKernels.rows_linear _ _ _ _ (Checkpoint.found h.key).2 hhidden,
      CudaKernels.rows_rmsNorm, List.map_map, List.zipWith_map_right, toRows_block hl]
    rfl
  · change readRows (M.checkpoint.config.numKeyValueHeads * M.checkpoint.config.headDim) positions.length
      (CudaKernels.linear _ _ _ _ _ _ _ _ _) = _
    rw [CudaKernels.rows_linear _ _ _ _ (Checkpoint.found h.value).2 hhidden, CudaKernels.rows_rmsNorm, List.map_map,
      toRows_block hl]
    exact (zipWith_const_left _ (length_readRows _ _ _).symm).symm

theorem layerOutput_rows (launch : Nat → Launch K) (seq : Nat) (d : Arrays K) :
    ∃ d', M.layerOutput launch l seq d = .ok d' ∧
      readRows M.checkpoint.hiddenSize seq d'.x = List.zipWith (M.toRows.decoder.block l).finish
        (readRows M.checkpoint.hiddenSize seq d.x) (readRows M.checkpoint.qDim seq d.attn) := by
  have h := M.checkpoint.layer l hl
  have hhidden := M.checkpoint.hiddenSize_pos
  have hq : 0 < M.checkpoint.config.numAttentionHeads * M.checkpoint.config.headDim :=
    Nat.mul_pos M.checkpoint.numAttentionHeads_pos M.checkpoint.headDim_pos
  rw [layerOutput, weight_tensor h.output, ok_bind, weight_tensor h.postNorm, ok_bind, weight_tensor h.gate, ok_bind,
    weight_tensor h.up, ok_bind, weight_tensor h.down, ok_bind]
  refine ⟨_, rfl, ?_⟩
  change readRows M.checkpoint.hiddenSize seq (CudaKernels.addInplace _ _ _ _) = _
  rw [CudaKernels.rows_addInplace, CudaKernels.rows_addInplace,
    CudaKernels.rows_linear_none _ _ _ _ (Checkpoint.found h.output).2 hq,
    CudaKernels.rows_linear_none _ _ _ _ (Checkpoint.found h.down).2 M.checkpoint.intermediateSize_pos,
    CudaKernels.rows_siluMul, CudaKernels.rows_linear_none _ _ _ _ (Checkpoint.found h.gate).2 hhidden,
    CudaKernels.rows_linear_none _ _ _ _ (Checkpoint.found h.up).2 hhidden, CudaKernels.rows_rmsNorm,
    CudaKernels.rows_addInplace, CudaKernels.rows_linear_none _ _ _ _ (Checkpoint.found h.output).2 hq,
    toRows_block hl]
  exact (M.checkpoint.finishRows_eq M.math l _ _).symm

/-- **A layer** on flat buffers does to their rows what a layer of the model of rows does. -/
theorem simulates_layerCached (launch : Nat → Nat → Launch K) (past : Nat) (positions : List Nat) (d : Arrays K) :
    Simulates GpuKVCache.toRows
      ((fun d => readRows M.checkpoint.hiddenSize positions.length d.x) <$> M.layerCached launch past positions d l)
      (M.toRows.layerCached past positions (readRows M.checkpoint.hiddenSize positions.length d.x) l) := by
  intro cache Q E h
  obtain ⟨d', hinputs, hx, hq, hk, hv⟩ := layerInputs_rows hl (launch l) positions d
  rw [InferenceEngine.CudaModel.layerCached] at h
  simp only [← hq, ← hk, ← hv, wp_bind, wp_get, wp_pure] at h
  rw [layerCached]
  simp only [hinputs, wp_map, wp_bind, wp_get, wp_lift_ok]
  apply wp_mono (GpuKVCache.simulates_append l d'.k d'.v positions.length cache _ _ h) ?_ fun _ _ he => he
  intro _ cache' hout
  obtain ⟨attn, hattn, hrows⟩ := CudaKernels.rows_attention M.math (launch l 6) M.checkpoint.numKeyValueHeads_pos
    M.checkpoint.heads_dvd M.headDim_le d'.q (cache'.keys l) (cache'.values l) d'.attn past positions.length
  obtain ⟨d'', houtput, hfinish⟩ := layerOutput_rows hl (launch l) positions.length { d' with attn }
  simp only [hattn, houtput, wp_lift_ok]
  have hattention : M.toRows.attention l (readRows M.checkpoint.qDim positions.length d'.q)
      (cache'.toRows.keyRows l (past + positions.length)) (cache'.toRows.valueRows l (past + positions.length)) past =
      readRows M.checkpoint.qDim positions.length attn := by
    refine Eq.trans ?_ hrows.symm
    rw [InferenceEngine.CudaModel.attention, toRows_block hl]
    rfl
  rw [hattention] at hout
  rw [hfinish, hx]
  exact hout

omit hl

/-- **The forward pass** on flat buffers does to their rows what that of the model of rows does. -/
theorem simulates_forwardCached (run : Run K) (ids : List Int) {cache : GpuKVCache M.checkpoint.kvDim K}
    {Q : Rows K → InferenceEngine.GpuKVCache K → Prop} {E : Error → InferenceEngine.GpuKVCache K → Prop}
    (h : wp (M.toRows.forwardCached ids) Q E cache.toRows) :
    wp (M.forwardCached run ids)
      (fun logits cache' => ∃ rows, logits.HasRows M.checkpoint.config.vocabSize rows ∧ Q rows cache'.toRows)
      (fun e cache' => E e cache'.toRows) cache := by
  rw [InferenceEngine.CudaModel.forwardCached] at h
  rw [forwardCached]
  by_cases hids : ids = []
  · simp only [hids, if_true, wp_bind, wp_throw] at h ⊢
    exact h
  simp only [hids, if_false, wp_bind, wp_pure, wp_get, wp_modify] at h
  simp only [hids, if_false, wp_bind, wp_pure, wp_get, weight_tensor M.checkpoint.embed, wp_lift_ok, wp_modify,
    weight_tensor M.checkpoint.norm]
  have hlength : ((List.range ids.length).map (cache.length + ·)).length = ids.length := by
    rw [List.length_map, List.length_range]
  have hx := CudaKernels.rows_embedding run.embedding (M.checkpoint.tensor "model.embed_tokens.weight") ids
    run.arrays.x M.checkpoint.hiddenSize
  have hembed : M.toRows.decoder.embed = fun id =>
      readRow M.checkpoint.hiddenSize (M.checkpoint.tensor "model.embed_tokens.weight").cell id.toNat :=
    funext fun id => Checkpoint.host_embed id
  rw [hembed, ← hx] at h
  have hlayer : ∀ (d : Arrays K), ∀ l ∈ List.range M.checkpoint.config.numHiddenLayers,
      Simulates GpuKVCache.toRows
        ((fun d => readRows M.checkpoint.hiddenSize ids.length d.x) <$>
          M.layerCached run.layer cache.length ((List.range ids.length).map (cache.length + ·)) d l)
        (M.toRows.layerCached cache.length ((List.range ids.length).map (cache.length + ·))
          (readRows M.checkpoint.hiddenSize ids.length d.x) l) := by
    intro d l hl
    have hsimulates := simulates_layerCached (List.mem_range.mp hl) run.layer cache.length
      ((List.range ids.length).map (cache.length + ·)) d
    rw [hlength] at hsimulates
    exact hsimulates
  have hloop := Simulates.foldlM _ hlayer { run.arrays with
    x := CudaKernels.embedding run.embedding (M.checkpoint.tensor "model.embed_tokens.weight").cell
      (fun i => (ids.getD i 0).toNat) run.arrays.x ids.length M.checkpoint.hiddenSize } cache _ _ h
  rw [wp_map] at hloop
  apply wp_mono hloop ?_ fun _ _ he => he
  intro d cache' hd
  have hhead : (M.checkpoint.weights "lm_head.weight").getD (M.checkpoint.tensor "model.embed_tokens.weight") =
      M.checkpoint.headTensor := rfl
  refine ⟨_, Nn.Tensor.hasRows_ofCells rfl, ?_⟩
  rw [hhead, CudaKernels.rows_linear_none _ _ _ _ Checkpoint.headTensor_shape M.checkpoint.hiddenSize_pos,
    CudaKernels.rows_rmsNorm]
  exact hd

/-! ### The logits of the host -/

theorem toRows_logits (ids : List Int) : M.toRows.logits ids = (M.checkpoint.host M.math).logits ids := by
  rw [InferenceEngine.CudaModel.logits, Model.logits]
  apply List.map_congr_left
  intro row _
  exact (Checkpoint.host_logitsRow row).symm

abbrev Holds (M : CudaModel K) (ids : List Int) (cache : GpuKVCache M.checkpoint.kvDim K) : Prop :=
  InferenceEngine.GpuKVCache.Holds M.toRows ids cache.toRows

theorem holds_nil {cache : GpuKVCache M.checkpoint.kvDim K} (hempty : cache.length = 0) : Holds M [] cache := by
  refine ⟨hempty, ?_, fun _ hj => absurd hj (Nat.not_lt_zero _)⟩
  intro j _ _
  rw [Causal.Decoder.keys_nil, Causal.Decoder.values_nil]
  exact ⟨rfl, rfl⟩

variable {ids chunk : List Int} {cache : GpuKVCache M.checkpoint.kvDim K}

/-- **A chunk** over a device cache with room. -/
theorem wp_forwardCached (run : Run K) (hchunk : chunk ≠ []) (h : Holds M ids cache)
    (hroom : (ids.length + chunk.length : Int) ≤ cache.capacity) :
    wp (M.forwardCached run chunk)
      (fun logits cache' =>
        logits.HasRows M.checkpoint.config.vocabSize
            (((M.checkpoint.host M.math).logits (ids ++ chunk)).drop ids.length) ∧
          Holds M (ids ++ chunk) cache' ∧ cache'.capacity = cache.capacity)
      (fun _ _ => False) cache := by
  rw [← toRows_logits]
  apply wp_mono (simulates_forwardCached run chunk (InferenceEngine.CudaModel.wp_forwardCached hchunk h hroom)) ?_
    fun _ _ hf => hf
  intro logits cache' hout
  obtain ⟨rows, hrows, rfl, hholds, hcapacity⟩ := hout
  exact ⟨hrows, hholds, hcapacity⟩

theorem wp_forwardCached_full (run : Run K) (hchunk : chunk ≠ [])
    (hfull : cache.capacity < (cache.length + chunk.length : Int)) :
    wp (M.forwardCached run chunk) (fun _ _ => False)
      (fun e _ => e = .runtimeError "GpuKVCache: capacity exceeded") cache := by
  apply wp_mono (simulates_forwardCached run chunk (InferenceEngine.CudaModel.wp_forwardCached_full (M := M.toRows)
    M.checkpoint.numHiddenLayers_pos hchunk hfull)) ?_ fun _ _ he => he
  intro logits cache' hout
  obtain ⟨_, _, hfalse⟩ := hout
  exact hfalse

def host (M : CudaModel K) : Host.Model K := ⟨M.checkpoint, M.math⟩

/-- The logits of every chunk of a list that is fed chunk by chunk. -/
def chunkLogits (M : CudaModel K) : List Int → List (List Int) → List (Rows K)
  | _, [] => []
  | ids, chunk :: rest =>
    ((M.checkpoint.host M.math).logits (ids ++ chunk)).drop ids.length :: chunkLogits M (ids ++ chunk) rest

theorem wp_deviceChunks (calls : List (Run K × List Int)) (hne : ∀ call ∈ calls, call.2 ≠ []) (h : Holds M ids cache)
    (hroom : (ids.length + (calls.flatMap Prod.snd).length : Int) ≤ cache.capacity) :
    wp (calls.mapM fun call => M.forwardCached call.1 call.2)
      (fun parts _ => List.Forall₂ (fun t rows => t.HasRows M.checkpoint.config.vocabSize rows) parts
        (chunkLogits M ids (calls.map Prod.snd))) (fun _ _ => False) cache := by
  induction calls generalizing ids cache with
  | nil =>
    simp only [List.mapM_nil, wp_pure]
    exact .nil
  | cons call calls ih =>
    rw [List.flatMap_cons, List.length_append] at hroom
    simp only [List.mapM_cons, wp_bind, wp_pure]
    apply wp_mono (wp_forwardCached call.1 (hne call List.mem_cons_self) h (by omega)) ?_ fun _ _ hf => hf
    intro logits cache' hout
    obtain ⟨hlogits, h', hcapacity⟩ := hout
    have hroom' : ((ids ++ call.2).length + (calls.flatMap Prod.snd).length : Int) ≤ cache'.capacity := by
      rw [hcapacity, List.length_append]
      omega
    apply wp_mono (ih (fun call hcall => hne call (List.mem_cons_of_mem _ hcall)) h' hroom') ?_ fun _ _ hf => hf
    intro parts _ hparts
    exact .cons hlogits hparts

theorem wp_deviceChunks_full (calls : List (Run K × List Int)) (hne : ∀ call ∈ calls, call.2 ≠ [])
    (h : Holds M ids cache) (hfits : (ids.length : Int) ≤ cache.capacity)
    (hfull : cache.capacity < (ids.length + (calls.flatMap Prod.snd).length : Int)) :
    wp (calls.mapM fun call => M.forwardCached call.1 call.2) (fun _ _ => False)
      (fun e _ => e = .runtimeError "GpuKVCache: capacity exceeded") cache := by
  induction calls generalizing ids cache with
  | nil => exact absurd hfits (by simpa using hfull)
  | cons call calls ih =>
    rw [List.flatMap_cons, List.length_append] at hfull
    simp only [List.mapM_cons, wp_bind, wp_pure]
    by_cases hroom : (ids.length + call.2.length : Int) ≤ cache.capacity
    · apply wp_mono (wp_forwardCached call.1 (hne call List.mem_cons_self) h hroom) ?_ fun _ _ hf => hf.elim
      intro logits cache' hout
      obtain ⟨_, h', hcapacity⟩ := hout
      have hlength : ((ids ++ call.2).length : Int) = ids.length + call.2.length := by
        rw [List.length_append]
        omega
      exact ih (fun call hcall => hne call (List.mem_cons_of_mem _ hcall)) h' (by omega) (by omega)
    · have hlength : cache.length = ids.length := h.length
      apply wp_mono (wp_forwardCached_full call.1 (hne call List.mem_cons_self) (by omega)) ?_ fun _ _ he => he
      exact fun _ _ hf => hf.elim

theorem wp_hostChunks {chunks : List (List Int)} (hne : ∀ chunk ∈ chunks, chunk ≠ [])
    (hvocab : ∀ chunk ∈ chunks, ∀ t ∈ chunk, (M.checkpoint.host M.math).InVocab t) {hostCache : KVCache K}
    (h : (M.checkpoint.host M.math).Holds ids hostCache) :
    wp (chunks.mapM (M.checkpoint.host M.math).forwardWithCache)
      (fun parts _ => parts = chunkLogits M ids chunks) (fun _ _ => False) hostCache := by
  induction chunks generalizing ids hostCache with
  | nil =>
    simp only [List.mapM_nil, wp_pure]
    rfl
  | cons chunk chunks ih =>
    simp only [List.mapM_cons, wp_bind, wp_pure]
    apply wp_mono (Model.wp_forwardCached Checkpoint.host_complete (hne chunk List.mem_cons_self)
      (hvocab chunk List.mem_cons_self) trivial h) ?_ fun _ _ hf => hf
    intro logits hostCache' hout
    obtain ⟨hlogits, h'⟩ := hout
    apply wp_mono (ih (fun chunk hchunk => hne chunk (List.mem_cons_of_mem _ hchunk))
      (fun chunk hchunk => hvocab chunk (List.mem_cons_of_mem _ hchunk)) h') ?_ fun _ _ hf => hf
    intro parts _ hparts
    rw [hlogits, hparts]
    rfl

/-! ### The two forwards -/

noncomputable def tinyModel : CudaModel ℝ where
  checkpoint := tinyCheckpoint
  math := realFunctions
  blas := Blas.reference ℝ
  one_lt_headDim := Nat.one_lt_two
  headDim_le := by decide

theorem forward_whole (run : Run K) (keys values : Nat → Nat → K) {ids : List Int} (hids : ids ≠ [])
    (hvocab : ∀ t ∈ ids, 0 ≤ t ∧ t < M.checkpoint.config.vocabSize) :
    ∃ logits, M.forward run keys values ids = .ok logits ∧ M.host.forward ids = .ok logits := by
  have hkv : M.checkpoint.kvDim ≠ 0 := (Nat.mul_pos M.checkpoint.numKeyValueHeads_pos M.checkpoint.headDim_pos).ne'
  have hlayers := M.checkpoint.numHiddenLayers_pos
  have hpos := List.length_pos_iff.mpr hids
  obtain ⟨out, hhost, hout⟩ := Host.Model.forward_rows (M := M.host) (Model.forward_eq Checkpoint.host_complete hids
    fun t ht => Checkpoint.host_inVocab.mpr (hvocab t ht))
  let cache : GpuKVCache M.checkpoint.kvDim K := ⟨ids.length, 0, keys, values⟩
  have hempty : Holds M [] cache := holds_nil rfl
  have hroom : (([] : List Int).length + ids.length : Int) ≤ cache.capacity := by simp [cache]
  obtain ⟨logits, cache', hrun, hlogits, -⟩ := wp_returns (wp_forwardCached run hids hempty hroom)
  refine ⟨out, ?_, hhost⟩
  rw [forward, GpuKVCache.create, if_neg (by omega), ok_bind, hrun, hout.unique hlogits]

section Chunks

variable {calls : List (Run K × List Int)} (hempty : cache.length = 0)
include hempty

theorem chunks_fit
    (hcalls : ∀ call ∈ calls, call.2 ≠ [] ∧ ∀ t ∈ call.2, 0 ≤ t ∧ t < M.checkpoint.config.vocabSize)
    (hroom : ((calls.flatMap Prod.snd).length : Int) ≤ cache.capacity) :
    ∃ parts deviceCache hostCache,
      calls.mapM (fun call => M.forwardCached call.1 call.2) cache = .ok parts deviceCache ∧
      (calls.map Prod.snd).mapM M.host.forwardWithCache (Host.KVCache.create M.checkpoint.kvDim) =
        .ok parts hostCache := by
  obtain ⟨parts, deviceCache, hdevice, hparts⟩ := wp_returns (wp_deviceChunks calls
    (fun call hcall => (hcalls call hcall).1) (holds_nil hempty) (by simpa using hroom))
  have hchunks : ∀ chunk ∈ calls.map Prod.snd,
      chunk ≠ [] ∧ ∀ t ∈ chunk, (M.checkpoint.host M.math).InVocab t := by
    intro chunk hchunk
    obtain ⟨call, hcall, rfl⟩ := List.mem_map.mp hchunk
    exact ⟨(hcalls call hcall).1, fun t ht => Checkpoint.host_inVocab.mpr ((hcalls call hcall).2 t ht)⟩
  obtain ⟨rowParts, rowCache, hrows, rfl⟩ := wp_returns (wp_hostChunks (M := M)
    (fun chunk h => (hchunks chunk h).1) (fun chunk h => (hchunks chunk h).2) Model.holds_empty)
  obtain ⟨hostParts, hostCache, hhost, hhostParts, -⟩ :=
    Follows.mapM (calls.map Prod.snd) (fun chunk _ => Host.Model.follows_forwardCached (M := M.host) chunk) _ _
      (Host.KVCache.holdsRows_create M.checkpoint.kvDim) _ _ hrows
  obtain rfl := Nn.Tensor.HasRows.forall₂_unique hhostParts hparts
  exact ⟨_, deviceCache, hostCache, hdevice, hhost⟩

theorem chunks_full (hne : ∀ call ∈ calls, call.2 ≠ []) (hcapacity : 0 ≤ cache.capacity)
    (hfull : cache.capacity < ((calls.flatMap Prod.snd).length : Int)) :
    ∃ deviceCache, calls.mapM (fun call => M.forwardCached call.1 call.2) cache =
      .error (.runtimeError "GpuKVCache: capacity exceeded") deviceCache := by
  obtain ⟨_, deviceCache, hdevice, rfl⟩ := wp_throws (wp_deviceChunks_full calls hne (holds_nil hempty)
    (by simpa using hcapacity) (by simpa using hfull))
  exact ⟨deviceCache, hdevice⟩

end Chunks

/-- **The device computes the logits of the host**: `forward` for every list, and `forward_with_cache` chunk by chunk as
long as the cache has room, whatever the order of the threads in every launch and whatever fresh memory holds. -/
theorem forward_eq_host (M : CudaModel K) :
    (∀ (run : Run K) (keys values : Nat → Nat → K) (ids : List Int), ids ≠ [] →
      (∀ t ∈ ids, 0 ≤ t ∧ t < M.checkpoint.config.vocabSize) →
      ∃ logits, M.forward run keys values ids = .ok logits ∧ M.host.forward ids = .ok logits) ∧
    ∀ (capacity : Int) (keys values : Nat → Nat → K) (cache : GpuKVCache M.checkpoint.kvDim K),
      GpuKVCache.create M.checkpoint.config.numHiddenLayers capacity keys values = .ok cache →
      ∀ calls : List (Run K × List Int),
        (∀ call ∈ calls, call.2 ≠ [] ∧ ∀ t ∈ call.2, 0 ≤ t ∧ t < M.checkpoint.config.vocabSize) →
        (((calls.flatMap Prod.snd).length : Int) ≤ capacity →
          ∃ parts deviceCache hostCache,
            calls.mapM (fun call => M.forwardCached call.1 call.2) cache = .ok parts deviceCache ∧
            (calls.map Prod.snd).mapM M.host.forwardWithCache (Host.KVCache.create M.checkpoint.kvDim) =
              .ok parts hostCache) ∧
        (capacity < ((calls.flatMap Prod.snd).length : Int) →
          ∃ deviceCache, calls.mapM (fun call => M.forwardCached call.1 call.2) cache =
            .error (.runtimeError "GpuKVCache: capacity exceeded") deviceCache) := by
  constructor
  · intro run keys values ids hids hvocab
    exact forward_whole run keys values hids hvocab
  · intro capacity keys values cache hcreate calls hcalls
    obtain ⟨hempty, rfl, hcapacity⟩ := GpuKVCache.create_ok hcreate
    constructor
    · exact chunks_fit hempty hcalls
    · exact chunks_full hempty (fun call hcall => (hcalls call hcall).1) hcapacity.le

theorem forward_eq_host_tiny :
    let M := tinyModel
    let array : Nat → ℝ := fun _ => 7
    let launch : Launch ℝ := ⟨.ascending, fun _ => .ascending, fun _ => array⟩
    let run : Run ℝ := ⟨⟨array, array, array, array, array, array, array, array, array, array, array, array, array⟩,
      launch, fun _ _ => launch, launch, launch⟩
    let fresh : Nat → Nat → ℝ := fun _ => array
    (∃ logits, M.forward run fresh fresh [1, 2] = .ok logits ∧ M.host.forward [1, 2] = .ok logits) ∧
    ∃ parts deviceCache hostCache,
      [(run, [1, 2]), (run, [0])].mapM (fun call => M.forwardCached call.1 call.2) ⟨4, 0, fresh, fresh⟩ =
        .ok parts deviceCache ∧
      [[1, 2], [0]].mapM M.host.forwardWithCache (Host.KVCache.create 2) = .ok parts hostCache := by
  intro M array launch run fresh
  obtain ⟨hforward, hchunks⟩ := forward_eq_host M
  have hcreate : (GpuKVCache.create 1 4 fresh fresh : Except Error (GpuKVCache 2 ℝ)) = .ok ⟨4, 0, fresh, fresh⟩ := rfl
  have hcalls : ∀ call ∈ [(run, [1, 2]), (run, ([0] : List Int))],
      call.2 ≠ [] ∧ ∀ t ∈ call.2, 0 ≤ t ∧ t < (3 : Nat) := by
    simp
  exact ⟨hforward run fresh fresh [1, 2] (by decide) (by decide),
    (hchunks 4 fresh fresh ⟨4, 0, fresh, fresh⟩ hcreate _ hcalls).1 (by decide)⟩

end CudaModel

end Device

end InferenceEngine
