import InferenceEngine.KvCache.LawfulCache
import InferenceEngine.Model.Decoder

/-!
# The cached forward

`forward_cached` keeps in its cache the keys and values of everything it was fed, and returns the rows
of the one-shot run that belong to its chunk. Feeding a list chunk by chunk therefore gives the logits of
the whole list, over either cache.
-/

namespace InferenceEngine

open Exec

namespace Model

variable {W Q K : Type} {M : Model W Q K}

/-- A cached forward that returns has found every tensor, and a table row for every token. -/
theorem wp_forwardCached_complete {C : Type} [Cache C K] (chunk : List Int) (cache : C) :
    wp (M.forwardCached chunk)
      (fun _ _ => chunk ≠ [] ∧ M.Complete ∧ ∀ t ∈ chunk, M.InVocab t) (fun _ _ => True) cache := by
  rw [forwardCached]
  by_cases hne : chunk = []
  · simp only [hne, if_true, wp_bind, wp_throw]
  simp only [hne, if_false, wp_bind, wp_pure, wp_get, wp_lift]
  refine ⟨fun embed he => ⟨fun x hx => ?_, fun _ _ => trivial⟩, fun _ _ => trivial⟩
  refine wp_mono (wp_foldlM_range (I := fun k _ _ => M.FoundBelow k) (E := fun _ _ => True) _ ?_
    FoundBelow.zero) ?_ fun _ _ h => h
  · intro l x cache _ hfound
    rw [layerCached]
    simp only [wp_bind, wp_lift]
    refine ⟨fun qkv hin => ?_, fun _ _ => trivial⟩
    refine wp_mono (Q := fun _ _ => True) (E := fun _ _ => True) ?_ ?_ fun _ _ h => h
    · unfold wp
      split <;> trivial
    · intro _ cache' _
      simp only [wp_get]
      refine ⟨fun attn hattn => ⟨fun y hy => ?_, fun _ _ => trivial⟩, fun _ _ => trivial⟩
      exact hfound.succ (block_of_layer hin hy) (heads_of_attend hattn)
  · intro x cache' hfound
    simp only [wp_modify]
    refine ⟨fun normed hnormed => ?_, fun _ _ => trivial⟩
    have hw := get_ok he
    exact ⟨hne, ⟨⟨embed, hw⟩, norm_of_finalNorm hnormed, hfound.1, hfound.2⟩,
      inVocab_of_embedding hw hx⟩

/-! ### A chunk over a cache -/

section Cached

variable {C : Type} [Cache C K] [LawfulCache C K]

/-- A cache in the middle of a forward pass: the layers before `l` hold the keys and values of the old
tokens and the chunk, the others those of the old tokens. -/
structure HoldsBelow (M : Model W Q K) (ids chunk : List Int) (l : Nat) (cache : C) : Prop where
  inv : LawfulCache.Inv cache
  length : Cache.length cache = ids.length
  keys : ∀ j < M.config.numHiddenLayers,
    Cache.keyTensor cache j = M.decoder.keys j (if j < l then ids ++ chunk else ids)
  values : ∀ j < M.config.numHiddenLayers,
    Cache.valueTensor cache j = M.decoder.values j (if j < l then ids ++ chunk else ids)

abbrev Holds (M : Model W Q K) (ids : List Int) (cache : C) : Prop := M.HoldsBelow ids [] 0 cache

/-- One layer: its rows are appended, and the hidden rows of the chunk move on. -/
theorem wp_layerCached (hM : M.Complete) {ids chunk : List Int} {l : Nat}
    (hl : l < M.config.numHiddenLayers) (hroom : LawfulCache.room C (ids ++ chunk).length) {cache : C}
    (h : M.HoldsBelow ids chunk l cache) :
    wp (M.layerCached ids.length ((List.range chunk.length).map (ids.length + ·))
        ((M.decoder.hidden l (ids ++ chunk)).drop ids.length) l)
      (fun x cache' => x = (M.decoder.hidden (l + 1) (ids ++ chunk)).drop ids.length ∧
        M.HoldsBelow ids chunk (l + 1) cache')
      (fun _ _ => False) cache := by
  have hB := hM.decoder_block hl
  have hheads := hM.heads (Nat.zero_lt_of_lt hl)
  generalize hx : (M.decoder.hidden l (ids ++ chunk)).drop ids.length = x
  have hxlen : x.length = chunk.length := by simp [← hx]
  have hkeys := h.keys l hl
  have hvalues := h.values l hl
  rw [if_neg (lt_irrefl l)] at hkeys hvalues
  have hpositions : ((List.range chunk.length).map (ids.length + ·)).length = x.length := by simp [hxlen]
  have hin := layerInputs_eq hB hpositions
  simp only [zipWith_positions _ _ hxlen] at hin
  have hk : Cache.keyTensor cache l ++ (M.decoder.block l).keysFrom ids.length x =
      M.decoder.keys l (ids ++ chunk) := by rw [hkeys, Causal.Decoder.keys_append, hx]
  have hv : Cache.valueTensor cache l ++ (M.decoder.block l).valuesFrom ids.length x =
      M.decoder.values l (ids ++ chunk) := by rw [hvalues, Causal.Decoder.values_append, hx]
  rw [layerCached]
  simp only [hin, wp_bind, wp_lift_ok]
  refine wp_mono (LawfulCache.wp_append h.inv (k := (M.decoder.block l).keysFrom ids.length x)
    (v := (M.decoder.block l).valuesFrom ids.length x) (by simp [hxlen]) (by simp [hxlen])
    (by simp [hkeys, hvalues]) (by simpa [hkeys] using hroom)) ?_ fun _ _ hf => hf
  rintro _ cache' ⟨hinv, hlength, hkeys', hvalues'⟩
  have hkl : Cache.keyTensor cache' l = M.decoder.keys l (ids ++ chunk) := by
    rw [hkeys', Function.update_self, hk]
  have hvl : Cache.valueTensor cache' l = M.decoder.values l (ids ++ chunk) := by
    rw [hvalues', Function.update_self, hv]
  have hattend : M.attend (x.mapIdx fun i row => (M.decoder.block l).query (ids.length + i) row)
      (M.decoder.keys l (ids ++ chunk)) (M.decoder.values l (ids ++ chunk)) ids.length =
      .ok ((M.decoder.block l).attendFrom ids.length (M.decoder.keys l (ids ++ chunk))
        (M.decoder.values l (ids ++ chunk)) x) := by
    rw [attend_eq hB (by simp) hheads (by simp [hxlen]), List.mapIdx_mapIdx]
    rfl
  obtain ⟨-, -, -, -, hfinish, -⟩ := block_ok hB
  simp only [wp_get, hkl, hvl, hattend, wp_lift_ok, layerOutput_eq, hfinish, Except.map]
  constructor
  · rw [Causal.Decoder.hidden_succ_drop, hx]
  · have hne : ∀ {j : Nat}, j ≠ l → (j < l + 1 ↔ j < l) := fun hj => by omega
    refine ⟨hinv, hlength.trans h.length, fun j hj => ?_, fun j hj => ?_⟩
    · by_cases hjl : j = l
      · rw [hjl, hkl, if_pos (Nat.lt_succ_self l)]
      · rw [hkeys', Function.update_of_ne hjl, h.keys j hj]
        simp only [hne hjl]
    · by_cases hjl : j = l
      · rw [hjl, hvl, if_pos (Nat.lt_succ_self l)]
      · rw [hvalues', Function.update_of_ne hjl, h.values j hj]
        simp only [hne hjl]

/-- **A chunk**: the logits of its rows, and a cache that holds everything. -/
theorem wp_forwardCached (hM : M.Complete) {ids chunk : List Int} (hne : chunk ≠ [])
    (hvocab : ∀ t ∈ chunk, M.InVocab t) (hroom : LawfulCache.room C (ids ++ chunk).length) {cache : C}
    (h : M.Holds ids cache) :
    wp (M.forwardCached chunk)
      (fun logits cache' => logits = (M.logits (ids ++ chunk)).drop ids.length ∧
        M.Holds (ids ++ chunk) cache')
      (fun _ _ => False) cache := by
  obtain ⟨embed, he⟩ := hM.embed
  obtain ⟨norm, hn⟩ := hM.norm
  have hpast : Cache.length cache = ids.length := h.length
  rw [forwardCached]
  simp only [hne, if_false, wp_bind, wp_pure, wp_get, get_eq_of_some he, embedding_eq he hvocab,
    wp_lift_ok, hpast]
  -- after `l` layers `x` is the chunk's part of the hidden rows entering layer `l`
  have hloop := wp_foldlM_range
    (I := fun l x cache => x = (M.decoder.hidden l (ids ++ chunk)).drop ids.length ∧
      M.HoldsBelow ids chunk l cache)
    (E := fun _ (_ : C) => False)
    (f := M.layerCached ids.length ((List.range chunk.length).map (ids.length + ·)))
    M.config.numHiddenLayers ?_ (b := chunk.map M.decoder.embed) (s := cache) ?_
  · refine wp_mono hloop ?_ fun _ _ hf => hf
    rintro x cache' ⟨rfl, h'⟩
    obtain ⟨hinv, hlength, hkeys, hvalues⟩ := LawfulCache.advance chunk.length h'.inv
    simp only [wp_modify, (finalNorm_lmHead he hn _).1, (finalNorm_lmHead he hn _).2, wp_lift_ok]
    refine ⟨by rw [logits, List.map_drop], hinv, ?_, fun j hj => ?_, fun j hj => ?_⟩
    · rw [hlength, h'.length, List.length_append]
    · rw [hkeys, h'.keys j hj, if_pos hj, if_neg (Nat.not_lt_zero j)]
    · rw [hvalues, h'.values j hj, if_pos hj, if_neg (Nat.not_lt_zero j)]
  · rintro l x cache' hl ⟨rfl, h'⟩
    exact wp_layerCached hM hl hroom h'
  · refine ⟨(Causal.Decoder.hidden_zero_drop _ _ _).symm, h.inv, h.length, fun j hj => ?_, fun j hj => ?_⟩
    · simpa using h.keys j hj
    · simpa using h.values j hj

theorem wp_forwardChunks (hM : M.Complete) {chunks : List (List Int)} (hne : ∀ chunk ∈ chunks, chunk ≠ [])
    (hvocab : ∀ chunk ∈ chunks, ∀ t ∈ chunk, M.InVocab t) {ids : List Int}
    (hroom : LawfulCache.room C (ids ++ chunks.flatten).length) {cache : C} (h : M.Holds ids cache) :
    wp (chunks.mapM M.forwardCached)
      (fun parts _ => parts.flatten = (M.logits (ids ++ chunks.flatten)).drop ids.length)
      (fun _ _ => False) cache := by
  induction chunks generalizing ids cache with
  | nil =>
    simp only [List.mapM_nil, wp_pure, List.flatten_nil, List.append_nil]
    rw [List.drop_of_length_le (by simp)]
  | cons chunk chunks ih =>
    rw [List.flatten_cons, ← List.append_assoc] at hroom ⊢
    simp only [List.mapM_cons, wp_bind, wp_pure]
    have hroom' : LawfulCache.room C (ids ++ chunk).length := by
      refine LawfulCache.room_mono ?_ hroom
      simp only [List.length_append]
      omega
    refine wp_mono (wp_forwardCached hM (hne chunk List.mem_cons_self)
      (hvocab chunk List.mem_cons_self) hroom' h) ?_ fun _ _ hf => hf
    rintro part cache' ⟨rfl, h'⟩
    refine wp_mono (ih (fun ch hch => hne ch (List.mem_cons_of_mem _ hch))
      (fun ch hch => hvocab ch (List.mem_cons_of_mem _ hch)) hroom h') ?_ fun _ _ hf => hf
    intro parts _ hparts
    -- the rows of this chunk are those of the longer list up to its end
    have htake := M.logits_take (ids ++ chunk).length (ids ++ chunk ++ chunks.flatten)
    rw [List.take_left] at htake
    rw [List.flatten_cons, hparts, ← htake, ← List.drop_append_of_le_length (by simp),
      List.take_append_drop]

end Cached

theorem holds_empty : M.Holds [] (KVCache.empty : KVCache K) :=
  ⟨trivial, rfl, fun _ _ => by simp; rfl, fun _ _ => by simp; rfl⟩

theorem holds_create [Zero K] (c : PoolSizes) : M.Holds [] (PagedKVCache.create c : PagedKVCache c K) :=
  ⟨PagedKVCache.inv_create, rfl, fun _ _ => by simp; rfl, fun _ _ => by simp; rfl⟩

theorem forward_eq (hM : M.Complete) {ids : List Int} (hne : ids ≠ []) (hvocab : ∀ t ∈ ids, M.InVocab t) :
    M.forward ids = .ok (M.logits ids) := by
  obtain ⟨logits, cache, hrun, hlogits, -⟩ :=
    wp_returns (wp_forwardCached hM hne hvocab trivial M.holds_empty)
  simp [forward, forwardWithCache, hrun, hlogits]

/-- `forward` returns only for a complete model and a list of tokens it has rows for. -/
theorem complete_of_forward {ids : List Int} {logits : Rows K} (h : M.forward ids = .ok logits) :
    ids ≠ [] ∧ M.Complete ∧ ∀ t ∈ ids, M.InVocab t := by
  have hwp := M.wp_forwardCached_complete ids (KVCache.empty : KVCache K)
  rw [forward, forwardWithCache] at h
  cases hrun : M.forwardCached ids (KVCache.empty : KVCache K) with
  | ok _ cache => exact (wp_iff.mp hwp).1 _ _ hrun
  | error e cache => simp [hrun] at h

/-- **Chunk invariance**: a list fed to a fresh cache chunk by chunk, contiguous or paged with enough
blocks, gives the logits `forward` gives for the whole list, and every shorter list gives the first of
them. -/
theorem forward_chunks [Zero K] (M : Model W Q K) (chunks : List (List Int)) (hchunks : chunks ≠ [])
    (hne : ∀ chunk ∈ chunks, chunk ≠ []) :
    (M.Complete → (∀ t ∈ chunks.flatten, M.InVocab t) →
      ∃ logits, M.forward chunks.flatten = .ok logits) ∧
    ∀ logits, M.forward chunks.flatten = .ok logits →
      (∃ parts cache, chunks.mapM M.forwardWithCache KVCache.empty = .ok parts cache ∧
        parts.flatten = logits) ∧
      (∀ c : PoolConfig, c.blocksFor chunks.flatten.length ≤ c.numBlocks →
        ∃ parts cache, chunks.mapM M.forwardPaged (PagedKVCache.create c) = .ok parts cache ∧
          parts.flatten = logits) ∧
      ∀ n, 0 < n → M.forward (chunks.flatten.take n) = .ok (logits.take n) := by
  have hflat : chunks.flatten ≠ [] := by
    obtain ⟨chunk, hchunk⟩ := List.exists_mem_of_ne_nil _ hchunks
    obtain ⟨t, ht⟩ := List.exists_mem_of_ne_nil _ (hne chunk hchunk)
    exact List.ne_nil_of_mem (List.mem_flatten_of_mem hchunk ht)
  refine ⟨fun hM hvocab => ⟨_, forward_eq hM hflat hvocab⟩, fun logits hlogits => ?_⟩
  obtain ⟨-, hM, hvocab⟩ := complete_of_forward hlogits
  rw [forward_eq hM hflat hvocab, Except.ok.injEq] at hlogits
  subst hlogits
  have hvocab' : ∀ chunk ∈ chunks, ∀ t ∈ chunk, M.InVocab t := fun chunk hchunk t ht =>
    hvocab t (List.mem_flatten_of_mem hchunk ht)
  refine ⟨?_, fun c hc => ?_, fun n hn => ?_⟩
  · obtain ⟨parts, cache, hrun, hparts⟩ :=
      wp_returns (wp_forwardChunks hM hne hvocab' trivial M.holds_empty)
    exact ⟨parts, cache, hrun, by simpa using hparts⟩
  · obtain ⟨parts, cache, hrun, hparts⟩ :=
      wp_returns (wp_forwardChunks hM hne hvocab' hc (M.holds_create c))
    exact ⟨parts, cache, hrun, by simpa using hparts⟩
  · rw [forward_eq hM _ fun t ht => hvocab t (List.mem_of_mem_take ht), logits_take]
    simp [hflat, Nat.ne_of_gt hn]

theorem forward_chunks_tiny :
    ∃ parts cache, [[1, 2], [2]].mapM tiny.forwardWithCache KVCache.empty = .ok parts cache ∧
      parts.flatten = [[0, 0, 1], [0, 0, 1], [0, 1, 0]] :=
  ((forward_chunks tiny [[1, 2], [2]] (by decide) (by decide)).2 _ (by decide +kernel)).1

end Model

end InferenceEngine
