import InferenceEngine.Cuda.Batch

/-!
# Contiguous device caches

A device cache that was fed `ids` holds, in every layer, the keys and values of `ids` in its first rows.
One sequence over a cache of its own, and a batch over caches at distinct addresses, compute the plain run
as long as every cache has room.
-/

namespace InferenceEngine

open Exec

namespace GpuKVCache

variable {K : Type}

theorem map_copyInto_self (buffers : Nat → Nat → Row K) (layer off : Nat) (src : Rows K) :
    (List.range (off + src.length)).map (copyInto buffers layer off src src.length layer) =
      (List.range off).map (buffers layer) ++ src := by
  apply List.ext_getElem
  · simp
  intro i hi _
  have hi' : i < off + src.length := by simpa using hi
  rw [List.getElem_map, List.getElem_range, copyInto, Function.update_self]
  by_cases hoff : i < off
  · rw [if_neg (by omega), List.getElem_append_left (by simpa using hoff), List.getElem_map,
      List.getElem_range]
  · rw [if_pos (by omega), List.getElem_append_right (by simpa using hoff)]
    have hsrc : i - off < src.length := by omega
    simp [List.getD_eq_getElem?_getD, hsrc]

theorem copyInto_of_ne (buffers : Nat → Nat → Row K) {layer j : Nat} (hj : j ≠ layer) (off : Nat)
    (src : Rows K) (n : Nat) : copyInto buffers layer off src n j = buffers j :=
  Function.update_of_ne hj _ _

/-- `append` with room: the new rows follow the committed ones, and the other layers keep theirs. -/
theorem wp_append (layer : Nat) {k v : Rows K} {cache : GpuKVCache K} (hlen : v.length = k.length)
    (hpos : 0 < k.length) (hroom : (cache.length + k.length : Int) ≤ cache.capacity) :
    wp (append layer k v k.length)
      (fun _ cache' => cache'.length = cache.length ∧ cache'.capacity = cache.capacity ∧
        cache'.keyRows layer (cache.length + k.length) = cache.keyRows layer cache.length ++ k ∧
        cache'.valueRows layer (cache.length + k.length) = cache.valueRows layer cache.length ++ v ∧
        ∀ j ≠ layer, ∀ n, cache'.keyRows j n = cache.keyRows j n ∧
          cache'.valueRows j n = cache.valueRows j n)
      (fun _ _ => False) cache := by
  rw [append]
  simp only [hpos, if_true, wp_bind, wp_get, not_lt.mpr hroom, if_false, wp_set]
  refine ⟨trivial, trivial, map_copyInto_self _ _ _ _, ?_, ?_⟩
  · rw [← hlen]
    exact map_copyInto_self _ _ _ _
  · intro j hj n
    simp only [keyRows, valueRows, copyInto_of_ne _ hj, and_self]

/-- A cache in the middle of a forward pass: the layers before `l` hold the keys and values of the old
tokens and the chunk, the others those of the old tokens. -/
structure HoldsBelow (M : CudaModel K) (ids chunk : List Int) (l : Nat) (cache : GpuKVCache K) : Prop where
  length : cache.length = ids.length
  old : ∀ j < M.config.numHiddenLayers, l ≤ j → cache.keyRows j ids.length = M.decoder.keys j ids ∧
    cache.valueRows j ids.length = M.decoder.values j ids
  new : ∀ j < l, cache.keyRows j (ids.length + chunk.length) = M.decoder.keys j (ids ++ chunk) ∧
    cache.valueRows j (ids.length + chunk.length) = M.decoder.values j (ids ++ chunk)

abbrev Holds (M : CudaModel K) (ids : List Int) (cache : GpuKVCache K) : Prop :=
  HoldsBelow M ids [] 0 cache

variable {M : CudaModel K} {ids chunk : List Int} {l : Nat} {cache : GpuKVCache K}

theorem HoldsBelow.start (h : Holds M ids cache) (chunk : List Int) : HoldsBelow M ids chunk 0 cache :=
  ⟨h.length, h.old, fun _ hj => absurd hj (Nat.not_lt_zero _)⟩

theorem HoldsBelow.advance (h : HoldsBelow M ids chunk M.config.numHiddenLayers cache) :
    Holds M (ids ++ chunk) (cache.advance chunk.length) := by
  refine ⟨?_, ?_, fun _ hj => absurd hj (Nat.not_lt_zero _)⟩
  · rw [List.length_append, ← h.length]
    rfl
  · intro j hj _
    rw [List.length_append]
    exact h.new j hj

theorem HoldsBelow.wp_append (h : HoldsBelow M ids chunk l cache) (hl : l < M.config.numHiddenLayers)
    (hchunk : chunk ≠ []) (hroom : (ids.length + chunk.length : Int) ≤ cache.capacity) :
    wp (append l ((M.decoder.block l).keysFrom ids.length (M.decoder.chunkRows l ids chunk))
        ((M.decoder.block l).valuesFrom ids.length (M.decoder.chunkRows l ids chunk)) chunk.length)
      (fun _ cache' => HoldsBelow M ids chunk (l + 1) cache' ∧ cache'.capacity = cache.capacity)
      (fun _ _ => False) cache := by
  generalize hk : (M.decoder.block l).keysFrom ids.length (M.decoder.chunkRows l ids chunk) = k
  generalize hv : (M.decoder.block l).valuesFrom ids.length (M.decoder.chunkRows l ids chunk) = v
  have hklen : k.length = chunk.length := by simp [← hk]
  have hvlen : v.length = chunk.length := by simp [← hv]
  have hpos := List.length_pos_iff.mpr hchunk
  rw [← h.length, ← hklen] at hroom
  rw [← hklen] at hpos ⊢
  obtain ⟨hkeys, hvalues⟩ := h.old l hl le_rfl
  apply wp_mono (GpuKVCache.wp_append l (hvlen.trans hklen.symm) hpos hroom) ?_ fun _ _ hf => hf
  rintro _ cache' ⟨hlength, hcapacity, hkeys', hvalues', hothers⟩
  rw [h.length, hklen] at hkeys' hvalues'
  refine ⟨⟨hlength.trans h.length, ?_, ?_⟩, hcapacity⟩
  · intro j hj hlj
    rw [(hothers j (by omega) _).1, (hothers j (by omega) _).2]
    exact h.old j hj (by omega)
  · intro j hj
    by_cases hjl : j = l
    · rw [hjl, hkeys', hvalues', hkeys, hvalues, M.decoder.keys_chunk, M.decoder.values_chunk, hk, hv]
      exact ⟨rfl, rfl⟩
    · rw [(hothers j hjl _).1, (hothers j hjl _).2]
      exact h.new j (by omega)

theorem HoldsBelow.rows_succ (h : HoldsBelow M ids chunk (l + 1) cache) :
    cache.keyRows l (ids.length + chunk.length) = M.decoder.keys l (ids ++ chunk) ∧
      cache.valueRows l (ids.length + chunk.length) = M.decoder.values l (ids ++ chunk) :=
  h.new l (Nat.lt_succ_self l)

end GpuKVCache

namespace CudaModel

open GpuKVCache

variable {K : Type} {M : CudaModel K}

/-! ### One sequence -/

section Cached

variable {ids chunk : List Int} {cache : GpuKVCache K}

theorem wp_layerCached {l : Nat} (hl : l < M.config.numHiddenLayers) (hchunk : chunk ≠ [])
    (h : HoldsBelow M ids chunk l cache) (hroom : (ids.length + chunk.length : Int) ≤ cache.capacity) :
    wp (M.layerCached ids.length ((List.range chunk.length).map (ids.length + ·))
        (M.decoder.chunkRows l ids chunk) l)
      (fun x cache' => x = M.decoder.chunkRows (l + 1) ids chunk ∧ HoldsBelow M ids chunk (l + 1) cache' ∧
        cache'.capacity = cache.capacity)
      (fun _ _ => False) cache := by
  have hz : ∀ z : Nat → Row K → Row K,
      List.zipWith z ((List.range chunk.length).map (ids.length + ·)) (M.decoder.chunkRows l ids chunk) =
        (M.decoder.chunkRows l ids chunk).mapIdx fun i x => z (ids.length + i) x :=
    fun z => zipWith_positions z _ (M.decoder.length_chunkRows l ids chunk)
  rw [layerCached]
  simp only [hz, wp_bind, List.length_map, List.length_range, wp_get, wp_pure]
  apply wp_mono (h.wp_append hl hchunk hroom) ?_ fun _ _ hf => hf
  rintro _ cache' ⟨h', hcapacity⟩
  refine ⟨?_, h', hcapacity⟩
  rw [h'.rows_succ.1, h'.rows_succ.2, attention_chunk, M.decoder.chunkRows_succ]

/-- **A chunk** over a cache with room. -/
theorem wp_forwardCached (hchunk : chunk ≠ []) (h : Holds M ids cache)
    (hroom : (ids.length + chunk.length : Int) ≤ cache.capacity) :
    wp (M.forwardCached chunk)
      (fun logits cache' => logits = (M.logits (ids ++ chunk)).drop ids.length ∧
        Holds M (ids ++ chunk) cache' ∧ cache'.capacity = cache.capacity)
      (fun _ _ => False) cache := by
  rw [forwardCached]
  simp only [hchunk, if_false, wp_bind, wp_pure, wp_get, wp_modify, h.length]
  have hloop := wp_foldlM_range
    (I := fun l x (cache' : GpuKVCache K) => x = M.decoder.chunkRows l ids chunk ∧
      HoldsBelow M ids chunk l cache' ∧ cache'.capacity = cache.capacity)
    (E := fun _ (_ : GpuKVCache K) => False)
    (f := M.layerCached ids.length ((List.range chunk.length).map (ids.length + ·)))
    M.config.numHiddenLayers ?_ ⟨rfl, h.start chunk, rfl⟩
  · rw [M.decoder.chunkRows_zero] at hloop
    apply wp_mono hloop ?_ fun _ _ hf => hf
    rintro x cache' ⟨rfl, h', hcapacity⟩
    refine ⟨?_, h'.advance, hcapacity⟩
    rw [logits, Causal.Decoder.hidden_append_drop, List.map_append, List.drop_left' (by simp), List.map_map]
    rfl
  · rintro l x cache' hl ⟨rfl, h', hcapacity⟩
    apply wp_mono (wp_layerCached hl hchunk h' (by rwa [hcapacity])) ?_ fun _ _ hf => hf
    rintro x' cache'' ⟨rfl, h'', hcapacity'⟩
    exact ⟨rfl, h'', hcapacity'.trans hcapacity⟩

theorem wp_forwardCached_full (hlayers : 0 < M.config.numHiddenLayers) (hchunk : chunk ≠ [])
    (hfull : cache.capacity < (cache.length + chunk.length : Int)) :
    wp (M.forwardCached chunk) (fun _ _ => False)
      (fun e _ => e = .runtimeError "GpuKVCache: capacity exceeded") cache := by
  obtain ⟨n, hn⟩ := Nat.exists_eq_add_of_lt hlayers
  have hpos := List.length_pos_iff.mpr hchunk
  rw [forwardCached]
  simp only [hchunk, if_false, wp_bind, wp_pure, wp_get, hn, Nat.zero_add]
  rw [List.range_succ_eq_map, List.foldlM_cons, wp_bind, layerCached]
  simp only [append, wp_bind, wp_get, wp_throw, List.length_map, List.length_range, hpos, hfull, if_true]

theorem holds_create (capacity : Int) :
    Holds M [] (⟨capacity, 0, fun _ _ => [], fun _ _ => []⟩ : GpuKVCache K) := by
  refine ⟨rfl, fun j _ _ => ?_, fun _ hj => absurd hj (Nat.not_lt_zero _)⟩
  rw [Causal.Decoder.keys_nil, Causal.Decoder.values_nil]
  exact ⟨rfl, rfl⟩

theorem forward_eq (hlayers : 0 < M.config.numHiddenLayers) (hdim : 0 < M.kvDim) (hids : ids ≠ []) :
    M.forward ids = .ok (M.logits ids) := by
  have hpos := List.length_pos_iff.mpr hids
  obtain ⟨logits, cache', hrun, hlogits, -⟩ := wp_returns
    (wp_forwardCached (M := M) hids (holds_create (ids.length : Int)) (by simp))
  rw [forward, create, if_neg (by omega)]
  simp [bind, Except.bind, hrun, hlogits]

end Cached

/-! ### A batch -/

/-- The item that feeds tokens to the cache at an address. -/
def cacheItem (f : Feed) : GpuBatchItem := ⟨some f.1, f.2⟩

/-- A batch of caches that are filled below a layer, and the other caches as they were. -/
structure Filled (M : CudaModel K) (fed : Nat → List Int) (feeds : List Feed) (start : GpuCaches K)
    (l i : Nat) (caches : GpuCaches K) : Prop where
  holds : ∀ j f, feeds[j]? = some f →
    HoldsBelow M (fed f.1) f.2 (if j < i then l + 1 else l) (caches f.1)
  capacity : ∀ a, (caches a).capacity = (start a).capacity
  others : ∀ a, a ∉ feeds.map Prod.fst → caches a = start a

section Batch

variable {fed : Nat → List Int} {feeds : List Feed} {start : GpuCaches K}

/-- What the callback over contiguous caches fetches. -/
def fetchCache (addresses : List Nat) : Fetch (GpuCaches K) K := fun l i len past k v => do
  let address := addresses.getD i 0
  onCache address (append l k v len)
  let cache := (← get) address
  return (cache.keyRows l (past + len), cache.valueRows l (past + len))

theorem attendCache_eq (addresses : List Nat) :
    M.attendCache addresses = M.attendOver (fetchCache addresses) := by
  funext l i len past q k v
  simp only [attendCache, attendOver, fetchCache, bind_assoc, pure_bind]

/-- Contiguous caches with room at distinct addresses serve a batch. -/
theorem fetches_fetchCache (hnodup : (feeds.map Prod.fst).Nodup) (hnonempty : ∀ f ∈ feeds, f.2 ≠ [])
    (hroom : ∀ f ∈ feeds, ((fed f.1).length + f.2.length : Int) ≤ (start f.1).capacity) :
    Fetches M (fetchCache (feeds.map Prod.fst)) (fun i => fed ((feeds.map Prod.fst).getD i 0))
      (feeds.map Prod.snd) (Filled M fed feeds start) where
  fetch := by
    rintro l hl ⟨i, tokens⟩ hf caches h
    have hget := mem_feedsFrom hf
    rw [List.getElem?_map, Option.map_eq_some_iff] at hget
    obtain ⟨f, hfi, rfl⟩ := hget
    have hmem := List.mem_of_getElem? hfi
    have haddress : (feeds.map Prod.fst).getD i 0 = f.1 := by
      rw [List.getD_eq_getElem?_getD, List.getElem?_map, hfi]
      rfl
    have hold := h.holds i f hfi
    rw [if_neg (lt_irrefl i)] at hold
    dsimp only
    rw [haddress, fetchCache]
    simp only [haddress, onCache, wp_bind, wp_zoom, wp_get, wp_pure, Function.update_self]
    apply wp_mono (hold.wp_append hl (hnonempty f hmem) (by rw [h.capacity]; exact hroom f hmem)) ?_
      fun _ _ hf => hf
    rintro _ cache' ⟨hcache, hcapacity⟩
    refine ⟨by rw [hcache.rows_succ.1, hcache.rows_succ.2], ?_, ?_, ?_⟩
    · intro j g hg
      by_cases hji : j = i
      · subst hji
        rw [hfi, Option.some.injEq] at hg
        subst hg
        rw [if_pos (Nat.lt_succ_self j), Function.update_self]
        exact hcache
      · have hne : g.1 ≠ f.1 := by
          intro heq
          have hj' : (feeds.map Prod.fst)[j]? = some f.1 := by rw [List.getElem?_map, hg, ← heq]; rfl
          have hi' : (feeds.map Prod.fst)[i]? = some f.1 := by rw [List.getElem?_map, hfi]; rfl
          exact hji ((List.getElem?_inj (List.getElem?_eq_some_iff.mp hj').1 hnodup).mp (hj'.trans hi'.symm))
        rw [Function.update_of_ne hne]
        have hiff : j < i + 1 ↔ j < i := by omega
        simp only [hiff]
        exact h.holds j g hg
    · intro a
      by_cases ha : a = f.1
      · rw [ha, Function.update_self, hcapacity, h.capacity]
      · rw [Function.update_of_ne ha, h.capacity]
    · intro a ha
      have hne : a ≠ f.1 := by
        rintro rfl
        exact ha (List.mem_map_of_mem hmem)
      rw [Function.update_of_ne hne, h.others a ha]
  layer := by
    intro l hl caches h
    refine ⟨fun j f hf => ?_, h.capacity, h.others⟩
    have hj := (List.getElem?_eq_some_iff.mp hf).1
    have hholds := h.holds j f hf
    rw [List.length_map, if_pos hj] at hholds
    rwa [if_neg (Nat.not_lt_zero j)]

theorem wp_cacheOf (message : String) (feeds : List Feed) (start : GpuCaches K) :
    wp ((feeds.map cacheItem).mapM (cacheOf message))
      (fun addresses caches => addresses = feeds.map Prod.fst ∧ caches = start)
      (fun _ _ => False) start := by
  induction feeds with
  | nil => exact ⟨rfl, rfl⟩
  | cons f feeds ih =>
    simp only [List.map_cons, List.mapM_cons, wp_bind, wp_pure]
    apply wp_mono ih ?_ fun _ _ hf => hf
    rintro addresses caches ⟨rfl, rfl⟩
    exact ⟨rfl, rfl⟩

theorem wp_advance (hnodup : (feeds.map Prod.fst).Nodup) (caches : GpuCaches K) :
    wp (forM ((feeds.map Prod.fst).zip (feeds.map cacheItem)) fun (address, item) =>
        (modify fun caches : GpuCaches K =>
          Function.update caches address ((caches address).advance item.tokens.length) :
            EStateM Error (GpuCaches K) PUnit))
      (fun _ caches' => (∀ f ∈ feeds, caches' f.1 = (caches f.1).advance f.2.length) ∧
        ∀ a, a ∉ feeds.map Prod.fst → caches' a = caches a)
      (fun _ _ => False) caches := by
  induction feeds generalizing caches with
  | nil => exact ⟨by simp, fun _ _ => rfl⟩
  | cons f feeds ih =>
    simp only [List.map_cons, List.nodup_cons] at hnodup
    simp only [List.map_cons, List.zip_cons_cons, List.forM_cons, wp_bind, wp_modify]
    apply wp_mono (ih hnodup.2 _) ?_ fun _ _ hf => hf
    rintro _ caches' ⟨hfeeds, hothers⟩
    refine ⟨?_, fun a ha => ?_⟩
    · rintro g (_ | ⟨_, hg⟩)
      · rw [hothers f.1 hnodup.1, Function.update_self]
        rfl
      · have hne : g.1 ≠ f.1 := fun heq => hnodup.1 (heq ▸ List.mem_map_of_mem hg)
        rw [hfeeds g hg, Function.update_of_ne hne]
    · simp only [List.mem_cons, not_or] at ha
      rw [hothers a ha.2, Function.update_of_ne ha.1]

theorem map_feedsFrom_fed (fed : Nat → List Int) (feeds : List Feed) :
    ((feedsFrom (feeds.map Prod.snd) 0).map fun f =>
      M.lastLogits (fed ((feeds.map Prod.fst).getD f.1 0) ++ f.2)) =
      feeds.map fun f => M.lastLogits (fed f.1 ++ f.2) := by
  apply List.ext_getElem
  · simp [feedsFrom]
  · intro i _ hi
    have hi' : i < feeds.length := by simpa using hi
    simp [feedsFrom, hi']

theorem getD_pasts {past : Nat → Nat} (hpast : ∀ f ∈ feeds, past f.1 = (fed f.1).length) :
    ∀ i < (feeds.map Prod.snd).length,
      ((feeds.map Prod.fst).map past).getD i 0 = (fed ((feeds.map Prod.fst).getD i 0)).length := by
  intro i hi
  have hi' : i < feeds.length := by simpa using hi
  have hlength := hpast feeds[i] (List.getElem_mem hi')
  simpa [List.getD_eq_getElem?_getD, hi'] using hlength

theorem filled_start (hholds : ∀ f ∈ feeds, Holds M (fed f.1) (start f.1)) :
    Filled M fed feeds start 0 0 start := by
  refine ⟨fun j f hf => ?_, fun _ => rfl, fun _ _ => rfl⟩
  rw [if_neg (Nat.not_lt_zero j)]
  exact (hholds f (List.mem_of_getElem? hf)).start f.2

theorem tokens_ne_nil (hnonempty : ∀ f ∈ feeds, f.2 ≠ []) : ∀ tokens ∈ feeds.map Prod.snd, tokens ≠ [] := by
  intro tokens ht
  obtain ⟨f, hf, rfl⟩ := List.mem_map.mp ht
  exact hnonempty f hf

theorem tokens_cacheItem (feeds : List Feed) :
    (feeds.map cacheItem).map GpuBatchItem.tokens = feeds.map Prod.snd := by
  rw [List.map_map]
  rfl

/-- **A batch over contiguous caches**: the last row of every item's plain run, and caches that hold
everything. -/
theorem wp_forwardBatchCaches (fed : Nat → List Int) (message : String) (hne : feeds ≠ [])
    (hnodup : (feeds.map Prod.fst).Nodup) (hnonempty : ∀ f ∈ feeds, f.2 ≠ [])
    (hholds : ∀ f ∈ feeds, Holds M (fed f.1) (start f.1))
    (hroom : ∀ f ∈ feeds, ((fed f.1).length + f.2.length : Int) ≤ (start f.1).capacity) :
    wp (M.forwardBatchCaches message (feeds.map cacheItem))
      (fun logits caches => logits = feeds.map (fun f => M.lastLogits (fed f.1 ++ f.2)) ∧
        (∀ f ∈ feeds, Holds M (fed f.1 ++ f.2) (caches f.1)) ∧
        (∀ a, (caches a).capacity = (start a).capacity) ∧
        ∀ a, a ∉ feeds.map Prod.fst → caches a = start a)
      (fun _ _ => False) start := by
  rw [forwardBatchCaches]
  simp only [wp_bind, wp_get]
  apply wp_mono (wp_cacheOf message feeds start) ?_ fun _ _ hf => hf
  rintro _ caches ⟨rfl, rfl⟩
  rw [tokens_cacheItem, attendCache_eq]
  apply wp_mono (wp_forwardBatchDevice (fetches_fetchCache hnodup hnonempty hroom).serves (by simpa using hne)
    (tokens_ne_nil hnonempty) (getD_pasts fun f hf => (hholds f hf).length) (filled_start hholds)) ?_
    fun _ _ hf => hf
  · rintro logits caches' ⟨rfl, hholds', hcapacity, hothers⟩
    apply wp_mono (wp_advance hnodup caches') ?_ fun _ _ hf => hf
    rintro _ caches'' ⟨hadvanced, hkept⟩
    refine ⟨map_feedsFrom_fed fed feeds, fun f hf => ?_, fun a => ?_, fun a ha => ?_⟩
    · obtain ⟨j, hj⟩ := List.mem_iff_getElem?.mp hf
      have hfull := hholds' j f hj
      rw [if_neg (Nat.not_lt_zero j)] at hfull
      rw [hadvanced f hf]
      exact hfull.advance
    · by_cases ha : a ∈ feeds.map Prod.fst
      · obtain ⟨f, hf, rfl⟩ := List.mem_map.mp ha
        rw [hadvanced f hf, ← hcapacity]
        rfl
      · rw [hkept a ha, hothers a ha]
    · rw [hkept a ha, hothers a ha]

end Batch

end CudaModel

end InferenceEngine
