import InferenceEngine.Cuda.DeviceCaches

/-!
# Runs of calls on device caches

Caches are made, fed chunk by chunk, and fed in batches, and a call may fail for want of room. What a cache has
committed no failing call touches, so a run need not avoid them: after any run, a batch gives the last logits that the
host's forward pass gives for everything a cache was fed, and the argmax kernel picks the tokens that greedy decoding
on the host picks.
-/

namespace InferenceEngine

open Exec

namespace Device

/-! ### What a call that fails leaves alone -/

namespace GpuKVCache

variable {kvDim : Nat} {K : Type}

/-- What counts of a cache: its bounds, and the rows up to its length. -/
def committed (cache : GpuKVCache kvDim K) : Int × Nat × (Nat → Rows K) × (Nat → Rows K) :=
  (cache.capacity, cache.length, fun l => readRows kvDim cache.length (cache.keys l),
    fun l => readRows kvDim cache.length (cache.values l))

theorem readRows_copyInto (buffers : Nat → Nat → K) (layer off : Nat) (src : Nat → K) (n l : Nat) :
    readRows kvDim off (copyInto kvDim buffers layer off src n l) = readRows kvDim off (buffers l) := by
  apply List.map_congr_left
  intro r hr
  have hr := List.mem_range.mp hr
  have hrow : readRow kvDim (copyInto kvDim buffers layer off src n l) r = _ :=
    congrFun (congrFun (toRows_copyInto buffers layer off src n) l) r
  rw [hrow, InferenceEngine.GpuKVCache.copyInto]
  by_cases hl : l = layer
  · rw [hl, Function.update_self, if_neg (by omega)]
  · rw [Function.update_of_ne hl]

theorem leaves_append (layer : Nat) (k v : Nat → K) (n : Nat) :
    Leaves (committed : GpuKVCache kvDim K → _) (append layer k v n) := by
  rw [append]
  split
  · intro cache
    rw [wp_bind, wp_get]
    split
    · rw [wp_bind, wp_throw]
    · rw [wp_modify, committed, committed]
      dsimp only
      simp only [readRows_copyInto]
  · exact leaves_pure _

theorem committed_append_room {layer n : Nat} {k v : Nat → K} {cache : GpuKVCache kvDim K} :
    wp (append layer k v n) (fun _ _ => n = 0 ∨ (cache.length + n : Int) ≤ cache.capacity) (fun _ _ => True) cache := by
  rw [append]
  split
  · next hn =>
    rw [wp_bind, wp_get]
    split
    · rw [wp_bind, wp_throw]
      trivial
    · next hroom =>
      rw [wp_modify]
      exact .inr (not_lt.mp hroom)
  · next hn =>
    exact .inl (Nat.eq_zero_of_not_pos hn)

end GpuKVCache

namespace GpuCaches

variable {kvDim : Nat} {K A : Type}

/-- What counts of all caches. -/
def committed (caches : GpuCaches kvDim K) (a : Nat) : Int × Nat × (Nat → Rows K) × (Nat → Rows K) :=
  (caches a).committed

theorem leaves_onCache (address : Nat) {x : EStateM Error (GpuKVCache kvDim K) A} (h : Leaves GpuKVCache.committed x) :
    Leaves committed (onCache address x) := by
  rw [onCache]
  apply leaves_zoom h
  intro caches cache hcache
  funext a
  rw [committed, committed]
  by_cases ha : a = address
  · rw [ha, Function.update_self, hcache]
  · rw [Function.update_of_ne ha]

end GpuCaches

namespace CudaModel

variable {K S P : Type} [Field K] [LinearOrder K] {M : CudaModel K}

theorem leaves_forwardBatchDevice {part : S → P} {attend : Attend S K}
    (h : ∀ l i len past q k v attn, Leaves part (attend l i len past q k v attn)) (run : BatchRun K)
    (lists : List (List Int)) (pasts : List Nat) : Leaves part (M.forwardBatchDevice run attend lists pasts) := by
  rw [forwardBatchDevice]
  split
  · exact leaves_throw_bind _ _
  split
  · exact leaves_throw_bind _ _
  apply (leaves_lift _).bind
  intro embed
  apply Leaves.bind
  · apply Leaves.foldlM
    intro d l
    apply (leaves_lift _).bind
    intro d
    apply Leaves.bind
    · apply Leaves.foldlM
      intro attn slot
      apply Leaves.bind (h l slot.blocks slot.len slot.past _ _ _ _)
      exact fun _ => leaves_pure _
    · exact fun _ => leaves_lift _
  · intro d
    exact (leaves_lift _).bind fun _ => leaves_pure _

theorem leaves_attendCache (launch : Nat → Nat → Launch K) (addresses : List Nat) (l i len past : Nat)
    (q k v attn : Nat → K) : Leaves GpuCaches.committed (M.attendCache launch addresses l i len past q k v attn) := by
  rw [attendCache]
  apply (GpuCaches.leaves_onCache _ (GpuKVCache.leaves_append l k v len)).bind
  intro _
  apply leaves_get.bind
  intro caches
  exact leaves_lift _

/-! ### A call that returns had room -/

def Room (caches : GpuCaches M.checkpoint.kvDim K) (address n : Nat) : Prop :=
  ((caches address).length + n : Int) ≤ (caches address).capacity

theorem room_congr {caches caches' : GpuCaches M.checkpoint.kvDim K} (h : caches'.committed = caches.committed)
    (address n : Nat) : Room caches' address n ↔ Room caches address n := by
  have ha := congrFun h address
  rw [GpuCaches.committed, GpuCaches.committed, GpuKVCache.committed, GpuKVCache.committed, Prod.mk.injEq,
    Prod.mk.injEq] at ha
  rw [Room, Room, ha.1, ha.2.1]

theorem wp_attendCache_room (launch : Nat → Nat → Launch K) (addresses : List Nat) (l i len past : Nat)
    (q k v attn : Nat → K) (caches : GpuCaches M.checkpoint.kvDim K) :
    wp (M.attendCache launch addresses l i len past q k v attn)
      (fun _ _ => len = 0 ∨ Room caches (addresses.getD i 0) len) (fun _ _ => True) caches := by
  rw [attendCache, wp_bind, GpuCaches.onCache, wp_zoom]
  apply wp_mono GpuKVCache.committed_append_room ?_ fun _ _ _ => trivial
  intro _ cache hroom
  rw [wp_bind, wp_get]
  exact wp_mono (wp_true _) (fun _ _ _ => hroom) fun _ _ _ => trivial

theorem wp_layerBatch_room (launch attend : Nat → Nat → Launch K) (addresses : List Nat) (slots : List BatchSlot)
    (positions : List Nat) (d : Arrays K) (l : Nat) (caches : GpuCaches M.checkpoint.kvDim K) :
    wp (M.layerBatch (M.attendCache attend addresses) launch slots positions d l)
      (fun _ _ => ∀ slot ∈ slots, slot.len = 0 ∨ Room caches (addresses.getD slot.blocks 0) slot.len)
      (fun _ _ => True) caches := by
  rw [layerBatch]
  cases hinputs : M.layerInputs (launch l) l positions d with
  | error e => trivial
  | ok d' =>
    rw [lift_ok_bind, wp_bind]
    refine wp_mono (wp_foldlM (I := fun left _ (s : GpuCaches M.checkpoint.kvDim K) =>
      s.committed = caches.committed ∧ ∀ slot ∈ slots,
        slot ∈ left ∨ slot.len = 0 ∨ Room caches (addresses.getD slot.blocks 0) slot.len)
      (E := fun _ _ => True) ?_ slots d'.attn caches ⟨rfl, fun _ hslot => .inl hslot⟩) ?_ fun _ _ _ => trivial
    · intro slot left attn s hs
      obtain ⟨hcommitted, hrooms⟩ := hs
      rw [wp_bind]
      apply wp_mono (wp_and (leaves_attendCache attend addresses l slot.blocks slot.len slot.past _ _ _ _ s)
        (wp_attendCache_room attend addresses l slot.blocks slot.len slot.past _ _ _ _ s)) ?_ fun _ _ _ => trivial
      intro new s' hs'
      rw [wp_pure]
      refine ⟨hs'.1.trans hcommitted, fun slot' hslot' => ?_⟩
      obtain hmem | hroom := hrooms slot' hslot'
      · obtain rfl | hleft := List.mem_cons.mp hmem
        · right
          rw [← room_congr hcommitted]
          exact hs'.2
        · exact .inl hleft
      · exact .inr hroom
    · intro attn s hs
      apply wp_mono (wp_true _) ?_ fun _ _ _ => trivial
      intro _ _ _ slot hslot
      obtain hleft | hroom := hs.2 slot hslot
      · exact absurd hleft List.not_mem_nil
      · exact hroom

omit [Field K] [LinearOrder K] in
theorem exists_slot (pasts : List Nat) {lists : List (List Int)} {i : Nat} {tokens : List Int}
    (h : lists[i]? = some tokens) (n total : Nat) :
    ∃ slot ∈ InferenceEngine.CudaModel.layoutFrom pasts lists n total,
      slot.blocks = n + i ∧ slot.len = tokens.length := by
  induction lists generalizing i n total with
  | nil => exact absurd h (by simp)
  | cons first lists ih =>
    rw [InferenceEngine.CudaModel.layoutFrom]
    cases i with
    | zero =>
      rw [List.getElem?_cons_zero, Option.some.injEq] at h
      exact ⟨_, List.mem_cons_self, rfl, congrArg List.length h⟩
    | succ i =>
      obtain ⟨slot, hslot, hblocks, hlen⟩ := ih (List.getElem?_cons_succ ▸ h) (n + 1) (total + first.length)
      exact ⟨slot, List.mem_cons_of_mem _ hslot, by omega, hlen⟩

theorem wp_forwardBatchDevice_room (run : BatchRun K) (launch : Nat → Nat → Launch K) (addresses : List Nat)
    (lists : List (List Int)) (pasts : List Nat) (caches : GpuCaches M.checkpoint.kvDim K) :
    wp (M.forwardBatchDevice run (M.attendCache launch addresses) lists pasts)
      (fun _ _ => lists ≠ [] ∧ ∀ i tokens, lists[i]? = some tokens →
        tokens ≠ [] ∧ Room caches (addresses.getD i 0) tokens.length) (fun _ _ => True) caches := by
  rw [forwardBatchDevice]
  split
  · trivial
  split
  · trivial
  next hne hany =>
  dsimp only
  obtain ⟨n, hn⟩ := Nat.exists_eq_add_of_lt M.checkpoint.numHiddenLayers_pos
  rw [weight_tensor M.checkpoint.embed, lift_ok_bind, hn, Nat.zero_add, List.range_succ_eq_map, List.foldlM_cons,
    wp_bind, wp_bind]
  apply wp_mono (wp_layerBatch_room ..) ?_ fun _ _ _ => trivial
  intro d s hrooms
  apply wp_mono (wp_true _) ?_ fun _ _ _ => trivial
  intro d s _
  apply wp_mono (wp_true _) ?_ fun _ _ _ => trivial
  intro _ _ _
  refine ⟨hne, fun i tokens hi => ?_⟩
  have htokens : tokens ≠ [] := fun heq => hany (any_isEmpty.mpr (heq ▸ List.mem_of_getElem? hi))
  obtain ⟨slot, hslot, hblocks, hlen⟩ := exists_slot pasts hi 0 0
  obtain hzero | hroom := hrooms slot hslot
  · exact absurd (hlen.symm.trans hzero) (List.length_pos_iff.mpr htokens).ne'
  · rw [hblocks, hlen, Nat.zero_add] at hroom
    exact ⟨htokens, hroom⟩

/-- What lets a batch through: it is not empty, and every item has tokens and the room for them. -/
structure Fits (caches : GpuCaches M.checkpoint.kvDim K) (feeds : List Feed) : Prop where
  nonempty : feeds ≠ []
  items : ∀ f ∈ feeds, f.2 ≠ [] ∧ Room caches f.1 f.2.length

theorem wp_forwardBatchCaches_fits (run : BatchRun K) (message : String) (feeds : List Feed)
    (caches : GpuCaches M.checkpoint.kvDim K) :
    wp (M.forwardBatchCaches run message (feeds.map InferenceEngine.CudaModel.cacheItem)) (fun _ _ => Fits caches feeds)
      (fun _ s => s.committed = caches.committed) caches := by
  have haddresses : wp ((feeds.map InferenceEngine.CudaModel.cacheItem).mapM (cacheOf message))
      (fun addresses s => addresses = feeds.map Prod.fst ∧ s = caches) (fun _ _ => False) caches := by
    induction feeds with
    | nil => exact ⟨rfl, rfl⟩
    | cons f feeds ih =>
      have hitem : (cacheOf message (InferenceEngine.CudaModel.cacheItem f) :
          EStateM Error (GpuCaches M.checkpoint.kvDim K) Nat) = pure f.1 := rfl
      rw [List.map_cons, List.mapM_cons, hitem, pure_bind, wp_bind]
      apply wp_mono ih ?_ fun _ _ hf => hf
      intro addresses s hs
      obtain ⟨rfl, rfl⟩ := hs
      exact ⟨rfl, rfl⟩
  rw [forwardBatchCaches, wp_bind]
  apply wp_mono haddresses ?_ fun _ _ hf => hf.elim
  intro addresses s hs
  obtain ⟨rfl, rfl⟩ := hs
  rw [wp_bind, wp_get, wp_bind, InferenceEngine.CudaModel.tokens_cacheItem]
  apply wp_mono (wp_and (leaves_forwardBatchDevice (leaves_attendCache run.attend _) run _ _ s)
    (wp_forwardBatchDevice_room run run.attend _ _ _ s))
  · intro logits s' hs'
    obtain ⟨-, hne, hrooms⟩ := hs'
    have hfits : Fits s feeds := by
      refine ⟨fun hnil => hne (by rw [hnil]; rfl), fun f hf => ?_⟩
      obtain ⟨i, hi⟩ := List.mem_iff_getElem?.mp hf
      have hitem := hrooms i f.2 (by rw [List.getElem?_map, hi]; rfl)
      rwa [List.getD_eq_getElem?_getD, List.getElem?_map, hi] at hitem
    rw [wp_bind]
    apply wp_mono (wp_forM (I := fun _ _ => True) (E := fun _ _ => False) ?_ _ _ trivial)
    · intro _ _ _
      exact hfits
    · exact fun _ _ hf => hf.elim
    · intro _ _ _ _
      trivial
  · exact fun _ s' hs' => hs'.1

theorem wp_forwardCached_fits (run : Run K) (chunk : List Int) (cache : GpuKVCache M.checkpoint.kvDim K) :
    wp (M.forwardCached run chunk) (fun _ _ => chunk ≠ [] ∧ (cache.length + chunk.length : Int) ≤ cache.capacity)
      (fun _ s => s.committed = cache.committed) cache := by
  by_cases hchunk : chunk = []
  · rw [forwardCached, if_pos hchunk]
    rfl
  have hkept : wp (M.forwardCached run chunk) (fun _ _ => True) (fun _ s => s.committed = cache.committed) cache := by
    have hloop : ∀ positions d, Leaves GpuKVCache.committed ((List.range M.checkpoint.config.numHiddenLayers).foldlM
        (M.layerCached run.layer cache.length positions) d) := by
      intro positions
      apply Leaves.foldlM
      intro d l
      apply (leaves_lift _).bind
      intro d
      apply Leaves.bind (GpuKVCache.leaves_append l d.k d.v positions.length)
      intro _
      apply leaves_get.bind
      intro cache
      exact (leaves_lift _).bind fun _ => leaves_lift _
    rw [forwardCached, if_neg hchunk, wp_bind, wp_get]
    dsimp only
    rw [weight_tensor M.checkpoint.embed, lift_ok_bind, wp_bind]
    apply wp_mono (hloop _ _ cache) ?_ fun _ _ h => h
    intro d s _
    rw [weight_tensor M.checkpoint.norm, wp_bind, wp_modify, lift_ok_bind]
    trivial
  by_cases hroom : (cache.length + chunk.length : Int) ≤ cache.capacity
  · exact wp_mono hkept (fun _ _ _ => ⟨hchunk, hroom⟩) fun _ _ h => h
  · exact wp_mono (wp_and hkept (wp_forwardCached_full run hchunk (not_le.mp hroom))) (fun _ _ h => h.2.elim)
      fun _ _ h => h.1

/-- What was committed is what a cache was fed. -/
theorem holds_of_committed {ids : List Int} {cache cache' : GpuKVCache M.checkpoint.kvDim K} (h : Holds M ids cache)
    (hcommitted : cache'.committed = cache.committed) : Holds M ids cache' := by
  rw [GpuKVCache.committed, GpuKVCache.committed, Prod.mk.injEq, Prod.mk.injEq, Prod.mk.injEq] at hcommitted
  obtain ⟨-, hlength, hkeys, hvalues⟩ := hcommitted
  have hids : cache.length = ids.length := h.length
  rw [hlength, hids] at hkeys hvalues
  refine ⟨hlength.trans hids, fun j hj hle => ?_, fun _ hj => absurd hj (Nat.not_lt_zero _)⟩
  obtain ⟨holdKeys, holdValues⟩ := h.old j hj hle
  exact ⟨(congrFun hkeys j).trans holdKeys, (congrFun hvalues j).trans holdValues⟩

end CudaModel

/-! ### Runs -/

/-- The caches, and the tokens that every cache was fed. -/
structure CachesRun (kvDim : Nat) (K : Type) where
  caches : GpuCaches kvDim K
  fed : Nat → List Int

/-- What a caller does: a new cache at an address, a chunk for one cache, a batch, or a batch that brings only tokens
back to the host. -/
inductive CacheCall (K : Type) where
  | create (address : Nat) (capacity : Int) (keys values : Nat → Nat → K)
  | chunk (run : Run K) (address : Nat) (tokens : List Int)
  | batch (run : BatchRun K) (feeds : List Feed)
  | argmax (run : BatchRun K) (lowest : K) (launch : ArgmaxLaunch K) (tokens : Nat → Nat) (feeds : List Feed)

namespace CachesRun

variable {K A : Type} [Field K] [LinearOrder K]

/-- The state after a call that feeds caches, if it returns. -/
def after {kvDim : Nat} (s : CachesRun kvDim K) (feeds : List Feed) (x : EStateM Error (GpuCaches kvDim K) A) :
    CachesRun kvDim K :=
  match x s.caches with
  | .ok _ caches => ⟨caches, InferenceEngine.BatchRun.feed s.fed feeds⟩
  | .error _ caches => ⟨caches, s.fed⟩

variable (M : CudaModel K)

/-- The device caches under calls. At first no address holds a cache. -/
def machine : Machine (CachesRun M.checkpoint.kvDim K) (CacheCall K) where
  start := ⟨fun _ => ⟨0, 0, fun _ _ => 0, fun _ _ => 0⟩, fun _ => []⟩
  next s
    | .create address capacity keys values =>
      match GpuKVCache.create M.checkpoint.config.numHiddenLayers capacity keys values with
      | .ok cache => ⟨Function.update s.caches address cache, Function.update s.fed address []⟩
      | .error _ => s
    | .chunk run address tokens => s.after [(address, tokens)] (GpuCaches.onCache address (M.forwardCached run tokens))
    | .batch run feeds => s.after feeds (M.forwardBatch run (feeds.map InferenceEngine.CudaModel.cacheItem))
    | .argmax run lowest launch tokens feeds =>
      s.after feeds (M.forwardBatchArgmax run lowest launch tokens (feeds.map InferenceEngine.CudaModel.cacheItem))

/-- Tokens of the vocabulary, for distinct caches. -/
structure Known (feeds : List Feed) : Prop where
  nodup : (feeds.map Prod.fst).Nodup
  vocab : ∀ f ∈ feeds, ∀ t ∈ f.2, 0 ≤ t ∧ t < M.checkpoint.config.vocabSize

variable {M} in
theorem Known.vocab_append {feeds : List Feed} (h : Known M feeds) {fed : Nat → List Int}
    (hfed : ∀ i, ∀ t ∈ fed i, 0 ≤ t ∧ t < M.checkpoint.config.vocabSize) {f : Feed} (hf : f ∈ feeds) :
    ∀ t ∈ fed f.1 ++ f.2, 0 ≤ t ∧ t < M.checkpoint.config.vocabSize := by
  intro t ht
  obtain ht | ht := List.mem_append.mp ht
  · exact hfed f.1 t ht
  · exact h.vocab f hf t ht

variable {M} in
theorem Known.vocab_feed {feeds : List Feed} (h : Known M feeds) {fed : Nat → List Int}
    (hfed : ∀ i, ∀ t ∈ fed i, 0 ≤ t ∧ t < M.checkpoint.config.vocabSize) (i : Nat) :
    ∀ t ∈ InferenceEngine.BatchRun.feed fed feeds i, 0 ≤ t ∧ t < M.checkpoint.config.vocabSize := by
  by_cases hi : i ∈ feeds.map Prod.fst
  · obtain ⟨f, hf, rfl⟩ := List.mem_map.mp hi
    rw [InferenceEngine.BatchRun.feed_of_mem h.nodup hf]
    exact h.vocab_append hfed hf
  · rw [InferenceEngine.BatchRun.feed_of_not_mem hi]
    exact hfed i

/-- A call may fail, but its tokens are known and no batch has a cache twice. -/
def Allowed (_ : CachesRun M.checkpoint.kvDim K) : CacheCall K → Prop
  | .create _ _ _ _ => True
  | .chunk _ address tokens => Known M [(address, tokens)]
  | .batch _ feeds => Known M feeds
  | .argmax _ _ _ _ feeds => Known M feeds

variable {M} {s : CachesRun M.checkpoint.kvDim K} {feeds : List Feed}

/-- Every cache holds what it was fed. -/
structure Inv (M : CudaModel K) (s : CachesRun M.checkpoint.kvDim K) : Prop where
  holds : ∀ a, CudaModel.Holds M (s.fed a) (s.caches a)
  vocab : ∀ a, ∀ t ∈ s.fed a, 0 ≤ t ∧ t < M.checkpoint.config.vocabSize

/-- The batch that `forward_batch` and `forward_batch_argmax` share. -/
theorem Inv.wp_batch (h : Inv M s) (hknown : Known M feeds) (run : BatchRun K) (message : String) :
    wp (M.forwardBatchCaches run message (feeds.map InferenceEngine.CudaModel.cacheItem))
      (fun logits caches => CudaModel.Fits s.caches feeds ∧
        readRows M.checkpoint.config.vocabSize feeds.length logits =
          feeds.map (fun f => ((M.checkpoint.host M.math).logits (s.fed f.1 ++ f.2)).getLastD []) ∧
        ∀ a, CudaModel.Holds M (InferenceEngine.BatchRun.feed s.fed feeds a) (caches a))
      (fun _ caches => ¬CudaModel.Fits s.caches feeds ∧ caches.committed = s.caches.committed) s.caches := by
  by_cases hfits : CudaModel.Fits s.caches feeds
  · have hroom : ∀ f ∈ feeds, ((s.fed f.1).length + f.2.length : Int) ≤ (s.caches.toRows f.1).capacity := by
      intro f hf
      rw [← (h.holds f.1).length]
      exact (hfits.items f hf).2
    obtain ⟨rows, caches', hrun, hrows, hholds, -, hothers⟩ := wp_returns
      (InferenceEngine.CudaModel.wp_forwardBatchCaches (M := M.toRows) s.fed message hfits.nonempty hknown.nodup
        (fun f hf => (hfits.items f hf).1) (fun f _ => h.holds f.1) hroom)
    obtain ⟨logits, caches, hdevice, hlogits, hcaches⟩ :=
      CudaModel.follows_forwardBatchCaches run message _ s.caches _ rfl _ _ hrun
    subst hcaches
    rw [List.length_map, hrows] at hlogits
    apply wp_of_ok hdevice
    refine ⟨hfits, hlogits.trans ?_, fun a => ?_⟩
    · apply List.map_congr_left
      intro f _
      exact CudaModel.rowsOf_toRows.lastLogits _
    · by_cases ha : a ∈ feeds.map Prod.fst
      · obtain ⟨f, hf, rfl⟩ := List.mem_map.mp ha
        rw [InferenceEngine.BatchRun.feed_of_mem hknown.nodup hf]
        exact hholds f hf
      · rw [InferenceEngine.BatchRun.feed_of_not_mem ha]
        have hsame : (caches a).toRows = (s.caches a).toRows := hothers a ha
        rw [CudaModel.Holds, hsame]
        exact h.holds a
  · exact wp_mono (CudaModel.wp_forwardBatchCaches_fits run message feeds s.caches) (fun _ _ hf => absurd hf hfits)
      fun _ _ hs => ⟨hfits, hs⟩

theorem Inv.after (h : Inv M s) (hknown : Known M feeds) {x : EStateM Error (GpuCaches M.checkpoint.kvDim K) A}
    (hx : wp x (fun _ caches => ∀ a, CudaModel.Holds M (InferenceEngine.BatchRun.feed s.fed feeds a) (caches a))
      (fun _ caches => caches.committed = s.caches.committed) s.caches) : Inv M (s.after feeds x) := by
  rw [CachesRun.after]
  cases hrun : x s.caches with
  | ok out caches => exact ⟨wp_ok hx hrun, hknown.vocab_feed h.vocab⟩
  | error e caches =>
    have hcommitted := wp_error hx hrun
    exact ⟨fun a => CudaModel.holds_of_committed (h.holds a) (congrFun hcommitted a), h.vocab⟩

theorem Inv.wp_chunk (h : Inv M s) (run : Run K) {address : Nat} {tokens : List Int} :
    wp (GpuCaches.onCache address (M.forwardCached run tokens))
      (fun _ caches => ∀ a, CudaModel.Holds M (InferenceEngine.BatchRun.feed s.fed [(address, tokens)] a) (caches a))
      (fun _ caches => caches.committed = s.caches.committed) s.caches := by
  rw [GpuCaches.onCache, wp_zoom]
  by_cases hfits : tokens ≠ [] ∧ ((s.caches address).length + tokens.length : Int) ≤ (s.caches address).capacity
  · obtain ⟨htokens, hroom⟩ := hfits
    have hlength : (s.caches address).length = (s.fed address).length := (h.holds address).length
    rw [hlength] at hroom
    apply wp_mono (CudaModel.wp_forwardCached run htokens (h.holds address) hroom) ?_ fun _ _ hf => hf.elim
    intro _ cache hcache a
    by_cases ha : a = address
    · subst ha
      have hnodup : ([(a, tokens)].map Prod.fst).Nodup := List.nodup_singleton a
      have hfed : InferenceEngine.BatchRun.feed s.fed [(a, tokens)] a = s.fed a ++ tokens :=
        InferenceEngine.BatchRun.feed_of_mem hnodup List.mem_cons_self
      rw [hfed, Function.update_self]
      exact hcache.2.1
    · rw [InferenceEngine.BatchRun.feed_of_not_mem (by simpa using ha), Function.update_of_ne ha]
      exact h.holds a
  · apply wp_mono (CudaModel.wp_forwardCached_fits run tokens (s.caches address)) (fun _ _ hok => absurd hok hfits)
    intro _ cache hcache
    funext a
    rw [GpuCaches.committed, GpuCaches.committed]
    by_cases ha : a = address
    · rw [ha, Function.update_self, hcache]
    · rw [Function.update_of_ne ha]

theorem Inv.create (h : Inv M s) (address : Nat) {cache : GpuKVCache M.checkpoint.kvDim K} (hempty : cache.length = 0) :
    Inv M ⟨Function.update s.caches address cache, Function.update s.fed address []⟩ := by
  constructor
  · intro a
    dsimp only
    by_cases ha : a = address
    · rw [ha, Function.update_self, Function.update_self]
      exact CudaModel.holds_nil hempty
    · rw [Function.update_of_ne ha, Function.update_of_ne ha]
      exact h.holds a
  · intro a t ht
    dsimp only at ht
    by_cases ha : a = address
    · rw [ha, Function.update_self] at ht
      exact absurd ht List.not_mem_nil
    · rw [Function.update_of_ne ha] at ht
      exact h.vocab a t ht

theorem inv_reachable (hs : (machine M).Reachable (Allowed M) s) : Inv M s := by
  apply hs.invariant
  · exact ⟨fun _ => CudaModel.holds_nil rfl, fun _ _ ht => absurd ht List.not_mem_nil⟩
  intro s call _ h ha
  cases call with
  | create address capacity keys values =>
    rw [machine]
    dsimp only
    split
    · next cache hcreate => exact h.create address (GpuKVCache.create_ok hcreate).1
    · exact h
  | chunk run address tokens => exact h.after ha (h.wp_chunk run)
  | batch run feeds =>
    apply h.after ha
    rw [CudaModel.forwardBatch, wp_bind]
    exact wp_mono (h.wp_batch ha run _) (fun _ _ hs => hs.2.2) fun _ _ hs => hs.2
  | argmax run lowest launch tokens feeds =>
    apply h.after ha
    rw [CudaModel.forwardBatchArgmax, wp_bind]
    exact wp_mono (h.wp_batch ha run _) (fun _ _ hs => hs.2.2) fun _ _ hs => hs.2

/-- A row of a batch whose largest entry comes first at a token gives the greedy choice of the host. -/
theorem greedyNext_of_lastRow {N : Host.Model K} {ids : List Int} {out : Nn.Tensor K} {i token : Nat}
    (h : N.LastRow ids out i) (hpos : 0 < N.checkpoint.config.vocabSize)
    (htoken : Ranking.FirstMax (fun j => out.cell (i * N.checkpoint.config.vocabSize + j))
      N.checkpoint.config.vocabSize token) : N.greedyNext ids = some (token : Int) := by
  obtain ⟨whole, hwhole, hshape, hlast⟩ := h
  have hhost := firstMax_argmaxLastRow hshape hpos
  rw [Host.Model.greedyNext, hwhole, (htoken.congr hlast).unique hhost]

theorem forall₂_argmax {ids : Feed → List Int} {logits : Nat → K} (hfeeds : ∀ f ∈ feeds, ids f ≠ [])
    (hvocab : ∀ f ∈ feeds, ∀ t ∈ ids f, 0 ≤ t ∧ t < M.checkpoint.config.vocabSize)
    (hlogits : readRows M.checkpoint.config.vocabSize feeds.length logits =
      feeds.map fun f => ((M.checkpoint.host M.math).logits (ids f)).getLastD [])
    {lowest : K} (hlowest : ∀ f ∈ feeds, ∀ whole, M.host.forward (ids f) = .ok whole → ∀ x ∈ whole.data, lowest ≤ x)
    (launch : ArgmaxLaunch K) (tokens : Nat → Nat) :
    List.Forall₂ (fun f (token : Nat) => M.host.greedyNext (ids f) = some (token : Int)) feeds
      ((List.range feeds.length).map
        (CudaKernels.argmax lowest launch logits feeds.length M.checkpoint.config.vocabSize tokens)) := by
  rw [List.forall₂_iff_get]
  refine ⟨by rw [List.length_map, List.length_range], fun i hi _ => ?_⟩
  have hmem : feeds[i] ∈ feeds := List.getElem_mem hi
  have hpos : 0 < M.checkpoint.config.vocabSize := by
    obtain ⟨t, ht⟩ := List.exists_mem_of_ne_nil _ (hfeeds _ hmem)
    have := hvocab _ hmem t ht
    omega
  obtain ⟨whole, hwhole, hshape, hlast⟩ := Host.Model.lastRow_of_hasRows (M := M.host)
    (Nn.Tensor.hasRows_ofCells hlogits) (List.getElem?_eq_getElem hi) (hfeeds _ hmem) (hvocab _ hmem)
  have hcell : ∀ j < M.checkpoint.config.vocabSize,
      (Nn.Tensor.ofCells [feeds.length, M.checkpoint.config.vocabSize] logits).cell
        (i * M.checkpoint.config.vocabSize + j) = logits (i * M.checkpoint.config.vocabSize + j) := by
    intro j hj
    rw [Nn.Tensor.cell_ofCells]
    rw [Dims.numel_matrix]
    exact Loop.lt_work hi hj
  have hbound : ∀ j < M.checkpoint.config.vocabSize, lowest ≤ logits (i * M.checkpoint.config.vocabSize + j) := by
    intro j hj
    rw [← hcell j hj]
    refine le_of_le_of_eq ?_ (hlast j hj).symm
    apply hlowest _ hmem whole hwhole
    rw [Nn.Tensor.cell, List.getD_eq_getElem]
    · exact List.getElem_mem _
    · have hids := List.length_pos_iff.mpr (hfeeds _ hmem)
      rw [whole.size_eq, hshape, Dims.numel_matrix]
      exact Loop.lt_work (by omega) hj
  have hkernel := CudaKernels.firstMax_argmaxKernel hpos launch 8 logits hi hbound tokens
  rw [← CudaKernels.argmax_eq hpos (Nat.zero_lt_of_lt hi)] at hkernel
  rw [List.get_eq_getElem, List.get_eq_getElem, List.getElem_map, List.getElem_range]
  exact greedyNext_of_lastRow ⟨whole, hwhole, hshape, hlast⟩ hpos (hkernel.congr fun j hj => (hcell j hj).symm)

/-- **Batches on the device**: after any run of calls, that may have failed, a batch that fits gives for every item the
last row of the host's `forward` on everything its cache was fed, and the tokens of `forward_batch_argmax` are the
greedy choices of the host; a batch that does not fit fails and leaves what was committed. -/
theorem device_batches_eq_host (hs : (machine M).Reachable (Allowed M) s) (hknown : Known M feeds) (run : BatchRun K) :
    (CudaModel.Fits s.caches feeds →
      (∃ out caches, M.forwardBatch run (feeds.map InferenceEngine.CudaModel.cacheItem) s.caches = .ok out caches ∧
        out.shape = [feeds.length, M.checkpoint.config.vocabSize] ∧
        ∀ (i : Nat) (f : Feed), feeds[i]? = some f → M.host.LastRow (s.fed f.1 ++ f.2) out i ∧
          (caches f.1).length = (s.fed f.1 ++ f.2).length) ∧
      ∀ (lowest : K) (launch : ArgmaxLaunch K) (tokens : Nat → Nat),
        (∀ f ∈ feeds, ∀ whole, M.host.forward (s.fed f.1 ++ f.2) = .ok whole → ∀ x ∈ whole.data, lowest ≤ x) →
        ∃ picked caches, M.forwardBatchArgmax run lowest launch tokens
            (feeds.map InferenceEngine.CudaModel.cacheItem) s.caches = .ok picked caches ∧
          List.Forall₂ (fun f (token : Nat) => M.host.greedyNext (s.fed f.1 ++ f.2) = some (token : Int)) feeds
            picked) ∧
    (¬CudaModel.Fits s.caches feeds →
      (∃ e caches, M.forwardBatch run (feeds.map InferenceEngine.CudaModel.cacheItem) s.caches = .error e caches ∧
        caches.committed = s.caches.committed) ∧
      ∀ (lowest : K) (launch : ArgmaxLaunch K) (tokens : Nat → Nat), ∃ e caches,
        M.forwardBatchArgmax run lowest launch tokens (feeds.map InferenceEngine.CudaModel.cacheItem) s.caches =
            .error e caches ∧
          caches.committed = s.caches.committed) := by
  have h := inv_reachable hs
  have hvocab : ∀ f ∈ feeds, ∀ t ∈ s.fed f.1 ++ f.2, 0 ≤ t ∧ t < M.checkpoint.config.vocabSize :=
    fun f hf => hknown.vocab_append h.vocab hf
  constructor
  · intro hfits
    have hne : ∀ f ∈ feeds, s.fed f.1 ++ f.2 ≠ [] := fun f hf =>
      List.append_ne_nil_of_right_ne_nil _ (hfits.items f hf).1
    constructor
    · obtain ⟨logits, caches, hrun, hlogits, hholds⟩ := wp_returns
        (wp_mono (h.wp_batch hknown run "CudaModel::forward_batch: null cache") (fun _ _ hs => hs.2)
          fun _ _ hs => hs.1 hfits)
      have hrows := Nn.Tensor.hasRows_ofCells hlogits
      refine ⟨.ofCells [feeds.length, M.checkpoint.config.vocabSize] logits, caches, ?_, rfl, fun i f hf => ?_⟩
      · rw [CudaModel.forwardBatch, bind_of_ok hrun, List.length_map]
        rfl
      · have hmem := List.mem_of_getElem? hf
        refine ⟨Host.Model.lastRow_of_hasRows (M := M.host) hrows hf (hne f hmem) (hvocab f hmem), ?_⟩
        have hlength := (hholds f.1).length
        rw [InferenceEngine.BatchRun.feed_of_mem hknown.nodup hmem] at hlength
        exact hlength
    · intro lowest launch tokens hlowest
      obtain ⟨logits, caches, hrun, hlogits, -⟩ := wp_returns
        (wp_mono (h.wp_batch hknown run "CudaModel::forward_batch_argmax: null cache") (fun _ _ hs => hs.2)
          fun _ _ hs => hs.1 hfits)
      refine ⟨_, caches, ?_, forall₂_argmax hne hvocab hlogits hlowest launch tokens⟩
      rw [CudaModel.forwardBatchArgmax, bind_of_ok hrun, List.length_map]
      rfl
  · intro hfits
    have hfails : ∀ message, ∃ e caches, M.forwardBatchCaches run message
        (feeds.map InferenceEngine.CudaModel.cacheItem) s.caches = .error e caches ∧
          caches.committed = s.caches.committed := by
      intro message
      obtain ⟨e, caches, hrun, -, hcommitted⟩ := wp_throws
        (wp_mono (h.wp_batch hknown run message) (fun _ _ hs => hfits hs.1) fun _ _ hs => hs)
      exact ⟨e, caches, hrun, hcommitted⟩
    constructor
    · obtain ⟨e, caches, hrun, hcommitted⟩ := hfails "CudaModel::forward_batch: null cache"
      exact ⟨e, caches, by rw [CudaModel.forwardBatch, bind_of_error hrun], hcommitted⟩
    · intro lowest launch tokens
      obtain ⟨e, caches, hrun, hcommitted⟩ := hfails "CudaModel::forward_batch_argmax: null cache"
      exact ⟨e, caches, by rw [CudaModel.forwardBatchArgmax, bind_of_error hrun], hcommitted⟩

/-- Finitely many numbers have a lower bound. -/
theorem exists_lowest (forward : List Int → Except Error (Nn.Tensor K)) (lists : List (List Int)) :
    ∃ lowest, ∀ ids ∈ lists, ∀ whole, forward ids = .ok whole → ∀ x ∈ whole.data, lowest ≤ x := by
  induction lists with
  | nil => exact ⟨0, fun _ h => absurd h List.not_mem_nil⟩
  | cons ids lists ih =>
    obtain ⟨low, hlow⟩ := ih
    cases hforward : forward ids with
    | error e =>
      refine ⟨low, List.forall_mem_cons.mpr ⟨fun whole h => ?_, hlow⟩⟩
      rw [hforward] at h
      cases h
    | ok out =>
      refine ⟨(insert low out.data.toFinset).min' (Finset.insert_nonempty _ _), List.forall_mem_cons.mpr
        ⟨fun whole h x hx => ?_, fun i hi whole h x hx => ?_⟩⟩
      · rw [hforward] at h
        obtain rfl := Except.ok.inj h
        exact Finset.min'_le _ x (Finset.mem_insert_of_mem (List.mem_toFinset.mpr hx))
      · exact (Finset.min'_le _ low (Finset.mem_insert_self _ _)).trans (hlow i hi whole h x hx)

/-- Device arrays of sevens, and launches that run their threads in order. -/
noncomputable def tinyBatchRun : BatchRun ℝ :=
  let array : Nat → ℝ := fun _ => 7
  let launch : Launch ℝ := ⟨.ascending, fun _ => .ascending, fun _ => array⟩
  ⟨⟨array, array, array, array, array, array, array, array, array, array, array, array, array⟩, array, launch,
    fun _ _ => launch, fun _ _ => launch, launch, launch⟩

theorem device_batches_eq_host_fed :
    let M := CudaModel.tinyModel
    let run := tinyBatchRun
    let fresh : Nat → Nat → ℝ := fun _ _ => 7
    let m := machine M
    let s := m.next (m.next (m.next m.start (.create 0 4 fresh fresh)) (.create 1 3 fresh fresh))
      (.batch run [(0, [1, 2]), (1, [2])])
    let items := [(1, [0]), (0, [2])].map InferenceEngine.CudaModel.cacheItem
    let long := [(1, [0, 1, 2])].map InferenceEngine.CudaModel.cacheItem
    let argmax : ArgmaxLaunch ℝ := ⟨.ascending, fun _ => .ascending, fun _ _ => (0, 7)⟩
    (∃ out caches, M.forwardBatch run items s.caches = .ok out caches ∧ out.shape = [2, 3] ∧
      M.host.LastRow [2, 0] out 0) ∧
    (∃ lowest picked caches, M.forwardBatchArgmax run lowest argmax (fun _ => 0) items s.caches = .ok picked caches ∧
      List.Forall₂ (fun ids (token : Nat) => M.host.greedyNext ids = some (token : Int)) [[2, 0], [1, 2, 2]] picked) ∧
    (∃ e caches, M.forwardBatch run long s.caches = .error e caches ∧ caches.committed = s.caches.committed) ∧
    ∃ e caches, M.forwardBatchArgmax run 0 argmax (fun _ => 0) long s.caches = .error e caches ∧
      caches.committed = s.caches.committed := by
  intro M run fresh m s items long argmax
  have hvocab : ∀ f ∈ ([(0, [1, 2]), (1, [2]), (1, [0]), (0, [2]), (1, [0, 1, 2])] : List Feed),
      ∀ t ∈ f.2, 0 ≤ t ∧ t < (3 : Nat) := by
    decide
  have hknown : ∀ feeds : List Feed, (feeds.map Prod.fst).Nodup →
      feeds ⊆ [(0, [1, 2]), (1, [2]), (1, [0]), (0, [2]), (1, [0, 1, 2])] → Known M feeds :=
    fun feeds hnodup hsub => ⟨hnodup, fun f hf => hvocab f (hsub hf)⟩
  have hs : m.Reachable (Allowed M) s :=
    .next (.next (.next .start trivial) trivial) (hknown _ (by decide) (by decide))
  have hfits : CudaModel.Fits s.caches [(1, [0]), (0, [2])] := by
    refine ⟨by decide, ?_⟩
    simp only [List.forall_mem_cons]
    refine ⟨⟨by decide, ?_⟩, ⟨by decide, ?_⟩, fun _ h => absurd h List.not_mem_nil⟩
    · show ((s.caches 1).length : Int) + 1 ≤ (s.caches 1).capacity
      decide +kernel
    · show ((s.caches 0).length : Int) + 1 ≤ (s.caches 0).capacity
      decide +kernel
  have hlong : ¬CudaModel.Fits s.caches [(1, [0, 1, 2])] := by
    intro h
    have hroom : ((s.caches 1).length : Int) + 3 ≤ (s.caches 1).capacity := (h.items _ List.mem_cons_self).2
    exact absurd hroom (by decide +kernel)
  have hfed : [(1, [0]), (0, [2])].map (fun f : Feed => s.fed f.1 ++ f.2) = [[2, 0], [1, 2, 2]] := by decide +kernel
  obtain ⟨lowest, hlowest⟩ := exists_lowest M.host.forward
    ([(1, [0]), (0, [2])].map (fun f : Feed => s.fed f.1 ++ f.2))
  obtain ⟨⟨out, caches, hrun, hshape, hrows⟩, hargmax⟩ :=
    (device_batches_eq_host hs (hknown [(1, [0]), (0, [2])] (by decide) (by decide)) run).1 hfits
  obtain ⟨herror, hargmaxError⟩ :=
    (device_batches_eq_host hs (hknown [(1, [0, 1, 2])] (by decide) (by decide)) run).2 hlong
  obtain ⟨picked, caches', hpicked, hgreedy⟩ := hargmax lowest argmax (fun _ => 0)
    fun f hf => hlowest _ (List.mem_map_of_mem hf)
  have hlast := (hrows 0 _ rfl).1
  rw [show s.fed 1 ++ [0] = [2, 0] from (List.cons.inj hfed).1] at hlast
  refine ⟨⟨out, caches, hrun, hshape, hlast⟩, ⟨lowest, picked, caches', hpicked, ?_⟩, herror, hargmaxError 0 argmax _⟩
  rw [← hfed, List.forall₂_map_left_iff]
  exact hgreedy

end CachesRun

end Device

end InferenceEngine
