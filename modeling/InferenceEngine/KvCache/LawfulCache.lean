import InferenceEngine.KvCache.KVCache
import InferenceEngine.KvCache.Rows

/-!
# The laws of a cache

What `forward_cached` relies on: a layer holds the rows appended to it, in order, and the other layers
do not notice. The contiguous cache keeps the laws by definition. The paged cache keeps them as long as
its pool has enough blocks, because the blocks of its table are distinct.
-/

namespace InferenceEngine

open Exec

/-- The laws. `Inv` is the invariant of the representation, and a layer has `room` for so many rows. -/
class LawfulCache (C : Type) (K : outParam Type) [Cache C K] where
  Inv : C → Prop
  room : Nat → Prop
  room_mono : ∀ {m n : Nat}, m ≤ n → room n → room m
  wp_append : ∀ {cache : C} {layer n : Nat} {k v : Rows K}, Inv cache → k.length = n → v.length = n →
    (Cache.valueTensor cache layer).length = (Cache.keyTensor cache layer).length →
    room ((Cache.keyTensor cache layer).length + n) →
    wp (Cache.append layer k v n)
      (fun _ cache' => Inv cache' ∧ Cache.length cache' = Cache.length cache ∧
        Cache.keyTensor cache' =
          Function.update (Cache.keyTensor cache) layer (Cache.keyTensor cache layer ++ k) ∧
        Cache.valueTensor cache' =
          Function.update (Cache.valueTensor cache) layer (Cache.valueTensor cache layer ++ v))
      (fun _ _ => False) cache
  advance : ∀ {cache : C} (n : Nat), Inv cache → Inv (Cache.advance n cache) ∧
    Cache.length (Cache.advance n cache) = Cache.length cache + n ∧
    Cache.keyTensor (Cache.advance n cache) = Cache.keyTensor cache ∧
    Cache.valueTensor (Cache.advance n cache) = Cache.valueTensor cache

instance {K : Type} : LawfulCache (KVCache K) K where
  Inv _ := True
  room _ := True
  room_mono _ _ := trivial
  wp_append := by
    intro cache layer n k v _ hk hv _ _
    subst hk
    refine ⟨trivial, rfl, ?_, ?_⟩
    · simp [Cache.keyTensor, KVCache.append]
    · simp [Cache.valueTensor, KVCache.append, ← hv]
  advance n _ := ⟨trivial, rfl, rfl, rfl⟩

namespace PoolSizes

variable (c : PoolSizes) {K : Type}

theorem rowAddr_injective {table : List Nat} (hnodup : table.Nodup) {r r' : Nat}
    (hr : r < table.length * c.blockSize) (hr' : r' < table.length * c.blockSize)
    (heq : c.rowAddr table r' = c.rowAddr table r) : r' = r := by
  have hdiv := congrArg (· / c.blockSize) heq
  have hmod := congrArg (· % c.blockSize) heq
  simp only [c.rowAddr_div, c.rowAddr_mod] at hdiv hmod
  have hblock : r' / c.blockSize = r / c.blockSize := by
    apply (List.getElem?_inj ((Nat.div_lt_iff_lt_mul c.blockSize_pos).mpr hr') hnodup).mp
    rw [c.getElem?_of_lt hr', c.getElem?_of_lt hr, hdiv]
  rw [← Nat.div_add_mod r' c.blockSize, ← Nat.div_add_mod r c.blockSize, hblock, hmod]

theorem gatherOne_writeOne {table : List Nat} (hnodup : table.Nodup) (store : Nat → Row K)
    {start n : Nat} {src : Rows K} (hle : start + n ≤ table.length * c.blockSize)
    (hsrc : src.length = n) :
    c.gatherOne (c.writeOne store table start src n) table (start + n) =
      c.gatherOne store table start ++ src := by
  apply List.ext_getElem?
  intro r
  by_cases hr : r < start
  · rw [List.getElem?_append_left (by rwa [c.length_gatherOne]), c.gatherOne_getElem? hr,
      c.gatherOne_getElem? (by omega), c.writeOne_of_forall_ne]
    intro k hk heq
    have := c.rowAddr_injective hnodup (by omega) (by omega) heq
    omega
  · rw [List.getElem?_append_right (by rw [c.length_gatherOne]; omega), c.length_gatherOne]
    by_cases hrn : r < start + n
    · obtain ⟨k, rfl⟩ : ∃ k, r = start + k := ⟨r - start, by omega⟩
      have hk : k < n := by omega
      rw [c.gatherOne_getElem? hrn, c.writeOne_self hk, Nat.add_sub_cancel_left,
        List.getD_eq_getElem?_getD, List.getElem?_eq_getElem (by omega), Option.getD_some]
      intro k' hk' heq
      have := c.rowAddr_injective hnodup (by omega) (by omega) heq
      omega
    · rw [List.getElem?_eq_none (by rw [c.length_gatherOne]; omega),
        List.getElem?_eq_none (by omega)]

theorem gatherOne_append {table : List Nat} {rows : Nat} (hle : rows ≤ table.length * c.blockSize)
    (store : Nat → Row K) (new : List Nat) :
    c.gatherOne store (table ++ new) rows = c.gatherOne store table rows := by
  refine List.map_congr_left fun r hr => ?_
  rw [c.rowAddr_append ((List.mem_range.mp hr).trans_le hle)]

end PoolSizes

namespace PagedKVCache

variable {K : Type} {c : PoolSizes}

/-- The blocks of the table are distinct and hold the rows of every layer. -/
structure Inv (cache : PagedKVCache c K) : Prop where
  tracked : cache.alloc.Tracks c.numBlocks cache.blockTable
  nodup : cache.blockTable.Nodup
  filled_le : ∀ layer, cache.filled layer ≤ cache.blockTable.length * c.blockSize

theorem inv_create [Zero K] : (create c : PagedKVCache c K).Inv where
  tracked := BlockAllocator.tracks_create c.numBlocks
  nodup := List.nodup_nil
  filled_le _ := Nat.zero_le _

theorem Inv.numFree_add (h : (cache : PagedKVCache c K).Inv) :
    cache.alloc.numFree + cache.blockTable.length = c.numBlocks := by
  rw [← h.tracked.numFree_add_card, ← List.toFinset_card_of_nodup h.nodup]
  rfl

/-- `cache'` is `cache` with more blocks behind its table. -/
def Extended (new : List Nat) (cache cache' : PagedKVCache c K) : Prop :=
  cache'.Inv ∧ ∃ alloc, cache' = { cache with alloc, blockTable := cache.blockTable ++ new }

/-- One turn of `ensure_blocks`: it fails when every block of the pool is in the table. -/
theorem wp_allocate {cache q : PagedKVCache c K} {new : List Nat} (h : Extended new cache q) :
    wp (do
        let (block, alloc) ← lift (← get).alloc.allocate
        modify fun cache => { cache with alloc, blockTable := cache.blockTable ++ [block] } :
          EStateM Error (PagedKVCache c K) Unit)
      (fun _ q' => cache.blockTable.length + new.length < c.numBlocks ∧
        ∃ block, Extended (new ++ [block]) cache q')
      (fun e q' => e = .runtimeError "BlockAllocator: out of blocks" ∧
        cache.blockTable.length + new.length = c.numBlocks ∧ q' = q) q := by
  obtain ⟨hq, alloc, rfl⟩ := h
  have hcount := hq.numFree_add
  simp only [List.length_append] at hcount
  simp only [wp_bind, wp_get]
  by_cases hfree : alloc.numFree = 0
  · have herror : alloc.allocate = .error (.runtimeError "BlockAllocator: out of blocks") := by
      rw [BlockAllocator.allocate, List.length_eq_zero_iff.mp hfree]
    rw [herror, wp_lift_error]
    exact ⟨rfl, by omega, rfl⟩
  · obtain ⟨b, a, hb, hnot, ha, -⟩ := hq.tracked.allocate_eq hfree
    simp only [hb, wp_lift_ok, wp_modify]
    refine ⟨by omega, b, ⟨?_, ?_, fun layer => ?_⟩, a, by simp⟩
    · rw [← Multiset.coe_add, Multiset.coe_singleton, add_comm, Multiset.singleton_add]
      exact ha
    · exact List.nodup_append.mpr ⟨hq.nodup, List.nodup_singleton b, by
        rintro x hx y hy rfl
        exact hnot (List.mem_singleton.mp hy ▸ hx)⟩
    · refine (hq.filled_le layer).trans (Nat.mul_le_mul_right _ ?_)
      simp

/-- `ensure_blocks` adds the blocks still missing, or takes the last block of the pool and throws. -/
theorem wp_ensureBlocks {cache : PagedKVCache c K} (h : cache.Inv) (rows : Nat) :
    wp (ensureBlocks rows)
      (fun _ cache' => c.blocksFor rows ≤ c.numBlocks ∧ ∃ new, Extended new cache cache' ∧
        cache.blockTable.length + new.length = max cache.blockTable.length (c.blocksFor rows))
      (fun e cache' => e = .runtimeError "BlockAllocator: out of blocks" ∧
        c.numBlocks < c.blocksFor rows ∧ ∃ new, Extended new cache cache' ∧
        cache.blockTable.length + new.length = c.numBlocks) cache := by
  simp only [ensureBlocks, wp_bind, wp_get]
  generalize hd : c.blocksFor rows - cache.blockTable.length = d
  have hle : cache.blockTable.length ≤ c.numBlocks := by
    have := h.numFree_add
    omega
  -- the turns still to come are the blocks still missing
  have hloop := wp_forM (ε := Error) (f := fun _ : Nat => (do
      let (block, alloc) ← lift (← get).alloc.allocate
      modify fun cache => { cache with alloc, blockTable := cache.blockTable ++ [block] } :
        EStateM Error (PagedKVCache c K) Unit))
    (I := fun (todo : List Nat) q => ∃ new, Extended new cache q ∧ new.length + todo.length = d ∧
      cache.blockTable.length + new.length ≤ c.numBlocks)
    (E := fun e cache' => e = .runtimeError "BlockAllocator: out of blocks" ∧
      c.numBlocks < c.blocksFor rows ∧ ∃ new, Extended new cache cache' ∧
      cache.blockTable.length + new.length = c.numBlocks)
    ?_ (List.range d) cache ⟨[], ⟨h, cache.alloc, by simp⟩, by simp, by simpa using hle⟩
  · apply wp_mono hloop ?_ fun _ _ he => he
    rintro _ q ⟨new, hnew, hlen, hmax⟩
    simp only [List.length_nil, Nat.add_zero] at hlen
    exact ⟨by omega, new, hnew, by omega⟩
  · rintro _ todo q ⟨new, hnew, hlen, hmax⟩
    simp only [List.length_cons] at hlen
    apply wp_mono (wp_allocate hnew)
    · rintro _ q' ⟨hlt, block, hnew'⟩
      exact ⟨new ++ [block], hnew', by simp; omega, by simp; omega⟩
    · rintro e q' ⟨rfl, hfull, rfl⟩
      exact ⟨rfl, by omega, new, hnew, hfull⟩

theorem length_keyTensor (cache : PagedKVCache c K) (layer : Nat) :
    (cache.keyTensor layer).length = cache.filled layer := c.length_gatherOne _ _ _

theorem gather_append {cache : PagedKVCache c K} (h : cache.Inv) {table : List Nat}
    (hnodup : (cache.blockTable ++ table).Nodup) {layer n : Nat} {rows : Rows K} (hrows : rows.length = n)
    (hle : cache.filled layer + n ≤ (cache.blockTable ++ table).length * c.blockSize)
    (stores : Nat → Nat → Row K) :
    (fun l => c.gatherOne (Function.update stores layer (c.writeOne (stores layer)
        (cache.blockTable ++ table) (cache.filled layer) rows n) l) (cache.blockTable ++ table)
        (Function.update cache.filled layer (cache.filled layer + n) l)) =
      Function.update (fun l => c.gatherOne (stores l) cache.blockTable (cache.filled l)) layer
        (c.gatherOne (stores layer) cache.blockTable (cache.filled layer) ++ rows) := by
  funext l
  by_cases hl : l = layer
  · subst hl
    simp only [Function.update_self]
    rw [c.gatherOne_writeOne hnodup _ hle hrows, c.gatherOne_append (h.filled_le l)]
  · simp only [Function.update_of_ne hl]
    rw [c.gatherOne_append (h.filled_le l)]

/-- What an `append` that returns does. -/
structure Appended (layer : Nat) (k v : Rows K) (cache cache' : PagedKVCache c K) : Prop where
  inv : cache'.Inv
  length : cache'.length = cache.length
  filled : cache'.filled = Function.update cache.filled layer (cache.filled layer + k.length)
  keys : cache'.keyTensor = Function.update cache.keyTensor layer (cache.keyTensor layer ++ k)
  values : cache'.valueTensor = Function.update cache.valueTensor layer (cache.valueTensor layer ++ v)
  blocks : cache'.blockTable.length =
    max cache.blockTable.length (c.blocksFor (cache.filled layer + k.length))

/-- What an `append` that throws does: it keeps the blocks it took. -/
structure Refused (cache cache' : PagedKVCache c K) : Prop where
  inv : cache'.Inv
  length : cache'.length = cache.length
  filled : cache'.filled = cache.filled
  keys : cache'.keyTensor = cache.keyTensor
  values : cache'.valueTensor = cache.valueTensor
  blocks : cache'.blockTable.length = c.numBlocks

theorem Extended.refused {new : List Nat} {cache cache' : PagedKVCache c K} (h : cache.Inv)
    (hnew : Extended new cache cache')
    (hblocks : cache.blockTable.length + new.length = c.numBlocks) : Refused cache cache' := by
  obtain ⟨hinv, alloc, rfl⟩ := hnew
  refine ⟨hinv, rfl, rfl, ?_, ?_, ?_⟩
  · funext layer
    exact c.gatherOne_append (h.filled_le layer) _ _
  · funext layer
    exact c.gatherOne_append (h.filled_le layer) _ _
  · rw [List.length_append, hblocks]

/-- `append` returns if the pool has blocks for the rows of the layer, and throws otherwise. -/
theorem wp_append {cache : PagedKVCache c K} (h : cache.Inv) {layer n : Nat} {k v : Rows K}
    (hk : k.length = n) (hv : v.length = n) :
    wp (append layer k v n)
      (fun _ cache' => c.blocksFor (cache.filled layer + n) ≤ c.numBlocks ∧
        Appended layer k v cache cache')
      (fun e cache' => e = .runtimeError "BlockAllocator: out of blocks" ∧
        c.numBlocks < c.blocksFor (cache.filled layer + n) ∧ Refused cache cache') cache := by
  subst hk
  simp only [append, wp_bind, wp_get]
  apply wp_mono (wp_ensureBlocks h (cache.filled layer + k.length))
  · rintro _ q ⟨hroom, new, ⟨hq, alloc, rfl⟩, hlen⟩
    rw [← List.length_append] at hlen
    have hle : cache.filled layer + k.length ≤ (cache.blockTable ++ new).length * c.blockSize := by
      rw [← c.blocksFor_le_iff, hlen]
      exact le_max_right _ _
    rw [wp_modify]
    refine ⟨hroom, ⟨hq.tracked, hq.nodup, fun l => ?_⟩, rfl, rfl, ?_, ?_, hlen⟩
    · by_cases hl : l = layer
      · subst hl
        simpa using hle
      · simpa [hl] using hq.filled_le l
    · exact gather_append h hq.nodup rfl hle cache.keys
    · exact gather_append h hq.nodup hv hle cache.values
  · rintro e q ⟨he, hroom, new, hnew, hlen⟩
    exact ⟨he, hroom, hnew.refused h hlen⟩

instance : LawfulCache (PagedKVCache c K) K where
  Inv := Inv
  room rows := c.blocksFor rows ≤ c.numBlocks
  room_mono hmn hn := (c.blocksFor_mono hmn).trans hn
  wp_append := by
    intro cache layer n k v h hk hv _ hroom
    have hfilled : (Cache.keyTensor cache layer).length = cache.filled layer :=
      cache.length_keyTensor layer
    rw [hfilled] at hroom
    apply wp_mono (wp_append h hk hv)
    · rintro _ q ⟨-, hq⟩
      exact ⟨hq.inv, hq.length, hq.keys, hq.values⟩
    · rintro e q ⟨-, hlt, -⟩
      omega
  advance n h := ⟨⟨h.tracked, h.nodup, h.filled_le⟩, rfl, rfl, rfl⟩

end PagedKVCache

end InferenceEngine
