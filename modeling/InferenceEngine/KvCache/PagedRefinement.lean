import InferenceEngine.KvCache.LawfulCache
import Mathlib.Data.Finset.Lattice.Fold
import Mathlib.Data.Fintype.Basic
import Mathlib.Order.Lattice.Nat

/-!
# The paged cache as a contiguous one

The layers of a `PagedKVCache` share one block table and fill at their own rates. Read through the
table it is a `KVCache` that refuses the appends its pool has no blocks for: a refused append leaves
nothing behind that a later call returns or throws differently for.
-/

namespace InferenceEngine

open Exec

/-- A call on a cache of `L` layers. A row comes as its key and its value. -/
inductive CacheOp (L : Nat) (K : Type) where
  | append (layer : Fin L) (rows : List (Row K × Row K))
  | advance (n : Nat)

namespace CacheOp

variable {L : Nat} {K : Type}

def run {C : Type} [Cache C K] : CacheOp L K → EStateM Error C Unit
  | append layer rows => Cache.append layer (rows.map Prod.fst) (rows.map Prod.snd) rows.length
  | advance n => modify (Cache.advance n)

/-- The rows a call wants its layer to hold find room in the pool. -/
def Fits (c : PoolSizes) (cache : KVCache K) : CacheOp L K → Prop
  | append layer rows => c.blocksFor ((cache.keys layer).length + rows.length) ≤ c.numBlocks
  | advance _ => True

instance (c : PoolSizes) (cache : KVCache K) (op : CacheOp L K) : Decidable (op.Fits c cache) :=
  match op with
  | append _ _ => inferInstanceAs (Decidable (_ ≤ _))
  | advance _ => inferInstanceAs (Decidable True)

/-- The call on a contiguous cache that refuses what does not fit. -/
def offer (c : PoolSizes) (op : CacheOp L K) : EStateM Error (KVCache K) Unit := do
  if op.Fits c (← get) then op.run else throw (.runtimeError "BlockAllocator: out of blocks")

end CacheOp

def maxRows {C K : Type} [Cache C K] (L : Nat) (cache : C) : Nat :=
  Finset.univ.sup fun layer : Fin L => (Cache.keyTensor cache layer).length

namespace KVCache

variable {L : Nat} {K : Type}

theorem run_append (layer : Fin L) (rows : List (Row K × Row K)) (cache : KVCache K) :
    (CacheOp.append layer rows).run cache =
      .ok () (cache.append layer (rows.map Prod.fst) (rows.map Prod.snd) rows.length) := rfl

theorem length_append (cache : KVCache K) (layer : Fin L) (rows : List (Row K × Row K)) (l : Nat) :
    ((cache.append layer (rows.map Prod.fst) (rows.map Prod.snd) rows.length).keys l).length =
      if l = layer then (cache.keys layer).length + rows.length else (cache.keys l).length := by
  by_cases hl : l = layer
  · subst hl
    simp [append]
  · simp [append, hl]

theorem maxRows_append (cache : KVCache K) (layer : Fin L) (rows : List (Row K × Row K)) :
    maxRows L (cache.append layer (rows.map Prod.fst) (rows.map Prod.snd) rows.length) =
      max (maxRows L cache) ((cache.keys layer).length + rows.length) := by
  apply le_antisymm
  · apply Finset.sup_le
    intro l _
    change ((cache.append layer _ _ _).keys l).length ≤ _
    rw [length_append]
    split
    · exact le_max_right _ _
    · exact (Finset.le_sup (f := fun l : Fin L => (cache.keys l).length) (Finset.mem_univ l)).trans
        (le_max_left _ _)
  · have hle : ∀ l : Fin L, (if (l : Nat) = layer then (cache.keys layer).length + rows.length
        else (cache.keys l).length) ≤
        maxRows L (cache.append layer (rows.map Prod.fst) (rows.map Prod.snd) rows.length) := by
      intro l
      rw [← length_append]
      exact Finset.le_sup (f := fun l : Fin L => ((cache.append layer _ _ _).keys l).length)
        (Finset.mem_univ l)
    apply max_le
    · apply Finset.sup_le
      intro l _
      apply le_trans _ (hle l)
      change (cache.keys l).length ≤ _
      split
      · rename_i heq
        rw [heq]
        exact Nat.le_add_right _ _
      · exact le_rfl
    · simpa using hle layer

end KVCache

namespace PagedKVCache

variable {K : Type} {c : PoolSizes}

/-- The contiguous cache a paged one stands for. -/
def image (cache : PagedKVCache c K) : KVCache K := ⟨cache.keyTensor, cache.valueTensor, cache.length⟩

theorem Appended.image {layer : Nat} {k v : Rows K} {cache cache' : PagedKVCache c K}
    (h : Appended layer k v cache cache') (hv : v.length = k.length) :
    cache'.image = cache.image.append layer k v k.length := by
  rw [PagedKVCache.image, h.keys, h.values, h.length, KVCache.append, List.take_length, ← hv, List.take_length]
  rfl

theorem Refused.image {cache cache' : PagedKVCache c K} (h : Refused cache cache') :
    cache'.image = cache.image := by
  rw [PagedKVCache.image, h.keys, h.values, h.length]
  rfl

/-- A call returns if its rows fit, and the table then has the blocks it had and those of the layer. -/
theorem wp_run {cache : PagedKVCache c K} (h : cache.Inv) (layer : Fin c.numLayers)
    (rows : List (Row K × Row K)) :
    wp (CacheOp.append layer rows).run
      (fun _ cache' => (CacheOp.append layer rows).Fits c cache.image ∧
        Appended layer (rows.map Prod.fst) (rows.map Prod.snd) cache cache')
      (fun e cache' => e = .runtimeError "BlockAllocator: out of blocks" ∧
        ¬(CacheOp.append layer rows).Fits c cache.image ∧ Refused cache cache') cache := by
  have hfits : (CacheOp.append layer rows).Fits c cache.image ↔
      c.blocksFor (cache.filled layer + rows.length) ≤ c.numBlocks := by
    change c.blocksFor ((cache.keyTensor layer).length + rows.length) ≤ c.numBlocks ↔ _
    rw [length_keyTensor]
  rw [hfits, not_le]
  exact wp_append h (by simp) (by simp)

theorem mirrors (c : PoolSizes) : Mirrors Inv image (CacheOp.run (C := PagedKVCache c K))
    (CacheOp.offer (L := c.numLayers) c) := by
  -- one call: the invariant, the image and what is returned or thrown
  have hstep : ∀ (op : CacheOp c.numLayers K) (cache : PagedKVCache c K), cache.Inv →
      (finalState op.run cache).Inv ∧
        (finalState op.run cache).image = finalState (op.offer c) cache.image ∧
        outcome op.run cache = outcome (op.offer c) cache.image := by
    intro op cache h
    cases op with
    | advance n => exact ⟨⟨h.tracked, h.nodup, h.filled_le⟩, rfl, rfl⟩
    | append layer rows =>
      have hwp := wp_run h layer rows
      unfold finalState outcome
      cases hrun : (CacheOp.append layer rows).run cache with
      | ok a cache' =>
        obtain ⟨hfits, happ⟩ := wp_ok hwp hrun
        have himage := happ.image (by simp)
        have hoffer : (CacheOp.append layer rows).offer c cache.image = .ok () cache'.image := by
          change (if (CacheOp.append layer rows).Fits c cache.image then _ else _ :
            EStateM Error (KVCache K) Unit) cache.image = _
          rw [if_pos hfits, himage, List.length_map]
          rfl
        rw [hoffer]
        exact ⟨happ.inv, rfl, rfl⟩
      | error e cache' =>
        obtain ⟨rfl, hfits, href⟩ := wp_error hwp hrun
        have hoffer : (CacheOp.append layer rows).offer c cache.image =
            .error (.runtimeError "BlockAllocator: out of blocks") cache.image := by
          change (if (CacheOp.append layer rows).Fits c cache.image then _ else _ :
            EStateM Error (KVCache K) Unit) cache.image = _
          rw [if_neg hfits]
          rfl
        rw [hoffer]
        exact ⟨href.inv, href.image, rfl⟩
  exact ⟨fun op s h => (hstep op s h).1, fun op s h => (hstep op s h).2.1,
    fun op s h => (hstep op s h).2.2⟩

theorem maxRows_eq (cache : PagedKVCache c K) :
    maxRows c.numLayers cache = maxRows c.numLayers cache.image := rfl

/-- While the rows fit, no call is refused and the table is as short as the fullest layer allows. -/
theorem afterCalls_of_fits [Zero K] (ops : List (CacheOp c.numLayers K))
    (hroom : c.blocksFor (maxRows c.numLayers (afterCalls CacheOp.run ops (KVCache.empty : KVCache K))) ≤
      c.numBlocks) :
    let paged := afterCalls CacheOp.run ops (create c : PagedKVCache c K)
    paged.image = afterCalls CacheOp.run ops KVCache.empty ∧
      paged.blockTable.length = c.blocksFor (maxRows c.numLayers paged) ∧
      ∀ r ∈ outcomes CacheOp.run ops (create c : PagedKVCache c K), r = .ok () := by
  induction ops using List.reverseRecOn with
  | nil =>
    refine ⟨rfl, ?_, nofun⟩
    change 0 = c.blocksFor (Finset.univ.sup fun _ : Fin c.numLayers => 0)
    exact (Nat.le_zero.mp (c.blocksFor_le_iff.mpr (Finset.sup_le fun _ _ => Nat.zero_le _))).symm
  | append_singleton ops op ih =>
    rw [afterCalls_concat] at hroom
    rw [afterCalls_concat, afterCalls_concat, outcomes_concat]
    cases op with
    | advance n =>
      obtain ⟨himage, hblocks, hok⟩ := ih hroom
      refine ⟨?_, hblocks, ?_⟩
      · rw [← himage]
        rfl
      · intro r hr
        obtain hr | hr := List.mem_append.mp hr
        · exact hok r hr
        · exact List.mem_singleton.mp hr
    | append layer rows =>
      generalize afterCalls CacheOp.run ops (KVCache.empty : KVCache K) = plain at hroom ih ⊢
      change c.blocksFor (maxRows c.numLayers (plain.append layer (rows.map Prod.fst) (rows.map Prod.snd)
        rows.length)) ≤ c.numBlocks at hroom
      rw [KVCache.maxRows_append] at hroom
      obtain ⟨himage, hblocks, hok⟩ := ih ((c.blocksFor_mono (le_max_left _ _)).trans hroom)
      have hinv := (mirrors c).inv_afterCalls inv_create ops (s := (create c : PagedKVCache c K))
      generalize afterCalls CacheOp.run ops (create c : PagedKVCache c K) = paged at himage hblocks hinv ⊢
      have hfits : (CacheOp.append layer rows).Fits c paged.image := by
        rw [himage]
        exact (c.blocksFor_mono (le_max_right _ _)).trans hroom
      obtain ⟨_, paged', hrun, happ⟩ := wp_returns (wp_mono (wp_run hinv layer rows)
        (fun _ _ h => h.2) fun _ _ h => h.2.1 hfits)
      have himage' := happ.image (by simp)
      rw [List.length_map, himage] at himage'
      have hfinal : finalState (CacheOp.append layer rows).run paged = paged' := by
        rw [finalState, hrun]
      rw [hfinal]
      refine ⟨himage', ?_, ?_⟩
      · have hmono : Monotone c.blocksFor := fun _ _ => c.blocksFor_mono
        rw [maxRows_eq, himage', KVCache.maxRows_append, hmono.map_max, happ.blocks, hblocks, ← himage,
          List.length_map, ← length_keyTensor]
        rfl
      · intro r hr
        obtain hr | hr := List.mem_append.mp hr
        · exact hok r hr
        · rw [List.mem_singleton.mp hr, outcome, hrun]

/-- A refused append is as if it had not been called. -/
theorem refused_append {cache : PagedKVCache c K} (h : cache.Inv) (layer : Fin c.numLayers)
    (rows : List (Row K × Row K))
    (hroom : c.numBlocks < c.blocksFor ((cache.keyTensor layer).length + rows.length)) :
    outcome (CacheOp.append layer rows).run cache = .error (.runtimeError "BlockAllocator: out of blocks") ∧
      Refused cache (finalState (CacheOp.append layer rows).run cache) := by
  have hwp := wp_run h layer rows
  unfold outcome finalState
  cases hrun : (CacheOp.append layer rows).run cache with
  | ok a cache' => exact absurd (wp_ok hwp hrun).1 (not_le.mpr hroom)
  | error e cache' =>
    obtain ⟨rfl, -, href⟩ := wp_error hwp hrun
    exact ⟨rfl, href⟩

/-- **The paged cache refines the contiguous one.** While the fullest layer finds room in the pool the
two agree, and the table has no block twice and no block too many. An append without room throws, and
neither the cache nor any later call shows that it was tried. -/
theorem mirrors_contiguous [Zero K] (c : PoolConfig) (ops : List (CacheOp c.numLayers K)) :
    let paged := afterCalls CacheOp.run ops (create c : PagedKVCache c K)
    let contiguous := afterCalls CacheOp.run ops (KVCache.empty : KVCache K)
    paged.blockTable.Nodup ∧
      (c.blocksFor (maxRows c.numLayers contiguous) ≤ c.numBlocks →
        (∀ r ∈ outcomes CacheOp.run ops (create c : PagedKVCache c K), r = .ok ()) ∧
        paged.length = contiguous.length ∧
        paged.keyTensor = contiguous.keys ∧ paged.valueTensor = contiguous.values ∧
        paged.blockTable.length =
          c.blocksFor (Finset.univ.sup fun layer : Fin c.numLayers => paged.filled layer)) ∧
      ∀ (layer : Fin c.numLayers) (rows : List (Row K × Row K)),
        c.numBlocks < c.blocksFor (paged.filled layer + rows.length) →
        let refused := finalState (CacheOp.append layer rows).run paged
        outcome (CacheOp.append layer rows).run paged =
            .error (.runtimeError "BlockAllocator: out of blocks") ∧
          refused.length = paged.length ∧ refused.filled = paged.filled ∧
          refused.keyTensor = paged.keyTensor ∧ refused.valueTensor = paged.valueTensor ∧
          ∀ later : List (CacheOp c.numLayers K),
            outcomes CacheOp.run later refused = outcomes CacheOp.run later paged ∧
            let after := afterCalls CacheOp.run later refused
            let without := afterCalls CacheOp.run later paged
            after.length = without.length ∧ after.filled = without.filled ∧
              after.keyTensor = without.keyTensor ∧ after.valueTensor = without.valueTensor := by
  have hinv := (mirrors c).inv_afterCalls inv_create ops (s := (create c : PagedKVCache c K))
  refine ⟨hinv.nodup, fun hroom => ?_, fun layer rows hroom => ?_⟩
  · obtain ⟨himage, hblocks, hok⟩ := afterCalls_of_fits ops hroom
    refine ⟨hok, congrArg KVCache.length himage, congrArg KVCache.keys himage,
      congrArg KVCache.values himage, ?_⟩
    rw [hblocks]
    simp only [maxRows, Cache.keyTensor, length_keyTensor]
  · rw [← length_keyTensor] at hroom
    obtain ⟨herror, href⟩ := refused_append hinv layer rows hroom
    refine ⟨herror, href.length, href.filled, href.keys, href.values, fun later => ⟨?_, ?_⟩⟩
    · rw [(mirrors c).outcomes_eq href.inv, (mirrors c).outcomes_eq hinv, href.image]
    · have himage : (afterCalls CacheOp.run later (finalState (CacheOp.append layer rows).run
          (afterCalls CacheOp.run ops (create c : PagedKVCache c K)))).image =
          (afterCalls CacheOp.run later (afterCalls CacheOp.run ops (create c))).image := by
        rw [(mirrors c).image_afterCalls href.inv, (mirrors c).image_afterCalls hinv, href.image]
      have hkeys := congrArg KVCache.keys himage
      refine ⟨congrArg KVCache.length himage, ?_, hkeys, congrArg KVCache.values himage⟩
      funext layer'
      rw [← length_keyTensor, ← length_keyTensor]
      exact congrArg (fun keys => (keys layer').length) hkeys

end PagedKVCache

end InferenceEngine
