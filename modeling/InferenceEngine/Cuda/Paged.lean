import InferenceEngine.Cuda.Contiguous
import InferenceEngine.Cuda.PagedPool

/-!
# The paged batched forward on the device

The items of a batch keep their keys and values in one pool. For every item of every layer the new rows are
scattered into the blocks of the item, and all its rows are gathered into scratch buffers that attention
runs over. One pair of buffers, as long as the longest item, serves all of them.
-/

namespace InferenceEngine

open Exec

/-- A device model whose key and value kernels write rows of the config's width. -/
structure SizedModel (K : Type) extends CudaModel K where
  length_key : ∀ l p row, ((decoder.block l).key p row).length = toCudaModel.kvDim
  length_value : ∀ l p row, ((decoder.block l).value p row).length = toCudaModel.kvDim

/-- A block manager, and the scratch buffers of the last batch. -/
structure GpuPaged (K : Type) where
  pool : GpuPool K
  scratch : Scratch K

namespace GpuPool

variable {K : Type} (c : PoolSizes)

/-- The first loop of `forward_batch_paged`: blocks for every item. Returns the addresses of the items, the
rows they have, and the rows of the longest item. -/
def reserveItems : List BatchItem → Nat → EStateM Error (GpuPool K) (List Nat × List Nat × Nat)
  | [], maxTotal => return ([], [], maxTotal)
  | item :: rest, maxTotal => do
    match item.blocks with
    | none => throw (.invalidArgument "CudaModel::forward_batch_paged: null blocks")
    | some id =>
      reserve c id item.tokens.length
      let past := ((← get).seqs id).length
      let (ids, pasts, maxTotal) ← reserveItems rest (max maxTotal (past + item.tokens.length))
      return (id :: ids, past :: pasts, maxTotal)

end GpuPool

namespace CudaModel

variable {K : Type} (M : CudaModel K) (c : PoolSizes) (sched : Kernel.Schedule)

def preparePaged (items : List BatchItem) : EStateM Error (GpuPaged K) (List Nat × List Nat) := do
  let (ids, pasts, maxTotal) ← zoom GpuPaged.pool (fun pool s => { s with pool })
    (GpuPool.reserveItems c items 0)
  modify fun s => { s with scratch := s.scratch.allocate (maxTotal * M.kvDim) }
  return (ids, pasts)

variable [Zero K]

/-- What the callback over a block manager fetches: the new rows are written, all rows are gathered, and
attention reads the scratch buffers. -/
def fetchPaged (ids : List Nat) : Fetch (GpuPaged K) K := fun l i len past k v => do
  let id := ids.getD i 0
  modify fun s => { s with pool := s.pool.write c sched id l past k v len }
  let total := past + len
  modify fun s =>
    let (pool, scratch) := s.pool.gather c sched id l total s.scratch
    ⟨pool, scratch⟩
  let scratch := (← get).scratch
  return (readRows M.kvDim total scratch.keys, readRows M.kvDim total scratch.values)

def forwardBatchPaged (items : List BatchItem) : EStateM Error (GpuPaged K) (Rows K) := do
  let (ids, pasts) ← M.preparePaged c items
  let logits ← M.forwardBatchDevice (M.attendOver (M.fetchPaged c sched ids))
    (items.map BatchItem.tokens) pasts
  forM (ids.zip items) fun (id, item) =>
    modify fun s => { s with pool := s.pool.commit id item.tokens.length }
  return logits

/-- The launches of the attention kernel in `forward_batch_paged`. -/
def pagedCalls (items : List BatchItem) (s : GpuPaged K) : List (AttentionCall K) :=
  match M.preparePaged c items s with
  | .ok (ids, pasts) s => M.attentionCalls (M.fetchPaged c sched ids) (items.map BatchItem.tokens) pasts s
  | .error _ _ => []

omit [Zero K] in
/-- The launches of the attention kernel in `forward_batch`. -/
def batchCalls (items : List GpuBatchItem) (caches : GpuCaches K) : List (AttentionCall K) :=
  match items.mapM (cacheOf "CudaModel::forward_batch: null cache") caches with
  | .ok addresses caches => M.attentionCalls (fetchCache addresses) (items.map GpuBatchItem.tokens)
      (addresses.map fun address => (caches address).length) caches
  | .error _ _ => []

end CudaModel

/-! ### Blocks for a batch -/

namespace GpuPool

variable {K : Type} {c : PoolSizes} {n : Nat}

/-- The rows of the longest of some feeds. -/
def longest (past : Nat → Nat) (feeds : List Feed) (maxTotal : Nat) : Nat :=
  feeds.foldl (fun maxTotal f => max maxTotal (past f.1 + f.2.length)) maxTotal

theorem le_longest (past : Nat → Nat) (feeds : List Feed) (maxTotal : Nat) :
    maxTotal ≤ longest past feeds maxTotal := by
  induction feeds generalizing maxTotal with
  | nil => exact le_rfl
  | cons f feeds ih => exact (le_max_left _ _).trans (ih _)

theorem rows_le_longest (past : Nat → Nat) {feeds : List Feed} {f : Feed} (hf : f ∈ feeds) (maxTotal : Nat) :
    past f.1 + f.2.length ≤ longest past feeds maxTotal := by
  induction feeds generalizing maxTotal with
  | nil => exact absurd hf List.not_mem_nil
  | cons g feeds ih =>
    obtain rfl | hf := List.mem_cons.mp hf
    · exact (le_max_right _ _).trans (le_longest past feeds _)
    · exact ih hf _

theorem wp_reserveItems {m : GpuPool K} (h : (m.toPool c).Wf c n) {feeds : List Feed}
    (hids : ∀ f ∈ feeds, f.1 < n) (hnodup : (feeds.map Prod.fst).Nodup)
    (hblocks : (m.toPool c).needed c feeds ≤ (m.toPool c).freeBlocks) (maxTotal : Nat) :
    wp (reserveItems c (feedItems feeds) maxTotal)
      (fun out m' => out = (feeds.map Prod.fst, feeds.map (fun f => (m.seqs f.1).length),
          longest (fun i => (m.seqs i).length) feeds maxTotal) ∧
        (m'.toPool c).Wf c n ∧ Pool.Extended (feeds.map Prod.fst) (m.toPool c) (m'.toPool c) ∧
        ∀ f ∈ feeds,
          (m.seqs f.1).length + f.2.length ≤ (m'.seqs f.1).blockTable.length * c.blockSize)
      (fun _ _ => False) m := by
  induction feeds generalizing m maxTotal with
  | nil => exact ⟨rfl, h, Pool.Extended.refl _ _, fun _ hf => absurd hf List.not_mem_nil⟩
  | cons f feeds ih =>
    obtain ⟨id, tokens⟩ := f
    have hid : id < n := hids _ List.mem_cons_self
    simp only [List.map_cons, List.nodup_cons] at hnodup
    have hneeded : (m.toPool c).needed c ((id, tokens) :: feeds) =
        (m.toPool c).missing c (id, tokens) + (m.toPool c).needed c feeds := rfl
    rw [hneeded] at hblocks
    simp only [feedItems, List.map_cons, reserveItems, wp_bind, wp_get, wp_pure]
    apply wp_mono (simulates_reserve id tokens.length m _ _ (Pool.wp_reserve tokens.length hid h))
    · rintro _ m' ⟨hwf, new, hg, hnew, hfree⟩
      change new.length = (m.toPool c).missing c (id, tokens) at hnew
      obtain ⟨-, hcount⟩ := hfree (by omega)
      have hself : ∀ g ∈ feeds, m'.seqs g.1 = m.seqs g.1 := fun g hg' =>
        hg.others _ fun heq => hnodup.1 (heq ▸ List.mem_map_of_mem hg')
      have hlength : ∀ i, (m'.seqs i).length = (m.seqs i).length := hg.length
      have hrest : (m'.toPool c).needed c feeds = (m.toPool c).needed c feeds := by
        apply congrArg List.sum
        apply List.map_congr_left
        intro g hg'
        have hseq : (m'.toPool c).seqs g.1 = (m.toPool c).seqs g.1 := hself g hg'
        rw [Pool.missing, Pool.missing, hseq]
      apply wp_mono (ih hwf (fun g hg' => hids g (List.mem_cons_of_mem _ hg')) hnodup.2 (by omega) _) ?_
        fun _ _ hf => hf
      rintro out m'' ⟨rfl, hwf', hext, hroom⟩
      refine ⟨?_, hwf', (Pool.Extended.of_grown hg List.mem_cons_self).trans
        (hext.mono (List.subset_cons_self _ _)), ?_⟩
      · simp only [hlength, longest, List.foldl_cons]
      · rintro g (_ | ⟨_, hg'⟩)
        · -- the later items leave the table of this one alone
          have htable : (m''.seqs id).blockTable = (m.seqs id).blockTable ++ new := by
            have hkept : m''.seqs id = m'.seqs id := hext.others id hnodup.1
            have hgrown : m'.seqs id = _ := hg.self
            rw [hkept, hgrown]
            rfl
          have hlen : new.length = c.blocksFor ((m.seqs id).length + tokens.length) -
            (m.seqs id).blockTable.length := hnew
          rw [← c.blocksFor_le_iff, htable, List.length_append]
          dsimp only
          omega
        · have := hroom g hg'
          rwa [hlength] at this
    · rintro _ m' ⟨-, -, hshort⟩
      change _ < (m.toPool c).missing c (id, tokens) at hshort
      omega

end GpuPool

/-! ### Items of a batch -/

namespace CudaModel

open GpuPool

variable {K : Type} {M : SizedModel K} {c : PoolSizes} {n : Nat}
  {fed : Nat → List Int} {feeds : List Feed} {start : Pool K} {size l i : Nat} {s : GpuPaged K}

/-- The middle of a batch: in the layers before `l`, and for the items before `i` in layer `l`, the pool holds
the keys and values of the new tokens. -/
structure PagedFilled (M : SizedModel K) (c : PoolSizes) (fed : Nat → List Int) (feeds : List Feed)
    (start : Pool K) (size l i : Nat) (s : GpuPaged K) : Prop where
  stored : Pool.Stored c start (s.pool.toPool c)
  holds : ∀ j f, feeds[j]? = some f → ∀ l' < M.config.numHiddenLayers, (s.pool.toPool c).Holds c l' f.1
    (M.decoder.cells l' (if l' < l ∨ l' = l ∧ j < i then fed f.1 ++ f.2 else fed f.1))
  size : s.scratch.size = size
  overrun : s.scratch.overrun = false

theorem PagedFilled.layer (h : PagedFilled M c fed feeds start size l feeds.length s) :
    PagedFilled M c fed feeds start size (l + 1) 0 s where
  stored := h.stored
  holds := by
    intro j f hf l' hl'
    have hj := (List.getElem?_eq_some_iff.mp hf).1
    have hiff : (l' < l + 1 ∨ l' = l + 1 ∧ j < 0) ↔ (l' < l ∨ l' = l ∧ j < feeds.length) := by omega
    simp only [hiff]
    exact h.holds j f hf l' hl'
  size := h.size
  overrun := h.overrun

/-- The write of an item keeps the other items and the other layers, and adds the item's new rows. -/
theorem PagedFilled.write (h : PagedFilled M c fed feeds start size l i s) (hwf : start.Wf c n)
    (hids : ∀ f ∈ feeds, f.1 < n) (hnodup : (feeds.map Prod.fst).Nodup)
    (hpast : ∀ f ∈ feeds, (start.seqs f.1).length = (fed f.1).length)
    (hroom : ∀ f ∈ feeds,
      (fed f.1).length + f.2.length ≤ (start.seqs f.1).blockTable.length * c.blockSize)
    {f : Feed} (hf : feeds[i]? = some f) (hl : l < M.config.numHiddenLayers) {p : Pool K}
    (hp : p = (s.pool.toPool c).write c f.1 l (fed f.1).length
      ((M.decoder.block l).keysFrom (fed f.1).length (M.decoder.chunkRows l (fed f.1) f.2))
      ((M.decoder.block l).valuesFrom (fed f.1).length (M.decoder.chunkRows l (fed f.1) f.2)) f.2.length) :
    Pool.Stored c start p ∧ ∀ j g, feeds[j]? = some g → ∀ l' < M.config.numHiddenLayers, p.Holds c l' g.1
      (M.decoder.cells l' (if l' < l ∨ l' = l ∧ j < i + 1 then fed g.1 ++ g.2 else fed g.1)) := by
  have hmem := List.mem_of_getElem? hf
  have hid := hids f hmem
  have hwf' := h.stored.wf hwf
  have hseqs : (s.pool.toPool c).seqs = start.seqs := h.stored.seqs
  have hlength : ((s.pool.toPool c).seqs f.1).length ≤ (fed f.1).length := by rw [hseqs, hpast f hmem]
  have hend : (fed f.1).length + f.2.length ≤
      ((s.pool.toPool c).seqs f.1).blockTable.length * c.blockSize := by
    rw [hseqs]
    exact hroom f hmem
  subst hp
  refine ⟨h.stored.trans (hwf'.stored_write hid hlength hend), ?_⟩
  intro j g hg l' hl'
  have hgmem := List.mem_of_getElem? hg
  have hold := h.holds j g hg l' hl'
  by_cases hji : j = i
  · subst hji
    rw [hf, Option.some.injEq] at hg
    subst hg
    by_cases hll : l' = l
    · subst hll
      rw [if_pos (.inr ⟨rfl, Nat.lt_succ_self j⟩), M.decoder.cells_append]
      rw [if_neg (by omega)] at hold
      apply Pool.Holds.write hwf' hid hlength hend hold (by simp)
      · simp
      · intro r hr
        have hk : r < ((M.decoder.block l').keysFrom (fed f.1).length
          (M.decoder.chunkRows l' (fed f.1) f.2)).length := by simpa using hr
        have hv : r < ((M.decoder.block l').valuesFrom (fed f.1).length
          (M.decoder.chunkRows l' (fed f.1) f.2)).length := by simpa using hr
        rw [List.getD_eq_getElem _ _ hk, List.getD_eq_getElem _ _ hv, ← List.getElem_zip (h := by
          rw [List.length_zip]
          omega)]
        exact List.getElem?_eq_getElem _
    · have hiff : (l' < l ∨ l' = l ∧ j < j + 1) ↔ (l' < l ∨ l' = l ∧ j < j) := by omega
      simp only [hiff]
      apply hold.congr
      intro r _
      exact Pool.write_cell_of_layer_ne hll _
  · have hne : g.1 ≠ f.1 := by
      intro heq
      have hj' : (feeds.map Prod.fst)[j]? = some f.1 := by rw [List.getElem?_map, hg, ← heq]; rfl
      have hi' : (feeds.map Prod.fst)[i]? = some f.1 := by rw [List.getElem?_map, hf]; rfl
      exact hji ((List.getElem?_inj (List.getElem?_eq_some_iff.mp hj').1 hnodup).mp (hj'.trans hi'.symm))
    have hiff : (l' < l ∨ l' = l ∧ j < i + 1) ↔ (l' < l ∨ l' = l ∧ j < i) := by omega
    simp only [hiff]
    apply hold.congr
    intro r hr
    apply Pool.write_rowAt_of_ne hwf' hid hlength hend (hids g hgmem) ?_ (.inl hne)
    have hcells : r < (fed g.1).length + g.2.length := by
      rw [Causal.Decoder.length_cells] at hr
      split at hr
      · rwa [List.length_append] at hr
      · omega
    rw [hseqs]
    exact hcells.trans_le (hroom g hgmem)

/-- **A block manager serves a batch**: attention is given the keys and values of all tokens of an item. -/
theorem fetches_fetchPaged [Zero K] (sched : Kernel.Schedule) (hkv : c.kvDim = M.kvDim) (hwf : start.Wf c n)
    (hids : ∀ f ∈ feeds, f.1 < n) (hnodup : (feeds.map Prod.fst).Nodup)
    (hpast : ∀ f ∈ feeds, (start.seqs f.1).length = (fed f.1).length)
    (hroom : ∀ f ∈ feeds,
      (fed f.1).length + f.2.length ≤ (start.seqs f.1).blockTable.length * c.blockSize)
    (hsize : ∀ f ∈ feeds, ((fed f.1).length + f.2.length) * c.kvDim ≤ size) :
    Fetches M.toCudaModel (M.fetchPaged c sched (feeds.map Prod.fst))
      (fun i => fed ((feeds.map Prod.fst).getD i 0)) (feeds.map Prod.snd)
      (PagedFilled M c fed feeds start size) where
  fetch := by
    rintro l hl ⟨i, tokens⟩ hf s h
    have hget := mem_feedsFrom hf
    rw [List.getElem?_map, Option.map_eq_some_iff] at hget
    obtain ⟨f, hfi, rfl⟩ := hget
    have hmem := List.mem_of_getElem? hfi
    have hid : (feeds.map Prod.fst).getD i 0 = f.1 := by
      rw [List.getD_eq_getElem?_getD, List.getElem?_map, hfi]
      rfl
    have hseqs : s.pool.seqs = start.seqs := h.stored.seqs
    have hstart : (s.pool.seqs f.1).length ≤ (fed f.1).length := by rw [hseqs, hpast f hmem]
    have hend : (fed f.1).length + f.2.length ≤ (s.pool.seqs f.1).blockTable.length * c.blockSize := by
      rw [hseqs]
      exact hroom f hmem
    dsimp only
    rw [hid, fetchPaged]
    simp only [hid, wp_bind, wp_modify, wp_get, wp_pure]
    generalize hkeys : (M.decoder.block l).keysFrom (fed f.1).length
      (M.decoder.chunkRows l (fed f.1) f.2) = k
    generalize hvalues : (M.decoder.block l).valuesFrom (fed f.1).length
      (M.decoder.chunkRows l (fed f.1) f.2) = v
    have hk : ∀ row ∈ k, row.length = c.kvDim := by
      rw [← hkeys, Causal.Block.keysFrom, hkv]
      intro row hrow
      obtain ⟨j, hj, rfl⟩ := List.mem_mapIdx.mp hrow
      exact M.length_key l _ _
    have hv : ∀ row ∈ v, row.length = c.kvDim := by
      rw [← hvalues, Causal.Block.valuesFrom, hkv]
      intro row hrow
      obtain ⟨j, hj, rfl⟩ := List.mem_mapIdx.mp hrow
      exact M.length_value l _ _
    have hwrite := write_toPool sched l (h.stored.wf hwf) (hids f hmem) hstart hend hk hv
      (by simp [← hkeys]) (by simp [← hvalues])
    rw [← hkeys, ← hvalues] at hwrite
    obtain ⟨hstored, hholds⟩ := h.write hwf hids hnodup hpast hroom hfi hl hwrite
    rw [hkeys, hvalues] at hstored hholds
    generalize s.pool.write c sched f.1 l (fed f.1).length k v f.2.length = m at hstored hholds
    have htable : m.seqs = start.seqs := hstored.seqs
    have hrows := gather_rows sched (m := m) f.1 l ((fed f.1).length + f.2.length) s.scratch
      (by rw [htable]; exact hroom f hmem)
    have hnow := hholds i f hfi l hl
    rw [if_pos (.inr ⟨rfl, Nat.lt_succ_self i⟩)] at hnow
    obtain ⟨hgk, hgv⟩ := hnow.gather (m := (fed f.1).length + f.2.length) (by simp)
    rw [Causal.Decoder.map_fst_cells] at hgk
    rw [Causal.Decoder.map_snd_cells] at hgv
    obtain ⟨hover, hsame⟩ := gather_overrun sched (m := m) (c := c) f.1 l (s := s.scratch)
      (by rw [h.size]; exact hsize f hmem)
    rw [← hkv, hrows.1, hrows.2, hgk, hgv]
    refine ⟨rfl, ?_, ?_, hsame.trans h.size, hover.trans h.overrun⟩
    · rw [gather_toPool]
      exact hstored
    · rw [gather_toPool]
      exact hholds
  layer := by
    intro l _ s h
    rw [List.length_map] at h
    exact h.layer

end CudaModel

end InferenceEngine
