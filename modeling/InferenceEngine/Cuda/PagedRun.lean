import InferenceEngine.Cuda.Paged
import InferenceEngine.Model.BatchRun

/-!
# Runs of paged batches

The same batches are fed to a device block manager and to device caches of their own. The ghost `fed`
remembers what every sequence was fed; both stores hold the keys and values of exactly that, and attention is
given the same rows over either.
-/

namespace InferenceEngine

open Exec

namespace CudaModel

open GpuPool

variable {K : Type} {M : SizedModel K} {c : PoolSizes} {n : Nat}
  {fed : Nat → List Int} {feeds : List Feed} {s : GpuPaged K}

/-- The pool holds the keys and values of what was fed. -/
structure PagedHolds (M : SizedModel K) (c : PoolSizes) (fed : Nat → List Int) (p : Pool K) : Prop where
  wf : ∃ n, p.Wf c n
  length : ∀ i, (p.seqs i).length = (fed i).length
  holds : ∀ i, ∀ l < M.config.numHiddenLayers, p.Holds c l i (M.decoder.cells l (fed i))

theorem PagedHolds.extended {ids : List Nat} {p p' : Pool K} (h : PagedHolds M c fed p) (hwf : ∃ n, p'.Wf c n)
    (hext : Pool.Extended ids p p') : PagedHolds M c fed p' where
  wf := hwf
  length i := (hext.length i).trans (h.length i)
  holds := by
    obtain ⟨n, hp⟩ := h.wf
    intro i l hl
    apply (h.holds i l hl).congr
    intro r hr
    apply (hext.kept hp).committed
    rw [h.length]
    simpa using hr

theorem wp_preparePaged (h : (s.pool.toPool c).Wf c n) (hids : ∀ f ∈ feeds, f.1 < n)
    (hnodup : (feeds.map Prod.fst).Nodup)
    (hblocks : (s.pool.toPool c).needed c feeds ≤ (s.pool.toPool c).freeBlocks) :
    wp (M.preparePaged c (feedItems feeds))
      (fun out s' => out = (feeds.map Prod.fst, (feeds.map Prod.fst).map fun i => (s.pool.seqs i).length) ∧
        (s'.pool.toPool c).Wf c n ∧
        Pool.Extended (feeds.map Prod.fst) (s.pool.toPool c) (s'.pool.toPool c) ∧
        (∀ f ∈ feeds,
          (s.pool.seqs f.1).length + f.2.length ≤ (s'.pool.seqs f.1).blockTable.length * c.blockSize) ∧
        s'.pool = finalState (reserveItems c (feedItems feeds) 0) s.pool ∧
        s'.scratch.size = longest (fun i => (s.pool.seqs i).length) feeds 0 * M.kvDim ∧
        s'.scratch.overrun = s.scratch.overrun)
      (fun _ _ => False) s := by
  obtain ⟨out, m, hrun, rfl, hwf, hext, hroom⟩ := wp_returns (wp_reserveItems h hids hnodup hblocks 0)
  simp only [preparePaged, wp_bind, wp_zoom, wp_modify, wp_pure]
  apply wp_of_ok hrun
  refine ⟨?_, hwf, hext, hroom, ?_, rfl, rfl⟩
  · rw [List.map_map]
    rfl
  · rw [finalState, hrun]

theorem PagedHolds.filled {start : GpuPaged K} {size : Nat} (h : PagedHolds M c fed (start.pool.toPool c))
    (hsize : start.scratch.size = size) (hover : start.scratch.overrun = false) :
    PagedFilled M c fed feeds (start.pool.toPool c) size 0 0 start where
  stored := Pool.Stored.refl c _
  holds := by
    intro j f _ l hl
    rw [if_neg (by omega)]
    exact h.holds f.1 l hl
  size := hsize
  overrun := hover

theorem wp_commitItems (c : PoolSizes) (feeds : List Feed) (s : GpuPaged K) :
    wp (forM ((feeds.map Prod.fst).zip (feedItems feeds)) fun (id, item) =>
        (modify fun s : GpuPaged K => { s with pool := s.pool.commit id item.tokens.length } :
          EStateM Error (GpuPaged K) PUnit))
      (fun _ s' => s'.pool.toPool c = (s.pool.toPool c).commitAll feeds ∧ s'.scratch = s.scratch)
      (fun _ _ => False) s := by
  induction feeds generalizing s with
  | nil => exact ⟨rfl, rfl⟩
  | cons f feeds ih =>
    simp only [feedItems, List.map_cons, List.zip_cons_cons, List.forM_cons, wp_bind, wp_modify]
    exact ih _

theorem PagedFilled.commitAll {start p : Pool K} {size : Nat} (hstart : PagedHolds M c fed start)
    (hwf : start.Wf c n) (hids : ∀ f ∈ feeds, f.1 < n) (hnodup : (feeds.map Prod.fst).Nodup)
    (hroom : ∀ f ∈ feeds,
      (fed f.1).length + f.2.length ≤ (start.seqs f.1).blockTable.length * c.blockSize)
    (h : PagedFilled M c fed feeds start size M.config.numHiddenLayers 0 s)
    (hp : p = (s.pool.toPool c).commitAll feeds) : PagedHolds M c (BatchRun.feed fed feeds) p := by
  subst hp
  have hseqs : ∀ i, (s.pool.toPool c).seqs i = start.seqs i := fun i => by rw [h.stored.seqs]
  obtain ⟨hck, hcv, -, -⟩ := Pool.commitAll_frame feeds (s.pool.toPool c)
  refine ⟨⟨n, ?_⟩, ?_, ?_⟩
  · apply (h.stored.wf hwf).commitAll hids hnodup
    intro f hf
    rw [hseqs, hstart.length]
    exact hroom f hf
  · intro i
    by_cases hi : i ∈ feeds.map Prod.fst
    · obtain ⟨f, hf, rfl⟩ := List.mem_map.mp hi
      rw [Pool.commitAll_length hnodup hf, BatchRun.feed_of_mem hnodup hf, hseqs, hstart.length,
        List.length_append]
    · rw [Pool.commitAll_of_not_mem hi, BatchRun.feed_of_not_mem hi, hseqs, hstart.length]
  · intro i l hl
    have hrow : ∀ r, ((s.pool.toPool c).commitAll feeds).rowAt c l i r = (s.pool.toPool c).rowAt c l i r :=
      fun r => Pool.rowAt_congr hck hcv (Pool.commitAll_table feeds _ i) l r
    by_cases hi : i ∈ feeds.map Prod.fst
    · obtain ⟨f, hf, rfl⟩ := List.mem_map.mp hi
      obtain ⟨j, hj⟩ := List.mem_iff_getElem?.mp hf
      have hheld := h.holds j f hj l hl
      rw [if_pos (.inl hl)] at hheld
      rw [BatchRun.feed_of_mem hnodup hf]
      exact hheld.congr fun r _ => hrow r
    · rw [BatchRun.feed_of_not_mem hi]
      apply (hstart.holds i l hl).congr
      intro r hr
      rw [hrow]
      apply h.stored.kept.committed
      rw [hstart.length]
      simpa using hr

/-- A batch without items, or with an item without tokens, is turned down before anything is stored. -/
theorem forwardBatchDevice_error (M : CudaModel K) {lists : List (List Int)} (h : lists = [] ∨ [] ∈ lists) :
    ∃ e, ∀ {S : Type} (attend : Attend S K) (pasts : List Nat) (s : S),
      M.forwardBatchDevice attend lists pasts s = .error e s := by
  by_cases hne : lists = []
  · refine ⟨.invalidArgument "CudaModel::forward_batch: empty batch", fun attend pasts s => ?_⟩
    rw [forwardBatchDevice, if_pos hne]
    rfl
  · refine ⟨.invalidArgument "CudaModel::forward_batch: item has no tokens", fun attend pasts s => ?_⟩
    rw [forwardBatchDevice, if_neg hne, if_pos (h.resolve_left hne)]
    rfl

theorem batchCalls_eq {start : GpuCaches K} (hne : feeds ≠ []) (hnodup : (feeds.map Prod.fst).Nodup)
    (hnonempty : ∀ f ∈ feeds, f.2 ≠ [])
    (hholds : ∀ f ∈ feeds, GpuKVCache.Holds M.toCudaModel (fed f.1) (start f.1))
    (hroom : ∀ f ∈ feeds, ((fed f.1).length + f.2.length : Int) ≤ (start f.1).capacity) :
    M.batchCalls (feeds.map cacheItem) start =
      M.callsBefore (fun i => fed ((feeds.map Prod.fst).getD i 0)) (feeds.map Prod.snd)
        M.config.numHiddenLayers 0 := by
  obtain ⟨addresses, caches, hrun, rfl, rfl⟩ := wp_returns
    (wp_cacheOf "CudaModel::forward_batch: null cache" feeds start)
  rw [batchCalls, hrun]
  dsimp only
  rw [tokens_cacheItem]
  exact (fetches_fetchCache hnodup hnonempty hroom).attentionCalls_eq (by simpa using hne)
    (tokens_ne_nil hnonempty) (getD_pasts fun f hf => (hholds f hf).length) (filled_start hholds)

theorem forwardBatch_error (start : GpuCaches K) {e : Error}
    (he : ∀ {S : Type} (attend : Attend S K) (pasts : List Nat) (s : S),
      M.forwardBatchDevice attend (feeds.map Prod.snd) pasts s = .error e s) :
    M.forwardBatch (feeds.map cacheItem) start = .error e start ∧
      M.batchCalls (feeds.map cacheItem) start = [] := by
  obtain ⟨addresses, caches, hrun, rfl, rfl⟩ := wp_returns
    (wp_cacheOf "CudaModel::forward_batch: null cache" feeds start)
  constructor
  · rw [forwardBatch, forwardBatchCaches]
    rw [bind_of_ok hrun, get_bind, tokens_cacheItem]
    exact bind_of_error (he _ _ _) _
  · rw [batchCalls, hrun]
    dsimp only
    rw [tokens_cacheItem, attentionCalls, finalState, he]

variable [Zero K] (sched : Kernel.Schedule)

/-- **A paged batch**: the last row of every item's plain run, and a pool that holds everything. -/
theorem wp_forwardBatchPaged (hkv : c.kvDim = M.kvDim) (h : PagedHolds M c fed (s.pool.toPool c))
    (hover : s.scratch.overrun = false) (hnodup : (feeds.map Prod.fst).Nodup)
    (hblocks : (s.pool.toPool c).needed c feeds ≤ (s.pool.toPool c).freeBlocks) (hne : feeds ≠ [])
    (hnonempty : ∀ f ∈ feeds, f.2 ≠ []) :
    wp (M.forwardBatchPaged c sched (feedItems feeds))
        (fun logits s' => logits = feeds.map (fun f => M.lastLogits (fed f.1 ++ f.2)) ∧
          PagedHolds M c (BatchRun.feed fed feeds) (s'.pool.toPool c) ∧ s'.scratch.overrun = false)
        (fun _ _ => False) s ∧
      M.pagedCalls c sched (feedItems feeds) s =
        M.callsBefore (fun i => fed ((feeds.map Prod.fst).getD i 0)) (feeds.map Prod.snd)
          M.config.numHiddenLayers 0 := by
  obtain ⟨n, hwf⟩ := h.wf
  obtain ⟨m, hnm, hids⟩ := BatchRun.exists_bound n feeds
  obtain ⟨out, start, hprepare, rfl, hstart, hext, hroom, -, hsize, hsame⟩ := wp_returns
    (wp_preparePaged (M := M) (hwf.mono hnm) hids hnodup hblocks)
  have hheld := h.extended ⟨m, hstart⟩ hext
  have hlength : ∀ i, (s.pool.seqs i).length = (fed i).length := h.length
  have hfits : ∀ f ∈ feeds,
      (fed f.1).length + f.2.length ≤ ((start.pool.toPool c).seqs f.1).blockTable.length * c.blockSize := by
    intro f hf
    rw [← hlength]
    exact hroom f hf
  -- the scratch buffers are as long as the longest item
  have hscratch : ∀ f ∈ feeds, ((fed f.1).length + f.2.length) * c.kvDim ≤ start.scratch.size := by
    intro f hf
    rw [hsize, hkv, ← hlength]
    exact Nat.mul_le_mul_right _ (rows_le_longest (fun i => (s.pool.seqs i).length) hf 0)
  have hfetches := fetches_fetchPaged sched hkv hstart hids hnodup
    (fun f _ => hheld.length f.1) hfits hscratch
  have hfilled : PagedFilled M c fed feeds (start.pool.toPool c) start.scratch.size 0 0 start :=
    hheld.filled rfl (hsame.trans hover)
  have hpasts : ∀ i < (feeds.map Prod.snd).length,
      ((feeds.map Prod.fst).map fun i => (s.pool.seqs i).length).getD i 0 =
        (fed ((feeds.map Prod.fst).getD i 0)).length := getD_pasts fun f _ => hlength f.1
  have htokens : (feedItems feeds).map BatchItem.tokens = feeds.map Prod.snd := by
    rw [feedItems, List.map_map]
    rfl
  have hlists : feeds.map Prod.snd ≠ [] := by simpa using hne
  constructor
  · rw [forwardBatchPaged, wp_bind, htokens]
    apply wp_of_ok hprepare
    simp only [wp_bind, wp_pure]
    apply wp_mono (wp_forwardBatchDevice hfetches.serves hlists (tokens_ne_nil hnonempty) hpasts hfilled) ?_
      fun _ _ hf => hf
    rintro logits s' ⟨rfl, hs'⟩
    apply wp_mono (wp_commitItems c feeds s') ?_ fun _ _ hf => hf
    rintro _ s'' ⟨hpool, hscratch⟩
    refine ⟨map_feedsFrom_fed fed feeds, hs'.commitAll hheld hstart hids hnodup hfits hpool, ?_⟩
    rw [hscratch]
    exact hs'.overrun
  · rw [pagedCalls, hprepare]
    dsimp only
    rw [htokens]
    exact hfetches.attentionCalls_eq hlists (tokens_ne_nil hnonempty) hpasts hfilled

theorem forwardBatchPaged_error (h : PagedHolds M c fed (s.pool.toPool c))
    (hover : s.scratch.overrun = false) (hnodup : (feeds.map Prod.fst).Nodup)
    (hblocks : (s.pool.toPool c).needed c feeds ≤ (s.pool.toPool c).freeBlocks) {e : Error}
    (he : ∀ {S : Type} (attend : Attend S K) (pasts : List Nat) (s : S),
      M.forwardBatchDevice attend (feeds.map Prod.snd) pasts s = .error e s) :
    wp (M.forwardBatchPaged c sched (feedItems feeds)) (fun _ _ => False)
        (fun e' s' => e' = e ∧ PagedHolds M c fed (s'.pool.toPool c) ∧ s'.scratch.overrun = false) s ∧
      M.pagedCalls c sched (feedItems feeds) s = [] := by
  obtain ⟨n, hwf⟩ := h.wf
  obtain ⟨m, hnm, hids⟩ := BatchRun.exists_bound n feeds
  obtain ⟨out, start, hprepare, rfl, hstart, hext, -, -, -, hsame⟩ := wp_returns
    (wp_preparePaged (M := M) (hwf.mono hnm) hids hnodup hblocks)
  have htokens : (feedItems feeds).map BatchItem.tokens = feeds.map Prod.snd := by
    rw [feedItems, List.map_map]
    rfl
  constructor
  · rw [forwardBatchPaged, wp_bind, htokens]
    apply wp_of_ok hprepare
    rw [wp_bind]
    unfold wp
    rw [he]
    exact ⟨rfl, h.extended ⟨m, hstart⟩ hext, hsame.trans hover⟩
  · rw [pagedCalls, hprepare]
    dsimp only
    rw [htokens, attentionCalls, finalState, he]

end CudaModel

/-! ### Both stores -/

/-- A device block manager and device caches that are fed the same batches. -/
structure PagedRun (K : Type) where
  paged : GpuPaged K
  caches : GpuCaches K
  fed : Nat → List Int

/-- What both stores start from: the contents of the device memory, and the capacities of the caches. -/
structure PagedSetup (K : Type) where
  keys : Nat → Nat → K
  values : Nat → Nat → K
  scratchKeys : Nat → K
  scratchValues : Nat → K
  capacity : Nat → Int

namespace PagedRun

open CudaModel GpuPool CudaKernels

variable {K : Type} [Zero K] (M : SizedModel K) (c : PoolSizes) (sched : Kernel.Schedule)

/-- Both stores under batched calls. A call that is turned down feeds nothing. -/
def machine (setup : PagedSetup K) : Machine (PagedRun K) (List Feed) where
  start := ⟨⟨.create c setup.keys setup.values, ⟨0, setup.scratchKeys, setup.scratchValues, false⟩⟩,
    fun a => ⟨setup.capacity a, 0, fun _ _ => [], fun _ _ => []⟩, fun _ => []⟩
  next s feeds :=
    ⟨finalState (M.forwardBatchPaged c sched (feedItems feeds)) s.paged,
      finalState (M.forwardBatch (feeds.map cacheItem)) s.caches,
      if returns (M.forwardBatch (feeds.map cacheItem)) s.caches then BatchRun.feed s.fed feeds else s.fed⟩

/-- The calls a caller may make: distinct sequences, enough blocks, and caches of sufficient capacity. -/
structure Allowed (s : PagedRun K) (feeds : List Feed) : Prop where
  nodup : (feeds.map Prod.fst).Nodup
  blocks : (s.paged.pool.toPool c).needed c feeds ≤ (s.paged.pool.toPool c).freeBlocks
  capacity : ∀ f ∈ feeds, ((s.fed f.1).length + f.2.length : Int) ≤ (s.caches f.1).capacity

/-- A block manager made for a model. -/
structure Fits : Prop where
  numLayers : M.config.numHiddenLayers ≤ c.numLayers
  kvDim : c.kvDim = M.kvDim

/-- Both stores hold the keys and values of what was fed. -/
structure Inv (s : PagedRun K) : Prop where
  pool : PagedHolds M c s.fed (s.paged.pool.toPool c)
  overrun : s.paged.scratch.overrun = false
  caches : ∀ a, GpuKVCache.Holds M.toCudaModel (s.fed a) (s.caches a)

variable {M c sched} {s : PagedRun K} {feeds : List Feed} {setup : PagedSetup K}

theorem inv_start : Inv M c (machine M c sched setup).start where
  pool :=
    { wf := ⟨0, GpuPool.wf_create 0 _ _⟩
      length := fun _ => rfl
      holds := fun _ _ _ r hr => absurd hr (by simp [machine]) }
  overrun := rfl
  caches _ := holds_create _

/-- Both calls return the same rows, or throw the same exception. -/
structure Same (M : SizedModel K) (c : PoolSizes) (sched : Kernel.Schedule) (s : PagedRun K)
    (feeds : List Feed) : Prop where
  outcome : outcome (M.forwardBatchPaged c sched (feedItems feeds)) s.paged =
    outcome (M.forwardBatch (feeds.map cacheItem)) s.caches
  returns : feeds ≠ [] → (∀ f ∈ feeds, f.2 ≠ []) → returns (M.forwardBatch (feeds.map cacheItem)) s.caches
  calls : M.pagedCalls c sched (feedItems feeds) s.paged = M.batchCalls (feeds.map cacheItem) s.caches

theorem Inv.step (sched : Kernel.Schedule) (setup : PagedSetup K) (hfits : Fits M c) (h : Inv M c s)
    (ha : Allowed c s feeds) : Same M c sched s feeds ∧ Inv M c ((machine M c sched setup).next s feeds) := by
  by_cases hvalid : feeds.map Prod.snd = [] ∨ [] ∈ feeds.map Prod.snd
  · obtain ⟨e, he⟩ := forwardBatchDevice_error M.toCudaModel hvalid
    obtain ⟨hpaged, hcalls⟩ := forwardBatchPaged_error sched h.pool h.overrun ha.nodup ha.blocks he
    obtain ⟨hbatch, hbatchCalls⟩ := forwardBatch_error s.caches he
    have hreturns : Exec.returns (M.forwardBatch (feeds.map cacheItem)) s.caches = false := by
      rw [Exec.returns, hbatch]
    obtain ⟨hpool, hover⟩ := wp_finalState (wp_mono hpaged (fun _ _ hf => hf.elim) fun _ _ hs => hs.2)
    refine ⟨⟨?_, fun hne hnonempty => ?_, hcalls.trans hbatchCalls.symm⟩, ?_⟩
    · apply outcome_of_wp
      rw [Exec.outcome, hbatch]
      apply wp_mono hpaged (fun _ _ hf => hf.elim)
      rintro _ _ ⟨rfl, -⟩
      rfl
    · obtain hnil | hmem := hvalid
      · exact absurd (List.map_eq_nil_iff.mp hnil) hne
      · obtain ⟨f, hf, hnil⟩ := List.mem_map.mp hmem
        exact absurd hnil (hnonempty f hf)
    · refine ⟨?_, hover, ?_⟩
      · simp only [machine, hreturns]
        exact hpool
      · intro a
        simp only [machine, hreturns, finalState, hbatch]
        exact h.caches a
  · rw [not_or] at hvalid
    have hne : feeds ≠ [] := fun hnil => hvalid.1 (by rw [hnil]; rfl)
    have hnonempty : ∀ f ∈ feeds, f.2 ≠ [] := fun f hf hnil => hvalid.2 (hnil ▸ List.mem_map_of_mem hf)
    obtain ⟨hpaged, hcalls⟩ := wp_forwardBatchPaged sched hfits.kvDim h.pool h.overrun ha.nodup
      ha.blocks hne hnonempty
    obtain ⟨logits, paged, hrun, rfl, hpool, hover⟩ := wp_returns hpaged
    obtain ⟨logits', caches, hrun', rfl, hholds, -, hothers⟩ := wp_returns (wp_forwardBatchCaches s.fed
      "CudaModel::forward_batch: null cache" hne ha.nodup hnonempty (fun f _ => h.caches f.1) ha.capacity)
    have hbatch : M.forwardBatch (feeds.map cacheItem) s.caches = _ := hrun'
    have hreturns : Exec.returns (M.forwardBatch (feeds.map cacheItem)) s.caches = true := by
      rw [Exec.returns, hbatch]
    refine ⟨⟨?_, fun _ _ => hreturns, ?_⟩, ?_, ?_, ?_⟩
    · rw [Exec.outcome, Exec.outcome, hrun, hbatch]
    · rw [hcalls, batchCalls_eq hne ha.nodup hnonempty (fun f _ => h.caches f.1) ha.capacity]
    · simp only [machine, hreturns, if_true, finalState, hrun]
      exact hpool
    · simp only [machine, finalState, hrun]
      exact hover
    · intro a
      simp only [machine, hreturns, if_true, finalState, hbatch]
      by_cases hmem : a ∈ feeds.map Prod.fst
      · obtain ⟨f, hf, rfl⟩ := List.mem_map.mp hmem
        rw [BatchRun.feed_of_mem ha.nodup hf]
        exact hholds f hf
      · rw [BatchRun.feed_of_not_mem hmem, hothers a hmem]
        exact h.caches a

theorem inv_reachable (hfits : Fits M c) (hs : (machine M c sched setup).Reachable (Allowed c) s) : Inv M c s :=
  hs.invariant inv_start fun _ _ _ h ha => (h.step sched setup hfits ha).2

omit [Zero K] in
/-- The scatters of a call store at addresses of their own. -/
theorem Inv.scatter_perm (h : Inv M c s) (ha : Allowed c s feeds) {f : Feed} (hf : f ∈ feeds)
    {m : GpuPool K} (hm : m = finalState (reserveItems c (feedItems feeds) 0) s.paged.pool)
    {order order' : Nat → List Nat} (horder : ∀ threads, (order threads).Perm (List.range threads))
    (horder' : ∀ threads, (order' threads).Perm (List.range threads)) (src pool : Nat → K) :
    pagedScatter order (m.uploadTable f.1).tableEntry src (m.seqs f.1).length f.2.length c.blockSize c.kvDim
        pool =
      pagedScatter order' (m.uploadTable f.1).tableEntry src (m.seqs f.1).length f.2.length c.blockSize c.kvDim
        pool := by
  obtain ⟨n, hwf⟩ := h.pool.wf
  obtain ⟨n', hnn', hids⟩ := BatchRun.exists_bound n feeds
  obtain ⟨out, m', hrun, -, hwf', hext, hroom⟩ := wp_returns
    (wp_reserveItems (hwf.mono hnn') hids ha.nodup ha.blocks 0)
  rw [finalState, hrun] at hm
  dsimp only at hm
  subst hm
  have hlength : (m.seqs f.1).length = (s.paged.pool.seqs f.1).length := hext.length f.1
  apply pagedScatter_perm ?_ horder horder'
  apply physicalRow_inj hwf' (hids f hf) le_rfl
  rw [hlength]
  exact hroom f hf

/-- **Paged batches are contiguous batches.** In every state batched calls lead to, and for every schedule of
the kernels, a further call over the block manager returns the rows the call over the caches returns, and
attention is given the same keys and values for every layer and item; the order of the threads of a scatter
does not matter; and no gather has run past the end of the scratch buffers. -/
theorem forwardBatchPaged_eq_forwardBatch {c : PoolConfig} (hfits : Fits M c)
    (hs : (machine M c sched setup).Reachable (Allowed c) s) (ha : Allowed c s feeds) :
    outcome (M.forwardBatchPaged c sched (feedItems feeds)) s.paged =
        outcome (M.forwardBatch (feeds.map cacheItem)) s.caches ∧
      (feeds ≠ [] → (∀ f ∈ feeds, f.2 ≠ []) →
        ∃ logits, outcome (M.forwardBatch (feeds.map cacheItem)) s.caches = .ok logits) ∧
      M.pagedCalls c sched (feedItems feeds) s.paged = M.batchCalls (feeds.map cacheItem) s.caches ∧
      (∀ f ∈ feeds, ∀ (order order' : Nat → List Nat),
        (∀ threads, (order threads).Perm (List.range threads)) →
        (∀ threads, (order' threads).Perm (List.range threads)) → ∀ src pool : Nat → K,
        let m := finalState (reserveItems c (feedItems feeds) 0) s.paged.pool
        pagedScatter order (m.uploadTable f.1).tableEntry src (m.seqs f.1).length f.2.length c.blockSize
            c.kvDim pool =
          pagedScatter order' (m.uploadTable f.1).tableEntry src (m.seqs f.1).length f.2.length c.blockSize
            c.kvDim pool) ∧
      (finalState (M.forwardBatchPaged c sched (feedItems feeds)) s.paged).scratch.overrun = false := by
  have h := inv_reachable hfits hs
  obtain ⟨hsame, hnext⟩ := h.step sched setup hfits ha
  refine ⟨hsame.outcome, fun hne hnonempty => ?_, hsame.calls, ?_, hnext.overrun⟩
  · have hreturns := hsame.returns hne hnonempty
    cases hrun : M.forwardBatch (feeds.map cacheItem) s.caches with
    | ok logits caches => exact ⟨logits, by rw [Exec.outcome, hrun]⟩
    | error e caches => rw [Exec.returns, hrun] at hreturns; cases hreturns
  · intro f hf order order' horder horder' src pool
    exact h.scatter_perm ha hf rfl horder horder' src pool

theorem length_tinyLogits (row : Row ℚ) :
    ((List.range 3).map fun i : Nat => (if row.sum.num % 3 = i then 1 else 0 : ℚ)).length = 3 := by
  rw [List.length_map, List.length_range]

theorem tiny_headDim_le : 1 ≤ 256 := by decide

/-- The model of one layer whose rows are one number. -/
def tiny : SizedModel ℚ where
  toCudaModel :=
    { config := ⟨1, 1, 1, 1, 3, 1, 0, false⟩
      decoder :=
        { embed := fun t => [(t : ℚ)]
          block := fun _ =>
            { query := fun _ row => row
              key := fun _ row => [row.sum]
              value := fun _ row => [row.sum]
              attend := fun _ _ values => [(values.map List.sum).sum]
              finish := List.zipWith (· + ·) } }
      finalNorm := fun row => row
      lmHead := fun row => (List.range 3).map fun i => if row.sum.num % 3 = i then 1 else 0
      length_lmHead := length_tinyLogits
      headDim_le := tiny_headDim_le }
  length_key _ _ _ := rfl
  length_value _ _ _ := rfl

theorem forwardBatchPaged_eq_forwardBatch_tiny :
    let m := machine tiny tinyPool .ascending ⟨fun _ _ => 7, fun _ _ => 7, fun _ => 7, fun _ => 7, fun _ => 3⟩
    let s := m.next m.start [(0, [1, 2]), (1, [2])]
    ∃ logits, outcome (tiny.forwardBatch ([(1, [0]), (0, [2])].map cacheItem)) s.caches = .ok logits := by
  have hfits : Fits tiny tinyPool := ⟨by decide, by decide⟩
  exact (forwardBatchPaged_eq_forwardBatch hfits
    (.next .start ⟨by decide, by decide +kernel, by decide +kernel⟩)
    ⟨by decide, by decide +kernel, by decide +kernel⟩).2.1 (by decide) (by decide)

end PagedRun

end InferenceEngine
