import InferenceEngine.Cuda.DevicePaged
import InferenceEngine.Cuda.DeviceRun

/-!
# Runs of paged batches on the device

Sequences share the blocks of one device block manager. Batches feed them, a sequence that is done gives its blocks
back, and a batch for which the blocks do not suffice fails with some of them already in the tables. Whatever blocks a
sequence was given, and whatever sequences wrote there before, a batch gives the last logits that the host's forward
pass gives for everything its sequences were fed since they were fresh.
-/

namespace InferenceEngine

open Exec

/-! ### Blocks -/

namespace GpuPool

variable {K : Type} {c : PoolSizes} {n : Nat} {m : GpuPool K} {feeds : List Feed}

/-- `free`: every block of the sequence goes back, and the sequence is fresh again. -/
def free (id : Nat) : EStateM Error (GpuPool K) Unit := do
  forM ((← get).seqs id).blockTable fun block => do
    let alloc ← lift ((← get).alloc.free block)
    modify fun m => { m with alloc }
  modify fun m => { m with seqs := Function.update m.seqs id {} }

theorem simulates_free (id : Nat) : Simulates (toPool c) (free id : EStateM Error (GpuPool K) Unit) (Pool.free id) := by
  intro m Q E h
  rw [Pool.free, wp_bind, wp_get] at h
  rw [free, wp_bind, wp_get]
  have hblock : ∀ block, Simulates (toPool c) (do
      let alloc ← lift ((← get).alloc.free block)
      modify fun m => { m with alloc } : EStateM Error (GpuPool K) PUnit) (Pool.onAlloc fun a => a.free block) := by
    intro block m Q E h
    rw [Pool.onAlloc, wp_bind, wp_get, wp_bind, wp_lift] at h
    rw [wp_bind, wp_get, wp_bind, wp_lift]
    exact h
  have hloop := Simulates.forM hblock (m.seqs id).blockTable
  exact (hloop.bind fun _ => simulates_modify fun m => rfl) m Q E h

theorem wp_allocate_count (m : GpuPool K) :
    wp (allocate : EStateM Error (GpuPool K) Nat)
      (fun _ m' => m'.alloc.numFree + 1 = m.alloc.numFree ∧ m'.seqs = m.seqs)
      (fun _ _ => True) m := by
  rw [allocate, wp_bind, wp_get, wp_bind, wp_lift]
  refine ⟨fun out hout => ?_, fun _ _ => trivial⟩
  rw [wp_bind, wp_modify, wp_pure]
  refine ⟨?_, rfl⟩
  rw [BlockAllocator.allocate] at hout
  split at hout
  · cases hout
  · next b rest hfree =>
    cases hout
    rw [BlockAllocator.numFree, BlockAllocator.numFree, hfree, List.length_cons]

theorem wp_reserve_count (id nNew : Nat) (m : GpuPool K) :
    wp (reserve c id nNew : EStateM Error (GpuPool K) Unit)
      (fun _ _ => c.blocksFor ((m.seqs id).length + nNew) - (m.seqs id).blockTable.length ≤ m.alloc.numFree)
      (fun _ _ => True) m := by
  rw [reserve, wp_bind, wp_get]
  dsimp only
  generalize c.blocksFor ((m.seqs id).length + nNew) - (m.seqs id).blockTable.length = missing
  apply wp_mono (wp_forM (I := fun todo m' => m'.alloc.numFree + missing = m.alloc.numFree + todo.length)
    (E := fun _ _ => True) ?_ _ m ?_) ?_ fun _ _ _ => trivial
  · intro _ todo m' hm'
    rw [wp_bind]
    apply wp_mono (wp_allocate_count m') ?_ fun _ _ _ => trivial
    intro block m'' hm''
    rw [wp_modify]
    show m''.alloc.numFree + missing = _
    rw [List.length_cons] at hm'
    omega
  · rw [List.length_range]
  · intro _ m' hm'
    rw [List.length_nil] at hm'
    omega

/-- Without enough blocks some item gets none, and then the tables have only grown. -/
theorem wp_reserveItems_fits (h : (m.toPool c).Wf c n) (hids : ∀ f ∈ feeds, f.1 < n)
    (hnodup : (feeds.map Prod.fst).Nodup) (maxTotal : Nat) :
    wp (reserveItems c (feedItems feeds) maxTotal)
      (fun _ _ => (m.toPool c).needed c feeds ≤ (m.toPool c).freeBlocks)
      (fun _ m' => (m'.toPool c).Wf c n ∧ Pool.Extended (feeds.map Prod.fst) (m.toPool c) (m'.toPool c)) m := by
  induction feeds generalizing m maxTotal with
  | nil => exact Nat.zero_le _
  | cons f feeds ih =>
    obtain ⟨id, tokens⟩ := f
    have hid : id < n := hids _ List.mem_cons_self
    rw [List.map_cons, List.nodup_cons] at hnodup
    have hneeded : (m.toPool c).needed c ((id, tokens) :: feeds) =
        (m.toPool c).missing c (id, tokens) + (m.toPool c).needed c feeds := rfl
    rw [feedItems, List.map_cons, reserveItems]
    dsimp only
    rw [wp_bind]
    apply wp_mono (wp_and (simulates_reserve id tokens.length m _ _ (Pool.wp_reserve tokens.length hid h))
      (wp_reserve_count id tokens.length m))
    · intro _ m' hm'
      obtain ⟨⟨hwf, new, hg, hnew, hfree⟩, hcount⟩ := hm'
      have hmissing : new.length = (m.toPool c).missing c (id, tokens) := hnew
      have hle : (m.toPool c).missing c (id, tokens) ≤ (m.toPool c).freeBlocks := hcount
      obtain ⟨-, htaken⟩ := hfree (hmissing.trans_le hle)
      have hrest : (m'.toPool c).needed c feeds = (m.toPool c).needed c feeds := by
        apply congrArg List.sum
        apply List.map_congr_left
        intro g hg'
        have hmem : g.1 ∈ feeds.map Prod.fst := List.mem_map_of_mem hg'
        have hseq : (m'.toPool c).seqs g.1 = (m.toPool c).seqs g.1 :=
          hg.others _ fun heq => hnodup.1 (heq ▸ hmem)
        rw [Pool.missing, Pool.missing, hseq]
      rw [wp_bind, wp_get, wp_bind]
      apply wp_mono (ih hwf (fun g hg' => hids g (List.mem_cons_of_mem _ hg')) hnodup.2 _)
      · intro _ _ hfits
        rw [wp_pure]
        omega
      · intro _ m'' hm''
        exact ⟨hm''.1, (Pool.Extended.of_grown hg List.mem_cons_self).trans
          (hm''.2.mono (List.subset_cons_self _ _))⟩
    · intro _ m' hm'
      obtain ⟨⟨hwf, ⟨new, hg⟩, -⟩, -⟩ := hm'
      exact ⟨hwf, Pool.Extended.of_grown hg List.mem_cons_self⟩

end GpuPool

/-- A sequence that gives its blocks back was fed nothing. -/
theorem CudaModel.PagedHolds.freed {K : Type} {M : SizedModel K} {c : PoolSizes} {fed : Nat → List Int}
    {p p' : Pool K} {id : Nat} (h : PagedHolds M c fed p) (hwf : ∃ n, p'.Wf c n) (hfreed : Pool.Freed id p p') :
    PagedHolds M c (Function.update fed id []) p' := by
  refine ⟨hwf, fun i => ?_, fun i l hl => ?_⟩
  · by_cases hi : i = id
    · rw [hi, Function.update_self, hfreed.self]
      rfl
    · rw [Function.update_of_ne hi, hfreed.others i hi, h.length]
  · by_cases hi : i = id
    · rw [hi, Function.update_self]
      intro r hr
      rw [Causal.Decoder.length_cells] at hr
      exact absurd hr (Nat.not_lt_zero r)
    · rw [Function.update_of_ne hi]
      have htable : (p'.seqs i).blockTable = (p.seqs i).blockTable := by rw [hfreed.others i hi]
      exact (h.holds i l hl).congr fun r _ => Pool.rowAt_congr hfreed.keys hfreed.values htable l r

namespace Device

namespace CudaModel

open InferenceEngine.CudaModel (PagedHolds)

variable {K : Type} [Field K] [LinearOrder K] {M : CudaModel K} {c : PoolSizes} {fed : Nat → List Int}
  {feeds : List Feed} {s : GpuPaged K}

/-- What lets a batch through: it is not empty, every item has tokens, and there are blocks for them. -/
structure PagedFits (c : PoolSizes) (s : GpuPaged K) (feeds : List Feed) : Prop where
  nonempty : feeds ≠ []
  tokens : ∀ f ∈ feeds, f.2 ≠ []
  blocks : (s.pool.toPool c).needed c feeds ≤ (s.pool.toPool c).freeBlocks

theorem wp_forwardBatchPaged (sched : Kernel.Schedule) (hkv : c.kvDim = M.checkpoint.kvDim)
    (h : PagedHolds M.sized c fed (s.pool.toPool c)) (hover : s.scratch.overrun = false)
    (hnodup : (feeds.map Prod.fst).Nodup) (hfits : PagedFits c s feeds) (run : BatchRun K) :
    wp (M.forwardBatchPaged c sched run (feedItems feeds))
      (fun logits s' => logits.HasRows M.checkpoint.config.vocabSize
          (feeds.map fun f => ((M.checkpoint.host M.math).logits (fed f.1 ++ f.2)).getLastD []) ∧
        PagedHolds M.sized c (InferenceEngine.BatchRun.feed fed feeds) (s'.pool.toPool c) ∧ s'.scratch.overrun = false)
      (fun _ _ => False) s := by
  obtain ⟨rows, s', hrun, hrows, hholds, hover'⟩ := wp_returns (InferenceEngine.CudaModel.wp_forwardBatchPaged
    (M := M.sized) sched hkv h hover hnodup hfits.blocks hfits.nonempty hfits.tokens).1
  obtain ⟨logits, s'', hdevice, hlogits, rfl⟩ := follows_forwardBatchPaged sched hkv run _ s _ rfl _ _ hrun
  apply wp_of_ok hdevice
  have hlast : rows = feeds.map fun f => ((M.checkpoint.host M.math).logits (fed f.1 ++ f.2)).getLastD [] := by
    rw [hrows]
    apply List.map_congr_left
    intro f _
    exact rowsOf_sized.lastLogits _
  rw [hlast] at hlogits
  exact ⟨hlogits, hholds, hover'⟩

theorem wp_forwardBatchPaged_error (sched : Kernel.Schedule) (h : PagedHolds M.sized c fed (s.pool.toPool c))
    (hover : s.scratch.overrun = false) (hnodup : (feeds.map Prod.fst).Nodup) (hfits : ¬PagedFits c s feeds)
    (run : BatchRun K) :
    wp (M.forwardBatchPaged c sched run (feedItems feeds)) (fun _ _ => False)
      (fun _ s' => PagedHolds M.sized c fed (s'.pool.toPool c) ∧ s'.scratch.overrun = false) s := by
  obtain ⟨n, hwf⟩ := h.wf
  obtain ⟨m, hnm, hids⟩ := InferenceEngine.BatchRun.exists_bound n feeds
  rw [forwardBatchPaged, wp_bind]
  by_cases hblocks : (s.pool.toPool c).needed c feeds ≤ (s.pool.toPool c).freeBlocks
  · obtain ⟨out, start, hprepare, -, hstart, hext, -, -, -, hsame⟩ := wp_returns
      (InferenceEngine.CudaModel.wp_preparePaged (M := M.sized) (hwf.mono hnm) hids hnodup hblocks)
    have hprepare : M.preparePaged c (feedItems feeds) s = .ok out start := hprepare
    have hkept := h.extended ⟨m, hstart⟩ hext
    have htokens : (feedItems feeds).map BatchItem.tokens = feeds.map Prod.snd := by
      rw [feedItems, List.map_map]
      rfl
    apply wp_of_ok hprepare
    rw [wp_bind, htokens, forwardBatchDevice]
    split
    · exact ⟨hkept, hsame.trans hover⟩
    split
    · exact ⟨hkept, hsame.trans hover⟩
    · next hne hany =>
      refine absurd ⟨fun hfeeds => hne ?_, fun f hf heq => hany (any_isEmpty.mpr ?_), hblocks⟩ hfits
      · rw [hfeeds]
        rfl
      · rw [← heq]
        exact List.mem_map_of_mem hf
  · rw [preparePaged, wp_bind, wp_zoom]
    apply wp_mono (GpuPool.wp_reserveItems_fits (hwf.mono hnm) hids hnodup 0)
    · exact fun _ _ hfree => absurd hfree hblocks
    · exact fun _ _ hs => ⟨h.extended ⟨m, hs.1⟩ hs.2, hover⟩

end CudaModel

/-- A device block manager, and the tokens its sequences were fed since they were fresh. -/
structure PagedRun (K : Type) where
  paged : GpuPaged K
  fed : Nat → List Int

/-- What a caller does: a batch, or giving the blocks of a sequence back. -/
inductive PagedCall (K : Type) where
  | batch (run : BatchRun K) (feeds : List Feed)
  | free (id : Nat)

namespace PagedRun

open InferenceEngine.CudaModel (PagedHolds)

variable {K : Type} [Field K] [LinearOrder K] (M : CudaModel K) (c : PoolSizes) (sched : Kernel.Schedule)

/-- A block manager under calls, on memory with the given contents. -/
def machine (memory : GpuPaged K) : Machine (PagedRun K) (PagedCall K) where
  start := ⟨⟨.create c memory.pool.keys memory.pool.values, ⟨0, memory.scratch.keys, memory.scratch.values, false⟩⟩,
    fun _ => []⟩
  next s
    | .batch run feeds =>
      match M.forwardBatchPaged c sched run (feedItems feeds) s.paged with
      | .ok _ paged => ⟨paged, InferenceEngine.BatchRun.feed s.fed feeds⟩
      | .error _ paged => ⟨paged, s.fed⟩
    | .free id =>
      ⟨finalState (zoom GpuPaged.pool (fun pool s => { s with pool }) (GpuPool.free id)) s.paged,
        Function.update s.fed id []⟩

/-- A call may fail, but its tokens are known and no batch has a sequence twice. -/
def Allowed (_ : PagedRun K) : PagedCall K → Prop
  | .batch _ feeds => CachesRun.Known M feeds
  | .free _ => True

variable {M c} {memory : GpuPaged K} {s : PagedRun K} {feeds : List Feed}

/-- The pool holds what its sequences were fed. -/
structure Inv (M : CudaModel K) (c : PoolSizes) (s : PagedRun K) : Prop where
  holds : PagedHolds M.sized c s.fed (s.paged.pool.toPool c)
  overrun : s.paged.scratch.overrun = false
  vocab : ∀ i, ∀ t ∈ s.fed i, 0 ≤ t ∧ t < M.checkpoint.config.vocabSize

theorem Inv.batch (hkv : c.kvDim = M.checkpoint.kvDim) (h : Inv M c s) (hknown : CachesRun.Known M feeds)
    (run : BatchRun K) : Inv M c ((machine M c sched memory).next s (.batch run feeds)) := by
  rw [machine]
  dsimp only
  by_cases hfits : CudaModel.PagedFits c s.paged feeds
  · obtain ⟨_, paged, hrun, -, hholds, hover⟩ := wp_returns
      (CudaModel.wp_forwardBatchPaged sched hkv h.holds h.overrun hknown.nodup hfits run)
    rw [hrun]
    exact ⟨hholds, hover, hknown.vocab_feed h.vocab⟩
  · obtain ⟨_, paged, hrun, hholds, hover⟩ := wp_throws
      (CudaModel.wp_forwardBatchPaged_error sched h.holds h.overrun hknown.nodup hfits run)
    rw [hrun]
    exact ⟨hholds, hover, h.vocab⟩

theorem Inv.free (h : Inv M c s) (id : Nat) : Inv M c ((machine M c sched memory).next s (.free id)) := by
  obtain ⟨n, hwf⟩ := h.holds.wf
  have hwf' : (s.paged.pool.toPool c).Wf c (max n (id + 1)) := hwf.mono (le_max_left _ _)
  have hid : id < max n (id + 1) := lt_of_lt_of_le (Nat.lt_succ_self id) (le_max_right _ _)
  obtain ⟨_, pool, hrun, hfreed⟩ := wp_returns
    (wp_mono (GpuPool.simulates_free id s.paged.pool _ _ (Pool.wp_free hid hwf')) (fun _ _ hs => hs) fun _ _ hf => hf)
  have hfinal : finalState (zoom GpuPaged.pool (fun pool s => { s with pool }) (GpuPool.free id)) s.paged =
      { s.paged with pool } := by
    rw [finalState, zoom, hrun]
  rw [machine]
  dsimp only
  rw [hfinal]
  refine ⟨h.holds.freed ⟨_, hfreed.1⟩ hfreed.2, h.overrun, fun i t ht => ?_⟩
  dsimp only at ht
  by_cases hi : i = id
  · rw [hi, Function.update_self] at ht
    exact absurd ht List.not_mem_nil
  · rw [Function.update_of_ne hi] at ht
    exact h.vocab i t ht

theorem inv_reachable (hkv : c.kvDim = M.checkpoint.kvDim)
    (hs : (machine M c sched memory).Reachable (Allowed M) s) : Inv M c s := by
  apply hs.invariant
  · exact
      { holds :=
          { wf := ⟨0, GpuPool.wf_create 0 _ _⟩
            length := fun _ => rfl
            holds := fun _ _ _ r hr => absurd hr (by simp [machine]) }
        overrun := rfl
        vocab := fun _ _ ht => absurd ht List.not_mem_nil }
  intro s call _ h ha
  cases call with
  | batch run feeds => exact h.batch sched hkv ha run
  | free id => exact h.free sched id

/-- **Paged batches on the device**: after any run of batches, that may have failed, and frees, a batch for which
there are blocks gives for every item the last row of the host's `forward` on everything its sequence was fed; one
that is turned down leaves the lengths of the sequences; and no gather stores past the end of the scratch buffers. -/
theorem paged_batches_eq_host {c : PoolConfig} (hkv : c.kvDim = M.checkpoint.kvDim)
    (hs : (machine M c sched memory).Reachable (Allowed M) s) (hknown : CachesRun.Known M feeds) (run : BatchRun K) :
    (CudaModel.PagedFits c s.paged feeds →
      ∃ out paged, M.forwardBatchPaged c sched run (feedItems feeds) s.paged = .ok out paged ∧
        out.shape = [feeds.length, M.checkpoint.config.vocabSize] ∧
        (∀ (i : Nat) (f : Feed), feeds[i]? = some f → M.host.LastRow (s.fed f.1 ++ f.2) out i ∧
          (paged.pool.seqs f.1).length = (s.fed f.1 ++ f.2).length) ∧
        paged.scratch.overrun = false) ∧
    (¬CudaModel.PagedFits c s.paged feeds →
      ∃ e paged, M.forwardBatchPaged c sched run (feedItems feeds) s.paged = .error e paged ∧
        (∀ id, (paged.pool.seqs id).length = (s.paged.pool.seqs id).length) ∧ paged.scratch.overrun = false) := by
  have h := inv_reachable sched hkv hs
  constructor
  · intro hfits
    obtain ⟨out, paged, hrun, hrows, hholds, hover⟩ := wp_returns
      (CudaModel.wp_forwardBatchPaged sched hkv h.holds h.overrun hknown.nodup hfits run)
    refine ⟨out, paged, hrun, ?_, fun i f hf => ?_, hover⟩
    · rw [hrows.shape, List.length_map]
    · have hmem := List.mem_of_getElem? hf
      have hlength := hholds.length f.1
      rw [InferenceEngine.BatchRun.feed_of_mem hknown.nodup hmem] at hlength
      exact ⟨Host.Model.lastRow_of_hasRows (M := M.host) hrows hf
        (List.append_ne_nil_of_right_ne_nil _ (hfits.tokens f hmem)) (hknown.vocab_append h.vocab hmem), hlength⟩
  · intro hfits
    obtain ⟨e, paged, hrun, hholds, hover⟩ := wp_throws
      (CudaModel.wp_forwardBatchPaged_error sched h.holds h.overrun hknown.nodup hfits run)
    exact ⟨e, paged, hrun, fun id => (hholds.length id).trans (h.holds.length id).symm, hover⟩

theorem paged_batches_eq_host_reused :
    let M := CudaModel.tinyModel
    let c : PoolConfig := ⟨⟨1, 2, 2, 4, Nat.one_pos, Nat.two_pos, Nat.two_pos⟩, by decide⟩
    let run := CachesRun.tinyBatchRun
    let array : Nat → ℝ := fun _ => 7
    let memory : GpuPaged ℝ := ⟨.create c (fun _ => array) (fun _ => array), ⟨0, array, array, false⟩⟩
    let m := machine M c .ascending memory
    -- the second batch fails for want of blocks
    let s := m.next (m.next (m.next m.start (.batch run [(0, [1, 2]), (1, [2])]))
      (.batch run [(1, [0, 1, 2, 0, 1, 2])])) (.free 0)
    (∃ out paged, M.forwardBatchPaged c .ascending run (feedItems [(1, [0]), (0, [2])]) s.paged = .ok out paged ∧
      out.shape = [2, 3] ∧ M.host.LastRow [2, 0] out 0 ∧ M.host.LastRow [2] out 1) ∧
    ∃ e paged, M.forwardBatchPaged c .ascending run (feedItems [(1, [0, 1, 2, 0, 1, 2, 0, 1])]) s.paged =
        .error e paged ∧ (paged.pool.seqs 1).length = 1 := by
  intro M c run array memory m s
  have hknown : ∀ feeds : List Feed, (feeds.map Prod.fst).Nodup → (∀ f ∈ feeds, ∀ t ∈ f.2, 0 ≤ t ∧ t < (3 : Nat)) →
      CachesRun.Known M feeds := fun feeds hnodup hvocab => ⟨hnodup, hvocab⟩
  have hs : m.Reachable (Allowed M) s :=
    .next (.next (.next .start (hknown _ (by decide) (by decide))) (hknown _ (by decide) (by decide))) trivial
  have hfits : CudaModel.PagedFits c s.paged [(1, [0]), (0, [2])] := ⟨by decide, by decide, by decide +kernel⟩
  have hlong : ¬CudaModel.PagedFits c s.paged [(1, [0, 1, 2, 0, 1, 2, 0, 1])] :=
    fun h => absurd h.blocks (by decide +kernel)
  obtain ⟨out, paged, hrun, hshape, hrows, -⟩ :=
    (paged_batches_eq_host .ascending rfl hs (hknown [(1, [0]), (0, [2])] (by decide) (by decide)) run).1 hfits
  obtain ⟨e, paged', herror, hlength, -⟩ := (paged_batches_eq_host .ascending rfl hs
    (hknown [(1, [0, 1, 2, 0, 1, 2, 0, 1])] (by decide) (by decide)) run).2 hlong
  have hone : s.fed 1 ++ [0] = [2, 0] := by decide +kernel
  have hzero : s.fed 0 ++ [2] = [2] := by decide +kernel
  have hfirst := (hrows 0 _ rfl).1
  have hsecond := (hrows 1 _ rfl).1
  rw [hone] at hfirst
  rw [hzero] at hsecond
  exact ⟨⟨out, paged, hrun, hshape, hfirst, hsecond⟩, e, paged', herror, (hlength 1).trans (by decide +kernel)⟩

end PagedRun

end Device

end InferenceEngine
