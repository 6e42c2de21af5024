import InferenceEngine.KvCache.Sharing
import InferenceEngine.Model.HostBatch

/-!
# Runs of batches on flat vectors

Sequences come and go on one block manager: batches feed them, and one that is done gives its blocks back, which
keep the old numbers until another sequence writes over them. Every batch of such a run returns the last logits that
`forward` gives for everything its sequences were fed since they were fresh.
-/

namespace InferenceEngine

open Exec

namespace BatchRun

variable {W Q K : Type} {M : Model W Q K} {c : PoolSizes} {fed : Nat → List Int} {p : Pool K}

theorem Inv.wp_free (h : Inv M c fed p) (id : Nat) :
    wp (Pool.free id) (fun _ p' => Inv M c (Function.update fed id []) p') (fun _ _ => False) p := by
  obtain ⟨n, hwf⟩ := h.wf
  have hwf' : p.Wf c (max n (id + 1)) := hwf.mono (le_max_left _ _)
  have hid : id < max n (id + 1) := lt_of_lt_of_le (Nat.lt_succ_self id) (le_max_right _ _)
  apply wp_mono (Pool.wp_free hid hwf') ?_ fun _ _ hf => hf
  intro _ p' hp'
  obtain ⟨hwf'', hfreed⟩ := hp'
  have hself : Function.update fed id [] id = [] := Function.update_self id [] fed
  have hother : ∀ i, i ≠ id → Function.update fed id [] i = fed i := fun i hi => Function.update_of_ne hi [] fed
  constructor
  · exact ⟨_, hwf''⟩
  · intro i t ht
    by_cases hi : i = id
    · rw [hi, hself] at ht
      exact absurd ht List.not_mem_nil
    · rw [hother i hi] at ht
      exact h.vocab i t ht
  · intro i
    by_cases hi : i = id
    · rw [hi, hself, hfreed.self]
      rfl
    · rw [hother i hi, hfreed.others i hi, h.length]
  · intro i
    by_cases hi : i = id
    · rw [hi, hself, hfreed.self]
      exact (Nat.le_zero.mp (c.blocksFor_le_iff.mpr (Nat.zero_le _))).symm
    · rw [hother i hi, hfreed.others i hi, h.blocks]
  · intro i l hl
    by_cases hi : i = id
    · rw [hi, hself]
      intro r hr
      rw [Causal.Decoder.length_cells] at hr
      exact absurd hr (Nat.not_lt_zero r)
    · rw [hother i hi]
      have htable : (p'.seqs i).blockTable = (p.seqs i).blockTable := by rw [hfreed.others i hi]
      exact (h.holds i l hl).congr fun r _ => Pool.rowAt_congr hfreed.keys hfreed.values htable l r

end BatchRun

namespace Host

/-- A block manager, and the tokens its sequences were fed since they were fresh. -/
structure BatchRun (K : Type) where
  manager : BlockManager K
  fed : Nat → List Int

/-- What a caller does: a batch, or giving the blocks of a sequence back. -/
inductive BatchCall where
  | batch (feeds : List Feed)
  | free (id : Nat)

namespace BatchRun

variable {K : Type} [Field K] [LinearOrder K] (M : Model K) (c : PoolSizes)

def machine : Machine (BatchRun K) BatchCall where
  start := ⟨.create c, fun _ => []⟩
  next s
    | .batch feeds =>
      ⟨finalState (M.forwardBatch c (feedItems feeds)) s.manager, InferenceEngine.BatchRun.feed s.fed feeds⟩
    | .free id => ⟨finalState (BlockManager.onBlocks c (Pool.free id)) s.manager, Function.update s.fed id []⟩

/-- A batch a caller may ask for: distinct sequences, tokens of the vocabulary, and enough blocks. -/
structure Admitted (s : BatchRun K) (feeds : List Feed) : Prop where
  nonempty : feeds ≠ []
  nodup : (feeds.map Prod.fst).Nodup
  tokens : ∀ f ∈ feeds, f.2 ≠ [] ∧ ∀ t ∈ f.2, 0 ≤ t ∧ t < M.checkpoint.config.vocabSize
  blocks : (BlockManager.rows c s.manager).needed c feeds ≤ (BlockManager.rows c s.manager).freeBlocks

def Allowed (s : BatchRun K) : BatchCall → Prop
  | .batch feeds => Admitted M c s feeds
  | .free _ => True

variable {M c} {s : BatchRun K} {feeds : List Feed}

theorem Admitted.toRows (h : Admitted M c s feeds) :
    InferenceEngine.BatchRun.Allowed (M.checkpoint.host M.math) c ⟨BlockManager.rows c s.manager, s.fed⟩ feeds where
  nonempty := h.nonempty
  nodup := h.nodup
  tokens f hf := ⟨(h.tokens f hf).1, fun t ht => Checkpoint.host_inVocab.mpr ((h.tokens f hf).2 t ht)⟩
  blocks := h.blocks

/-- The rows of the manager are the keys and values of what was fed. -/
def Inv (M : Model K) (c : PoolSizes) (s : BatchRun K) : Prop :=
  InferenceEngine.BatchRun.Inv (M.checkpoint.host M.math) c s.fed (BlockManager.rows c s.manager)

theorem Inv.forwardBatch (hkv : c.kvDim = M.checkpoint.kvDim) (h : Inv M c s) (ha : Admitted M c s feeds) :
    ∃ out manager, M.forwardBatch c (feedItems feeds) s.manager = .ok out manager ∧
      out.HasRows M.checkpoint.config.vocabSize
        (feeds.map fun f => ((M.checkpoint.host M.math).logits (s.fed f.1 ++ f.2)).getLastD []) ∧
      Inv M c ⟨manager, InferenceEngine.BatchRun.feed s.fed feeds⟩ := by
  have hrows : InferenceEngine.BatchRun.Inv (M.checkpoint.host M.math) c s.fed (BlockManager.rows c s.manager) := h
  obtain ⟨logits, p', hrun, hlogits, hinv⟩ := wp_returns (hrows.wp_forwardBatch
    (s := ⟨BlockManager.rows c s.manager, s.fed⟩) Checkpoint.host_complete ha.toRows)
  obtain ⟨out, manager, hout, hrows, hpool⟩ := Model.follows_forwardBatch hkv (feedItems feeds) s.manager _ rfl _ _ hrun
  subst hlogits hpool
  exact ⟨out, manager, hout, hrows, hinv⟩

theorem Inv.free (h : Inv M c s) (id : Nat) : Inv M c ((machine M c).next s (.free id)) := by
  obtain ⟨_, p', hrun, hinv⟩ := wp_returns (InferenceEngine.BatchRun.Inv.wp_free h id)
  obtain ⟨_, manager, hfree, -, hpool⟩ := BlockManager.follows_onBlocks (Pool.leaves_free id) s.manager _ rfl _ _ hrun
  subst hpool
  rw [machine]
  dsimp only
  rw [finalState, hfree]
  exact hinv

theorem inv_start : Inv M c (machine M c).start := by
  rw [Inv, machine]
  dsimp only
  rw [BlockManager.rows_create]
  exact InferenceEngine.BatchRun.inv_start

theorem inv_reachable (hkv : c.kvDim = M.checkpoint.kvDim) (hs : (machine M c).Reachable (Allowed M c) s) :
    Inv M c s := by
  apply hs.invariant inv_start
  intro s call _ h ha
  cases call with
  | free id => exact h.free id
  | batch feeds =>
    obtain ⟨out, manager, hrun, -, hinv⟩ := h.forwardBatch hkv ha
    rw [machine]
    dsimp only
    rw [finalState, hrun]
    exact hinv

theorem Inv.vocab (h : Inv M c s) (i : Nat) : ∀ t ∈ s.fed i, 0 ≤ t ∧ t < M.checkpoint.config.vocabSize := by
  intro t ht
  have hrows : InferenceEngine.BatchRun.Inv (M.checkpoint.host M.math) c s.fed (BlockManager.rows c s.manager) := h
  exact Checkpoint.host_inVocab.mp (hrows.vocab i t ht)

theorem Admitted.vocab (h : Inv M c s) (ha : Admitted M c s feeds) {f : Feed} (hf : f ∈ feeds) :
    ∀ t ∈ s.fed f.1 ++ f.2, 0 ≤ t ∧ t < M.checkpoint.config.vocabSize := by
  intro t ht
  obtain ht | ht := List.mem_append.mp ht
  · exact h.vocab f.1 t ht
  · exact (ha.tokens f hf).2 t ht

/-- **Batches over flat vectors**: in any run of batches and frees, a batch returns a row for every item, which is
the last row of `forward` on everything its sequence was fed; its length and its blocks are for just that. -/
theorem batches_eq_forward {c : PoolConfig} (hkv : c.kvDim = M.checkpoint.kvDim)
    (hs : (machine M c).Reachable (Allowed M c) s) (ha : Admitted M c s feeds) :
    ∃ out manager, M.forwardBatch c (feedItems feeds) s.manager = .ok out manager ∧
      out.shape = [feeds.length, M.checkpoint.config.vocabSize] ∧
      ∀ (i : Nat) (f : Feed), feeds[i]? = some f →
        M.LastRow (s.fed f.1 ++ f.2) out i ∧
        (manager.seqs f.1).length = (s.fed f.1 ++ f.2).length ∧
        (manager.seqs f.1).blockTable.length = c.blocksFor (s.fed f.1 ++ f.2).length := by
  have h := inv_reachable hkv hs
  obtain ⟨out, manager, hrun, hout, hinv⟩ := h.forwardBatch hkv ha
  refine ⟨out, manager, hrun, ?_, fun i f hf => ?_⟩
  · rw [hout.shape, List.length_map]
  · have hmem := List.mem_of_getElem? hf
    have hfed : InferenceEngine.BatchRun.feed s.fed feeds f.1 = s.fed f.1 ++ f.2 :=
      InferenceEngine.BatchRun.feed_of_mem ha.nodup hmem
    refine ⟨Model.lastRow_of_hasRows hout hf ?_ (ha.vocab h hmem), ?_, ?_⟩
    · exact List.append_ne_nil_of_right_ne_nil _ (ha.tokens f hmem).1
    · rw [← hfed]
      exact hinv.length f.1
    · rw [← hfed]
      exact hinv.blocks f.1

theorem batches_eq_forward_reused :
    let M : Model ℝ := ⟨tinyCheckpoint, realFunctions⟩
    let c : PoolConfig := ⟨⟨1, 2, 2, 4, Nat.one_pos, Nat.two_pos, Nat.two_pos⟩, by decide⟩
    let s := (machine M c).next ((machine M c).next (machine M c).start (.batch [(0, [1, 2]), (1, [2])])) (.free 0)
    ∃ out manager, M.forwardBatch c (feedItems [(1, [0]), (0, [2])]) s.manager = .ok out manager ∧
      out.shape = [2, 3] ∧ M.LastRow [2, 0] out 0 ∧ M.LastRow [2] out 1 := by
  intro M c s
  have hfirst : Admitted M c (machine M c).start [(0, [1, 2]), (1, [2])] := by
    refine ⟨by decide, by decide, ?_, by decide +kernel⟩
    have htokens : ∀ f ∈ ([(0, [1, 2]), (1, [2])] : List Feed), f.2 ≠ [] ∧ ∀ t ∈ f.2, 0 ≤ t ∧ t < (3 : Nat) := by
      decide
    exact htokens
  have hs : (machine M c).Reachable (Allowed M c) s := .next (.next .start hfirst) trivial
  have hadmitted : Admitted M c s [(1, [0]), (0, [2])] := by
    refine ⟨by decide, by decide, ?_, by decide +kernel⟩
    have htokens : ∀ f ∈ ([(1, [0]), (0, [2])] : List Feed), f.2 ≠ [] ∧ ∀ t ∈ f.2, 0 ≤ t ∧ t < (3 : Nat) := by
      decide
    exact htokens
  obtain ⟨out, manager, hrun, hshape, hrows⟩ := batches_eq_forward rfl hs hadmitted
  exact ⟨out, manager, hrun, hshape, (hrows 0 _ rfl).1, (hrows 1 _ rfl).1⟩

end BatchRun

end Host

end InferenceEngine
