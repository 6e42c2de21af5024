import InferenceEngine.Library.Machine
import InferenceEngine.Model.BatchRows
import InferenceEngine.Model.Chunks
import Mathlib.Algebra.Order.Group.Nat

/-!
# Runs of batches

Any number of `forward_batch` calls on one block manager. The ghost `fed` remembers what every sequence
was fed; the pool holds the keys and values of exactly that.
-/

namespace InferenceEngine

open Exec

/-- A block manager, and the tokens fed to its sequences. -/
structure BatchRun (K : Type) where
  pool : Pool K
  fed : Nat → List Int

namespace BatchRun

variable {W Q K : Type} (M : Model W Q K) (c : PoolSizes)

/-- The tokens of a sequence after a batch. -/
def feed (fed : Nat → List Int) (feeds : List Feed) (i : Nat) : List Int :=
  fed i ++ (feeds.filter fun f => f.1 = i).flatMap Prod.snd

def machine [Zero K] : Machine (BatchRun K) (List Feed) where
  start := ⟨.create c, fun _ => []⟩
  next s feeds := ⟨finalState (M.forwardBatch c (feedItems feeds)) s.pool, feed s.fed feeds⟩

/-- The calls a caller may make: distinct sequences, tokens in the vocabulary, and enough blocks. -/
structure Allowed (s : BatchRun K) (feeds : List Feed) : Prop where
  nonempty : feeds ≠ []
  nodup : (feeds.map Prod.fst).Nodup
  tokens : ∀ f ∈ feeds, f.2 ≠ [] ∧ ∀ t ∈ f.2, M.InVocab t
  blocks : s.pool.needed c feeds ≤ s.pool.freeBlocks

/-- The pool holds the keys and values of what was fed. -/
structure Inv (fed : Nat → List Int) (p : Pool K) : Prop where
  wf : ∃ n, p.Wf c n
  vocab : ∀ i, ∀ t ∈ fed i, M.InVocab t
  length : ∀ i, (p.seqs i).length = (fed i).length
  blocks : ∀ i, (p.seqs i).blockTable.length = c.blocksFor (fed i).length
  holds : ∀ i, ∀ l < M.config.numHiddenLayers, p.Holds c l i (M.decoder.cells l (fed i))

variable {M c} {s : BatchRun K} {feeds : List Feed} {fed : Nat → List Int}

theorem feed_of_not_mem {i : Nat} (hi : i ∉ feeds.map Prod.fst) :
    feed fed feeds i = fed i := by
  have hnil : feeds.filter (fun f => f.1 = i) = [] := by
    rw [List.filter_eq_nil_iff]
    intro f hf heq
    exact hi (List.mem_map.mpr ⟨f, hf, by simpa using heq⟩)
  rw [feed, hnil, List.flatMap_nil, List.append_nil]

theorem feed_of_mem (hnodup : (feeds.map Prod.fst).Nodup) {f : Feed}
    (hf : f ∈ feeds) : feed fed feeds f.1 = fed f.1 ++ f.2 := by
  have hone : feeds.filter (fun g => g.1 = f.1) = [f] := by
    induction feeds with
    | nil => simp at hf
    | cons g feeds ih =>
      simp only [List.map_cons, List.nodup_cons] at hnodup
      rcases List.mem_cons.mp hf with rfl | hf
      · have hrest : feeds.filter (fun g => g.1 = f.1) = [] := by
          rw [List.filter_eq_nil_iff]
          intro h hh heq
          exact hnodup.1 (List.mem_map.mpr ⟨h, hh, by simpa using heq⟩)
        simp [hrest]
      · have hne : g.1 ≠ f.1 := fun heq => hnodup.1 (heq ▸ List.mem_map_of_mem hf)
        simpa [hne] using ih hnodup.2 hf
  rw [feed, hone, List.flatMap_singleton]

theorem exists_bound (n : Nat) (feeds : List Feed) : ∃ m, n ≤ m ∧ ∀ f ∈ feeds, f.1 < m := by
  refine ⟨n + (feeds.map Prod.fst).sum + 1, by omega, fun f hf => ?_⟩
  have hle := List.le_sum_of_mem (List.mem_map_of_mem (f := Prod.fst) hf)
  omega

theorem inv_start [Zero K] : Inv M c (fun _ => []) (Pool.create c) where
  wf := ⟨0, Pool.wf_create 0⟩
  vocab _ _ ht := by simp at ht
  length _ := rfl
  blocks _ := by simp [Pool.create]
  holds _ _ _ r hr := by simp at hr

theorem Inv.wp_forwardBatch (hM : M.Complete) (h : Inv M c s.fed s.pool) (ha : Allowed M c s feeds) :
    wp (M.forwardBatch c (feedItems feeds))
      (fun logits p' => logits = feeds.map (fun f => (M.logits (s.fed f.1 ++ f.2)).getLastD []) ∧
        Inv M c (feed s.fed feeds) p')
      (fun _ _ => False) s.pool := by
  obtain ⟨n, hwf⟩ := h.wf
  obtain ⟨m, hnm, hids⟩ := exists_bound n feeds
  have hwf' := hwf.mono hnm
  refine wp_mono (wp_and (Model.wp_forwardBatch hwf' hids ha.nodup)
    (Model.wp_forwardBatch_rows hM hwf' s.fed hids ha.nodup ha.nonempty ha.tokens
      (fun f _ => h.length f.1) (fun f _ => h.holds f.1) ha.blocks)) ?_ fun _ _ hf => hf.2
  rintro logits p' ⟨⟨hwf'', hfed, -⟩, hlogits, hholds⟩
  refine ⟨hlogits, ⟨m, hwf''⟩, fun i t ht => ?_, fun i => ?_, fun i => ?_, fun i l hl => ?_⟩
  · rcases List.mem_append.mp ht with ht | ht
    · exact h.vocab i t ht
    · obtain ⟨f, hf, htf⟩ := List.mem_flatMap.mp ht
      exact (ha.tokens f (List.mem_of_mem_filter hf)).2 t htf
  · by_cases hi : i ∈ feeds.map Prod.fst
    · obtain ⟨f, hf, rfl⟩ := List.mem_map.mp hi
      rw [hfed.length f hf, feed_of_mem ha.nodup hf, h.length, List.length_append]
    · rw [hfed.others i hi, feed_of_not_mem hi, h.length]
  · by_cases hi : i ∈ feeds.map Prod.fst
    · obtain ⟨f, hf, rfl⟩ := List.mem_map.mp hi
      rw [hfed.blocks f hf, Pool.missing, feed_of_mem ha.nodup hf, h.blocks, h.length,
        List.length_append]
      exact Nat.add_sub_of_le (c.blocksFor_mono (Nat.le_add_right _ _))
    · rw [hfed.others i hi, feed_of_not_mem hi, h.blocks]
  · by_cases hi : i ∈ feeds.map Prod.fst
    · obtain ⟨f, hf, rfl⟩ := List.mem_map.mp hi
      rw [feed_of_mem ha.nodup hf]
      exact hholds f hf l hl
    · rw [feed_of_not_mem hi]
      refine (h.holds i l hl).congr fun r hr => hfed.kept.committed i l r ?_
      rw [h.length]
      simpa using hr

theorem inv_reachable [Zero K] (hM : M.Complete) (hs : (machine M c).Reachable (Allowed M c) s) :
    Inv M c s.fed s.pool := by
  refine hs.invariant (I := fun s => Inv M c s.fed s.pool) inv_start fun s feeds _ h ha => ?_
  exact wp_finalState (wp_mono (h.wp_forwardBatch hM ha) (fun _ _ hp => hp.2) fun _ _ hf => hf.elim)

/-- Also runs of an incomplete model, whose calls throw, keep the pool well-formed. -/
theorem wf_reachable [Zero K] (hs : (machine M c).Reachable (Allowed M c) s) : ∃ n, s.pool.Wf c n := by
  refine hs.invariant (I := fun s => ∃ n, s.pool.Wf c n) ⟨0, Pool.wf_create 0⟩ fun s feeds _ h ha => ?_
  obtain ⟨n, hwf⟩ := h
  obtain ⟨m, hnm, hids⟩ := exists_bound n feeds
  exact ⟨m, wp_finalState (wp_mono (Model.wp_forwardBatch (hwf.mono hnm) hids ha.nodup)
    (fun _ _ hp => hp.1) fun _ _ hp => hp.1)⟩

/-- **Batched paged forward**: after any run of batches, a further one returns when the model is complete;
whenever it returns, row `i` is the last row `forward` gives for everything the sequence of item `i` has
been fed, which is also what its length and its block table are for. -/
theorem forwardBatch_eq_forward [Zero K] {c : PoolConfig} (hs : (machine M c).Reachable (Allowed M c) s)
    (ha : Allowed M c s feeds) :
    (M.Complete → ∃ logits p', M.forwardBatch c (feedItems feeds) s.pool = .ok logits p') ∧
    ∀ logits p', M.forwardBatch c (feedItems feeds) s.pool = .ok logits p' →
      logits.length = feeds.length ∧
      ∀ (i : Nat) (f : Feed), feeds[i]? = some f →
        (∃ rows, M.forward (s.fed f.1 ++ f.2) = .ok rows ∧ logits[i]? = rows.getLast?) ∧
        (p'.seqs f.1).length = (s.fed f.1 ++ f.2).length ∧
        (p'.seqs f.1).blockTable.length = c.blocksFor (s.fed f.1 ++ f.2).length := by
  constructor
  · intro hM
    obtain ⟨logits, p', hrun, -⟩ := wp_returns ((inv_reachable hM hs).wp_forwardBatch hM ha)
    exact ⟨logits, p', hrun⟩
  · intro logits p' hrun
    -- a call that returns has found every tensor, so the calls before it did
    obtain ⟨n, hwf⟩ := wf_reachable hs
    obtain ⟨m, hnm, hids⟩ := exists_bound n feeds
    have hM := (wp_ok (Model.wp_forwardBatch (hwf.mono hnm) hids ha.nodup) hrun).2.2.1
    have h := inv_reachable hM hs
    obtain ⟨rfl, hinv⟩ := wp_ok (h.wp_forwardBatch hM ha) hrun
    refine ⟨by simp, fun i f hf => ?_⟩
    have hmem := List.mem_of_getElem? hf
    have hne : s.fed f.1 ++ f.2 ≠ [] := by simp [(ha.tokens f hmem).1]
    have hlogits : M.logits (s.fed f.1 ++ f.2) ≠ [] := by
      rw [← List.length_pos_iff, Model.length_logits]
      exact List.length_pos_iff.mpr hne
    have hlength := hinv.length f.1
    have hblocks := hinv.blocks f.1
    rw [feed_of_mem ha.nodup hmem] at hlength hblocks
    refine ⟨⟨_, Model.forward_eq hM hne ?_, ?_⟩, hlength, hblocks⟩
    · intro t ht
      rcases List.mem_append.mp ht with ht | ht
      · exact h.vocab f.1 t ht
      · exact (ha.tokens f hmem).2 t ht
    · rw [List.getElem?_map, hf, Option.map_some, List.getLast?_eq_some_getLast hlogits,
        List.getLastD_eq_getLast?, List.getLast?_eq_some_getLast hlogits, Option.getD_some]

theorem allowed_tiny {s : BatchRun ℚ} {feeds : List Feed} (hne : feeds ≠ [])
    (hnodup : (feeds.map Prod.fst).Nodup)
    (htokens : ∀ f ∈ feeds, f.2 ≠ [] ∧ ∀ t ∈ f.2, 0 ≤ t ∧ t < 3)
    (hblocks : s.pool.needed tinyPool feeds ≤ s.pool.freeBlocks) : Allowed Model.tiny tinyPool s feeds :=
  ⟨hne, hnodup, fun f hf => ⟨(htokens f hf).1, fun t ht => Model.tiny_inVocab ((htokens f hf).2 t ht)⟩,
    hblocks⟩

theorem forwardBatch_eq_forward_tiny :
    let s := (machine Model.tiny tinyPool).next (machine Model.tiny tinyPool).start [(0, [1, 2]), (1, [2])]
    ∃ logits p', Model.tiny.forwardBatch tinyPool (feedItems [(1, [0]), (0, [2])]) s.pool = .ok logits p' :=
  (forwardBatch_eq_forward
    (.next .start (allowed_tiny (by decide) (by decide) (by decide) (by decide +kernel)))
    (allowed_tiny (by decide) (by decide) (by decide) (by decide +kernel))).1 Model.tiny_complete

end BatchRun

end InferenceEngine
