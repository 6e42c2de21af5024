import InferenceEngine.Engine.Consistency
import Mathlib.Algebra.BigOperators.Ring.Finset

/-!
# Steps that do not throw

With a complete model whose tensors match its config and prompts of known tokens, every context is made of
known tokens and every block table is as long as its rows need. A batch within the free blocks then runs
to the end, so a step never throws.
-/

namespace InferenceEngine

open Exec

namespace Engine

open EngineState

variable {W Q K G : Type} [Field K] [LinearOrder K] (E : Engine W Q K G)

/-- The tokens of a sequence are known, and its table has the blocks of its committed rows and no more. -/
structure SeqReady (seq : EngineSequence K) (blocks : SequenceBlocks) : Prop where
  vocab : ∀ t ∈ seq.context, E.model.InVocab t
  tight : blocks.blockTable.length = E.config.blocksFor blocks.length

/-- Every sequence is ready for a batch. Without the prefix cache nothing is cached. -/
structure Ready (s : EngineState K G) : Prop where
  seq : ∀ id < s.nextId, SeqReady E (s.sequences id) (s.pool.seqs id)
  uncached : E.prefixCache = false → s.pool.prefixes = []

variable {E}

theorem tight_empty : ({} : SequenceBlocks).blockTable.length = E.config.blocksFor ({} : SequenceBlocks).length := by
  have : E.config.blocksFor 0 ≤ 0 := E.config.blocksFor_le_iff.mpr (by simp)
  simp only [List.length_nil]
  omega

namespace Ready

variable {s s' : EngineState K G}

theorem create (rng : G) : Ready E (E.create rng) :=
  ⟨fun id hid => absurd hid (Nat.not_lt_zero id), fun _ => rfl⟩

theorem arrive (h : Ready E s) (hs : Inv E s) {request : Request K}
    (hvocab : ∀ t ∈ request.prompt, E.model.InVocab t) :
    Ready E { s.setSequence s.nextId { request } with
      waiting := s.waiting ++ [s.nextId], nextId := s.nextId + 1 } := by
  refine ⟨fun id hid => ?_, h.uncached⟩
  by_cases hnew : id = s.nextId
  · subst hnew
    simp only [setSequence, Function.update_self, hs.wf.fresh _ le_rfl]
    exact ⟨by simpa [EngineSequence.context] using hvocab, tight_empty⟩
  · simp only [setSequence, Function.update_of_ne hnew]
    exact h.seq id (lt_of_le_of_ne (Nat.le_of_lt_succ hid) hnew)

theorem enter {admitted : List Nat} (h : Ready E s) (ha : Admitted E admitted s s') : Ready E s' := by
  refine ⟨fun id hid => ?_, by rw [ha.pool]; exact h.uncached⟩
  rw [ha.nextId] at hid
  rw [ha.pool, ha.sequences]
  obtain ⟨hvocab, htight⟩ := h.seq id hid
  refine ⟨?_, htight⟩
  split <;> exact hvocab

theorem share {id : Nat} (h : Ready E s) (hs : Inv E s) (hsh : Shared E id s s') : Ready E s' := by
  refine ⟨fun i hi => ?_, fun hcache => ?_⟩
  · rw [hsh.nextId] at hi
    rw [hsh.sequences]
    obtain ⟨hvocab, htight⟩ := h.seq i hi
    refine ⟨hvocab, ?_⟩
    by_cases hii : i = id
    · subst hii
      rw [hsh.acquired.table, hsh.length, List.length_append]
      by_cases hnil : E.sharedBlocks s i = []
      · simpa [hnil] using htight
      · rw [hs.wf.eq_empty (E.may_of_sharedBlocks_ne hnil).2.2]
        simp only [List.length_nil, Nat.zero_add, PoolSizes.blocksFor_mul]
    · rw [hsh.acquired.others i hii]
      exact htight
  · have := hsh.acquired.prefixes
    rw [h.uncached hcache] at this
    simpa using this

theorem preempt {id : Nat} (h : Ready E s) (hp : Preempted E id s s') : Ready E s' := by
  refine ⟨fun i hi => ?_, by rw [hp.freed.prefixes]; exact h.uncached⟩
  rw [hp.nextId] at hi
  by_cases hii : i = id
  · subst hii
    rw [hp.sequences, Function.update_self, hp.freed.self]
    exact ⟨(h.seq i hi).vocab, tight_empty⟩
  · rw [hp.sequences_of_ne hii, hp.freed.others i hii]
    exact h.seq i hi

theorem ran {chosen : List Nat} {logits : Rows K} {p : Pool K} (hmatch : E.model.Matches)
    (h : Ready E s) (hs : Inv E s) (hsub : chosen.Sublist s.running) (hr : Ran E chosen logits p s s') :
    Ready E s' := by
  obtain ⟨-, hfed, -⟩ := wp_ok (wp_forwardChosen hs.sane hsub) hr.forward
  refine ⟨fun id hid => ?_, fun hcache => List.eq_nil_iff_forall_not_mem.mpr fun e he => ?_⟩
  · rw [hr.nextId] at hid
    obtain ⟨hvocab, htight⟩ := h.seq id hid
    by_cases hmem : id ∈ chosen
    · obtain ⟨k, hk⟩ := List.getElem?_of_mem hmem
      obtain ⟨token, hsampled⟩ := hr.sampled hk
      have hf := List.mem_map_of_mem
        (f := fun id => (id, (s.sequences id).stepTokens (s.pool.seqs id))) hmem
      rw [hsampled.seq_eq, hsampled.blocks_eq]
      refine ⟨fun t ht => ?_, ?_⟩
      · rw [EngineSequence.context, EngineSequence.advance, ← List.append_assoc, List.mem_append,
          List.mem_singleton] at ht
        rcases ht with ht | rfl
        · exact hvocab t ht
        · refine ⟨Int.natCast_nonneg _, fun w hw => ?_⟩
          rw [hmatch.vocab_eq w hw]
          exact_mod_cast hsampled.lt
      · split
        · exact tight_empty
        · have hle := E.config.blocksFor_mono (Nat.le_add_right (s.pool.seqs id).length
            ((s.sequences id).stepTokens (s.pool.seqs id)).length)
          have hblocks := hfed.blocks _ hf
          have hlength := hfed.length _ hf
          simp only [Pool.missing] at hblocks hlength
          rw [hblocks, hlength]
          omega
    · obtain ⟨hseq, hpool⟩ := hr.others hmem
      rw [hseq, hpool, hfed.others id (by rwa [map_fst_feeds])]
      exact ⟨hvocab, htight⟩
  · rcases hr.advanced.prefixes e he with hold | ⟨x, -, hon, -⟩
    · have := hfed.prefixes.subset hold
      rw [h.uncached hcache] at this
      cases this
    · rw [hcache] at hon
      cases hon

theorem demand_eq (h : Ready E s) {id : Nat} (hid : id < s.nextId) :
    E.demand s id =
      s.pool.missing E.config (id, (s.sequences id).stepTokens (s.pool.seqs id)) := by
  have hle := E.config.blocksFor_mono (Nat.le_add_right (s.pool.seqs id).length
    ((s.sequences id).stepTokens (s.pool.seqs id)).length)
  have htight := (h.seq id hid).tight
  rw [demand, Pool.missing]
  simp only
  omega

theorem needed_le (h : Ready E s) (hs : Inv E s) {chosen : List Nat} (hf : Formed E chosen s)
    (hne : chosen ≠ []) : s.pool.needed E.config (s.feeds chosen) ≤ s.pool.freeBlocks := by
  have hsum : (chosen.map (E.demand s)).sum = s.pool.needed E.config (s.feeds chosen) := by
    rw [Pool.needed, feeds, List.map_map, Nat.cast_list_sum, List.map_map]
    refine congrArg List.sum (List.map_congr_left fun id hid => ?_)
    exact h.demand_eq (hs.running_lt (hf.sublist.subset hid))
  exact_mod_cast hsum ▸ hf.fits hne

theorem stepTokens_ok (h : Ready E s) (hs : Inv E s) (hserves : E.Serves) {id : Nat}
    (hid : id ∈ s.running) : (s.sequences id).stepTokens (s.pool.seqs id) ≠ [] ∧
      ∀ t ∈ (s.sequences id).stepTokens (s.pool.seqs id), E.model.InVocab t := by
  have hlt := hs.running_lt hid
  have hvocab := (h.seq id hlt).vocab
  unfold EngineSequence.stepTokens
  by_cases hpre : (s.sequences id).prefilled = true
  · have hout := (hs.seq id hlt).output hpre
    rw [if_pos hpre]
    refine ⟨List.cons_ne_nil _ _, fun t ht => hvocab t ?_⟩
    rw [List.mem_singleton] at ht
    rw [ht, List.getLastD_eq_getLast?, List.getLast?_eq_getLast_of_ne_nil hout]
    exact List.mem_append_right _ (List.getLast_mem hout)
  · have hbehind := (hs.seq id hlt).behind hserves (Bool.not_eq_true _ ▸ hpre)
    rw [if_neg hpre]
    refine ⟨List.ne_nil_of_length_pos ?_, fun t ht => hvocab t (List.mem_of_mem_drop ht)⟩
    rw [List.length_drop]
    omega

theorem serves (hM : E.model.Complete) (hmatch : E.model.Matches) (h : Ready E s) (hs : Inv E s)
    {id : Nat} (hid : id < s.nextId) : E.Serves := by
  refine ⟨hM, fun hzero => ?_⟩
  obtain ⟨t, ht⟩ := List.exists_mem_of_ne_nil _ (hs.seq id hid).context
  obtain ⟨w, hw⟩ := hM.embed
  obtain ⟨hpos, hlt⟩ := (h.seq id hid).vocab t ht
  have := hlt w hw
  rw [hmatch.vocab_eq w hw, hzero] at this
  omega

/-- **A batch does not throw.** -/
theorem not_failed (hM : E.model.Complete) (hmatch : E.model.Matches) (h : Ready E s) (hs : Inv E s)
    {chosen : List Nat} {e : Error} (hf : Formed E chosen s) (hne : chosen ≠ []) :
    ¬Failed E chosen e s s' := by
  obtain ⟨first, rest, rfl⟩ := List.exists_cons_of_ne_nil hne
  have hserves := h.serves hM hmatch hs (hs.running_lt (hf.sublist.subset List.mem_cons_self))
  have hreturns : wp (E.model.forwardBatch E.config (feedItems (s.feeds (first :: rest))))
      (fun _ _ => True) (fun _ _ => False) s.pool := by
    refine Model.wp_forwardBatch_returns hM hs.wf (fun f hmem => ?_) ?_ (List.cons_ne_nil _ _)
      (fun f hmem => ?_) (h.needed_le hs hf hne)
    · obtain ⟨id, hid, rfl⟩ := List.mem_map.mp hmem
      exact hs.running_lt (hf.sublist.subset hid)
    · rw [map_fst_feeds]
      exact hf.sublist.nodup hs.sane.running_nodup
    · obtain ⟨id, hid, rfl⟩ := List.mem_map.mp hmem
      exact h.stepTokens_ok hs hserves (hf.sublist.subset hid)
  rintro ⟨p, -, herror | ⟨-, hvocab, -⟩⟩
  · exact wp_error hreturns herror
  · exact hserves.2 hvocab

end Ready

theorem wp_step_ready (hM : E.model.Complete) (hmatch : E.model.Matches) {s : EngineState K G}
    (hs : Inv E s) (hr : Ready E s) :
    wp E.step
      (fun _ s' => ∃ t chosen, Prepares E (E.admitWaiting s.waiting s) t ∧ Formed E chosen t ∧
        Inv E t ∧ Ready E t ∧ (chosen = [] ∧ s' = t ∨ chosen ≠ [] ∧ ∃ logits p, Ran E chosen logits p t s'))
      (fun _ _ => False) s := by
  obtain ⟨admitted, ha⟩ := admitted_admitWaiting (E := E) s
  have hs₁ := hs.enter ha
  have hprepared : ∀ t, Prepares E (E.admitWaiting s.waiting s) t → Inv E t ∧ Ready E t := fun t ht =>
    ht.invariant (I := fun t => Inv E t ∧ Ready E t) hs₁.sane ⟨hs₁, hr.enter ha⟩
      (fun _ _ _ _ h hid hsh => ⟨h.1.share hid hsh, h.2.share h.1 hsh⟩)
      (fun _ _ _ _ h _ hp => ⟨h.1.preempt hp, h.2.preempt hp⟩)
  refine wp_mono (wp_step hs₁.sane) ?_ ?_
  · rintro _ s' ⟨t, chosen, ht, hformed, hend⟩
    exact ⟨t, chosen, ht, hformed, (hprepared t ht).1, (hprepared t ht).2, hend⟩
  · rintro _ s' ⟨t, chosen, ht, hformed, hne, hfailed⟩
    exact (hprepared t ht).2.not_failed hM hmatch (hprepared t ht).1 hformed hne hfailed

end Engine

end InferenceEngine
