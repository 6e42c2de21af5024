import InferenceEngine.Engine.Scheduling
import InferenceEngine.Model.BatchRows

/-!
# What a step does

The batch that scheduling ends with runs: the forward pass, a token for every sequence of it, and finished
sequences give their blocks back. `wp_step` puts the two halves of a step together; an invariant of the
engine is then a matter of the relations it is stated with.
-/

namespace InferenceEngine

open Exec

namespace EngineSequence

variable {K : Type}

/-- Whether `token` completes the output. -/
def Completes (seq : EngineSequence K) (token : Int) : Prop :=
  (0 ≤ seq.request.eosId ∧ token = seq.request.eosId) ∨
    seq.request.maxTokens ≤ ((seq.output ++ [token]).length : Int)

instance (seq : EngineSequence K) (token : Int) : Decidable (seq.Completes token) := by
  unfold Completes
  infer_instance

/-- The sequence after `token` was sampled for it. -/
def advance (seq : EngineSequence K) (token : Int) : EngineSequence K where
  request := seq.request
  output := seq.output ++ [token]
  status := if seq.Completes token then .finished else seq.status
  prefilled := true

end EngineSequence

namespace EngineState

variable {K G : Type}

def feeds (s : EngineState K G) (chosen : List Nat) : List Feed :=
  chosen.map fun id => (id, (s.sequences id).stepTokens (s.pool.seqs id))

theorem map_fst_feeds (s : EngineState K G) (chosen : List Nat) :
    (s.feeds chosen).map Prod.fst = chosen := by
  rw [feeds, List.map_map]
  exact List.map_id chosen

end EngineState

namespace Engine

open EngineState

variable {W Q K G : Type} [Field K] [LinearOrder K] {E : Engine W Q K G}

/-! ### Sampling for a batch -/

variable (E)

def logitsAt (logits : Rows K) (k : Nat) : Row K :=
  sliceRows logits.flatten (k * E.model.config.vocabSize) E.model.config.vocabSize

/-- A token was sampled for the `k`-th sequence `id` of a batch. -/
structure Sampled (logits : Rows K) (k : Nat) (seq : EngineSequence K) (blocks : SequenceBlocks)
    (seq' : EngineSequence K) (blocks' : SequenceBlocks) (token : Nat) : Prop where
  lt : token < E.model.config.vocabSize
  greedy : seq.request.params.temperature ≤ 0 →
    token = Sampler.argmax (E.logitsAt logits k) E.model.config.vocabSize
  seq_eq : seq' = seq.advance token
  blocks_eq : blocks' = if seq.Completes token then {} else blocks

/-- The sequences `done` have been sampled for and retired, or their freshly prefilled blocks cached. -/
structure Advanced (logits : Rows K) (done : List (Batched × Nat)) (s s' : EngineState K G) : Prop where
  wf : s'.pool.Wf E.config s.nextId
  nextId : s'.nextId = s.nextId
  waiting : s'.waiting = s.waiting
  running : s'.running = s.running
  keys : s'.pool.keys = s.pool.keys
  values : s'.pool.values = s.pool.values
  others : ∀ i, i ∉ done.map (fun x => x.1.id) →
    s'.sequences i = s.sequences i ∧ s'.pool.seqs i = s.pool.seqs i
  sampled : ∀ x ∈ done, ∃ token, Sampled E logits x.2 (s.sequences x.1.id) (s.pool.seqs x.1.id)
    (s'.sequences x.1.id) (s'.pool.seqs x.1.id) token
  kept : s.pool.prefixes ⊆ s'.pool.prefixes
  prefixes : ∀ e ∈ s'.pool.prefixes, e ∈ s.pool.prefixes ∨
    ∃ x ∈ done, E.prefixCache = true ∧ x.1.wasPrefill = true ∧
      ∃ j, (s.pool.seqs x.1.id).blockTable[j]? = some e.2.block ∧
        (E.config.spans x.1.prefillCtx)[j]? = some e.2.tokens ∧
        e.2.parent = chainHash ((E.config.spans x.1.prefillCtx).take j)

variable {E}

theorem length_logitsAt_le (logits : Rows K) (k : Nat) :
    (E.logitsAt logits k).length ≤ E.model.config.vocabSize := by
  simp [logitsAt, sliceRows]

theorem Advanced.refl {s : EngineState K G} (h : s.pool.Wf E.config s.nextId) (logits : Rows K) :
    Advanced E logits [] s s :=
  ⟨h, rfl, rfl, rfl, rfl, rfl, fun _ _ => ⟨rfl, rfl⟩, by simp, List.Subset.refl _, fun _ he => .inl he⟩

theorem Advanced.snoc {s t t' : EngineState K G} {logits : Rows K} {done : List (Batched × Nat)}
    (h : Advanced E logits done s t) {b : Batched} {k : Nat} (token : Nat)
    (hnew : b.id ∉ done.map fun x => x.1.id) (hwf : t'.pool.Wf E.config s.nextId)
    (hframe : t'.nextId = t.nextId ∧ t'.waiting = t.waiting ∧ t'.running = t.running)
    (hrows : t'.pool.keys = t.pool.keys ∧ t'.pool.values = t.pool.values)
    (hsequences : ∀ i, i ≠ b.id → t'.sequences i = t.sequences i ∧ t'.pool.seqs i = t.pool.seqs i)
    (hsampled : Sampled E logits k (s.sequences b.id) (s.pool.seqs b.id) (t'.sequences b.id)
      (t'.pool.seqs b.id) token)
    (hkept : t.pool.prefixes ⊆ t'.pool.prefixes)
    (hprefixes : ∀ e ∈ t'.pool.prefixes, e ∈ t.pool.prefixes ∨
      E.prefixCache = true ∧ b.wasPrefill = true ∧
        ∃ j, (s.pool.seqs b.id).blockTable[j]? = some e.2.block ∧
          (E.config.spans b.prefillCtx)[j]? = some e.2.tokens ∧
          e.2.parent = chainHash ((E.config.spans b.prefillCtx).take j)) :
    Advanced E logits (done ++ [(b, k)]) s t' where
  wf := hwf
  nextId := hframe.1.trans h.nextId
  waiting := hframe.2.1.trans h.waiting
  running := hframe.2.2.trans h.running
  keys := hrows.1.trans h.keys
  values := hrows.2.trans h.values
  others i hi := by
    simp only [List.map_append, List.map_cons, List.map_nil, List.mem_append, List.mem_singleton,
      not_or] at hi
    obtain ⟨hseq, hpool⟩ := hsequences i hi.2
    rw [hseq, hpool]
    exact h.others i hi.1
  sampled x hx := by
    rcases List.mem_append.mp hx with hx | hx
    · have hne : x.1.id ≠ b.id := fun heq => hnew (heq ▸ List.mem_map_of_mem hx)
      obtain ⟨hseq, hpool⟩ := hsequences x.1.id hne
      rw [hseq, hpool]
      exact h.sampled x hx
    · rw [List.mem_singleton.mp hx]
      exact ⟨token, hsampled⟩
  kept := fun _ he => hkept (h.kept he)
  prefixes e he := by
    rcases hprefixes e he with he | he
    · refine (h.prefixes e he).imp_right fun ⟨x, hx, hadded⟩ => ?_
      exact ⟨x, List.mem_append_left _ hx, hadded⟩
    · exact .inr ⟨(b, k), List.mem_append_right _ (List.mem_singleton_self _), he⟩

theorem wp_sampleOne {s t : EngineState K G} {logits : Rows K} {done : List (Batched × Nat)}
    (h : Advanced E logits done s t) (hvocab : E.model.config.vocabSize ≠ 0) {b : Batched} (k : Nat)
    (hid : b.id < s.nextId) (hnew : b.id ∉ done.map fun x => x.1.id)
    (hcommitted : E.prefixCache = true → b.wasPrefill = true →
      b.prefillCtx.length ≤ (s.pool.seqs b.id).length) :
    wp (E.sampleOne logits b k)
      (fun finished t' => Advanced E logits (done ++ [(b, k)]) s t' ∧
        (∀ i, i ≠ b.id → t'.sequences i = t.sequences i) ∧
        (finished = false → (t'.sequences b.id).status = (s.sequences b.id).status))
      (fun _ _ => False) t := by
  obtain ⟨hseq, hpool⟩ := h.others b.id hnew
  simp only [sampleOne, wp_bind, wp_get, wp_zoom]
  refine wp_mono (Sampler.wp_sample E.sampler (length_logitsAt_le logits k) _ _) ?_
    fun _ _ he => absurd he.1 hvocab
  rintro token rng ⟨hlt, hgreedy⟩
  rw [hseq] at hgreedy ⊢
  simp only [wp_modify]
  refine wp_ite (fun hdone => ?_) fun hmore => ?_
  · have hcompletes : (s.sequences b.id).Completes token := hdone
    simp only [wp_bind, wp_modify, onPool, wp_zoom, wp_pure]
    refine wp_mono (Pool.wp_free hid h.wf) ?_ fun _ _ hf => hf
    rintro _ p' ⟨hp', hfreed⟩
    have hsame : p'.prefixes = t.pool.prefixes := hfreed.prefixes
    have hself : p'.seqs b.id = if (s.sequences b.id).Completes token then {} else s.pool.seqs b.id := by
      rw [if_pos hcompletes]
      exact hfreed.self
    refine ⟨h.snoc token hnew hp' ⟨rfl, rfl, rfl⟩ ⟨hfreed.keys, hfreed.values⟩ (fun i hi => ?_)
      ⟨hlt, hgreedy, ?_, hself⟩ (fun e he => (hsame ▸ he : e ∈ p'.prefixes)) fun e he => .inl ?_,
      fun i hi => by simp [setSequence, hi], fun hf => absurd hf (by decide)⟩
    · exact ⟨by simp [setSequence, hi], hfreed.others i hi⟩
    · simp [setSequence, EngineSequence.advance, hcompletes]
    · exact hsame ▸ (he : e ∈ p'.prefixes)
  · have hcompletes : ¬(s.sequences b.id).Completes token := hmore
    have hself : t.pool.seqs b.id =
        if (s.sequences b.id).Completes token then {} else s.pool.seqs b.id := by
      rw [if_neg hcompletes, hpool]
    refine wp_ite (fun hcache => ?_) fun _ => ?_
    · simp only [onPool, wp_bind, wp_zoom, wp_pure]
      refine wp_mono (Pool.wp_registerPrefix hid h.wf ?_) ?_ fun _ _ hf => hf
      · exact (hcommitted hcache.1 hcache.2).trans_eq (by rw [← hpool]; rfl)
      · rintro _ p' ⟨hp', added, hreg⟩
        have hprefixes : p'.prefixes = t.pool.prefixes ++ added := hreg.prefixes
        have hseqs : p'.seqs = t.pool.seqs := hreg.seqs
        refine ⟨h.snoc token hnew hp' ⟨rfl, rfl, rfl⟩ ⟨hreg.keys, hreg.values⟩
          (fun i hi => ?_) ⟨hlt, hgreedy, ?_, ?_⟩ (fun e he => ?_) fun e he => ?_,
          fun i hi => by simp [setSequence, hi], fun _ => ?_⟩
        · exact ⟨by simp [setSequence, hi], congrFun hseqs i⟩
        · simp [setSequence, EngineSequence.advance, hcompletes]
        · exact (congrFun hseqs b.id).trans hself
        · exact (hprefixes ▸ List.mem_append_left _ he : e ∈ p'.prefixes)
        · rcases List.mem_append.mp (hprefixes ▸ he : e ∈ t.pool.prefixes ++ added) with he | he
          · exact .inl he
          · obtain ⟨j, hblock, hspan, hparent, -⟩ := hreg.added e he
            exact .inr ⟨hcache.1, hcache.2, j, by rw [← hpool]; exact hblock, hspan, hparent⟩
        · simp [setSequence]
    · refine ⟨h.snoc token hnew h.wf ⟨rfl, rfl, rfl⟩ ⟨rfl, rfl⟩ (fun i hi => ?_)
        ⟨hlt, hgreedy, ?_, hself⟩ (List.Subset.refl _) fun _ he => .inl he,
        fun i hi => by simp [setSequence, hi], fun _ => ?_⟩
      · exact ⟨by simp [setSequence, hi], rfl⟩
      · simp [setSequence, EngineSequence.advance, hcompletes]
      · simp [setSequence]

variable (E)

/-- The batch of the sequences `chosen` has run: the forward pass led to the pool `p`, and every sequence
of the batch got a token. -/
structure Ran (chosen : List Nat) (logits : Rows K) (p : Pool K) (s s' : EngineState K G) : Prop where
  forward : E.model.forwardBatch E.config (feedItems (s.feeds chosen)) s.pool = .ok logits p
  advanced : Advanced E logits (chosen.map (E.item s)).zipIdx { s with pool := p }
    { s' with running := s.running }
  running : s'.running = s.running.filter fun id => (s'.sequences id).status ≠ .finished

/-- The batch of the sequences `chosen` has thrown: in the forward pass, or at the first sample. -/
def Failed (chosen : List Nat) (e : Error) (s s' : EngineState K G) : Prop :=
  ∃ p, s' = { s with pool := p } ∧
    (E.model.forwardBatch E.config (feedItems (s.feeds chosen)) s.pool = .error e p ∨
      (∃ logits, E.model.forwardBatch E.config (feedItems (s.feeds chosen)) s.pool = .ok logits p) ∧
        E.model.config.vocabSize = 0 ∧ e = .invalidArgument "sample: vocab must be positive")

variable {E}

theorem batchItems_map_item (s : EngineState K G) (chosen : List Nat) :
    batchItems (chosen.map (E.item s)) = feedItems (s.feeds chosen) := by
  rw [batchItems, feedItems, feeds, List.map_map, List.map_map]
  rfl

theorem mem_zipIdx_items {s : EngineState K G} {chosen : List Nat} {x : Batched × Nat} :
    x ∈ (chosen.map (E.item s)).zipIdx ↔ ∃ id, chosen[x.2]? = some id ∧ x.1 = E.item s id := by
  obtain ⟨b, k⟩ := x
  simp only [List.mem_zipIdx_iff_getElem?, List.getElem?_map, Option.map_eq_some_iff]
  exact exists_congr fun id => and_congr_right fun _ => eq_comm

theorem map_id_zipIdx_items (s : EngineState K G) (chosen : List Nat) :
    (chosen.map (E.item s)).zipIdx.map (fun x => x.1.id) = chosen := by
  have : (fun x : Batched × Nat => x.1.id) = Batched.id ∘ Prod.fst := rfl
  rw [this, ← List.map_map, List.zipIdx_map_fst, List.map_map]
  exact List.map_id chosen

theorem wp_forwardChosen {s : EngineState K G} (hs : Sane E s) {chosen : List Nat}
    (hsub : chosen.Sublist s.running) :
    wp (E.model.forwardBatch E.config (feedItems (s.feeds chosen)))
      (fun _ p => p.Wf E.config s.nextId ∧ Pool.Fed E.config (s.feeds chosen) s.pool p ∧
        E.model.Complete)
      (fun e p => p.Wf E.config s.nextId ∧
        Pool.Interrupted E.config (s.feeds chosen) (E.model.weights Model.normKey = none) e s.pool p)
      s.pool := by
  refine wp_mono (Model.wp_forwardBatch hs.wf (fun f hf => ?_) ?_) ?_ fun _ _ he => he
  · obtain ⟨id, hid, rfl⟩ := List.mem_map.mp hf
    exact hs.running_lt id (hsub.subset hid)
  · rw [map_fst_feeds]
    exact hsub.nodup hs.running_nodup
  · exact fun _ _ h => ⟨h.1, h.2.1, h.2.2.1⟩

theorem wp_runBatch {s : EngineState K G} (hs : Sane E s) {chosen : List Nat}
    (hsub : chosen.Sublist s.running) (hne : chosen ≠ []) :
    wp (E.runBatch (chosen.map (E.item s)))
      (fun _ s' => ∃ logits p, Ran E chosen logits p s s')
      (fun e s' => Failed E chosen e s s') s := by
  simp only [runBatch, wp_bind, onPool, wp_zoom, batchItems_map_item]
  rw [wp_iff]
  refine ⟨fun logits p hforward => ?_, fun e p herror => ⟨p, rfl, .inl herror⟩⟩
  obtain ⟨hp, hfed, hM⟩ := wp_ok (wp_forwardChosen hs hsub) hforward
  by_cases hvocab : E.model.config.vocabSize = 0
  · -- the first sample throws
    obtain ⟨id, rest, rfl⟩ := List.exists_cons_of_ne_nil hne
    simp only [List.map_cons, List.zipIdx_cons, List.foldlM_cons, wp_bind, sampleOne, wp_get, wp_zoom,
      Sampler.sample, hvocab, if_true, wp_throw]
    exact ⟨p, rfl, .inr ⟨⟨logits, hforward⟩, hvocab, rfl⟩⟩
  generalize hbatch : (chosen.map (E.item s)).zipIdx = batch
  have hids : batch.map (fun x => x.1.id) = chosen := by rw [← hbatch, map_id_zipIdx_items]
  have hnodup : (batch.map fun x => x.1.id).Nodup := hids.symm ▸ hsub.nodup hs.running_nodup
  have hloop := wp_foldlM
    (f := fun any (x : Batched × Nat) => (do return (← E.sampleOne logits x.1 x.2) || any))
    (I := fun todo any t => ∃ done, batch = done ++ todo ∧
      Advanced E logits done { s with pool := p } t ∧
      (any = false → ∀ x ∈ done, (t.sequences x.1.id).status = (s.sequences x.1.id).status))
    (E := fun _ _ => False) ?_ batch false { s with pool := p }
    ⟨[], rfl, Advanced.refl hp logits, by simp⟩
  · refine wp_mono hloop ?_ fun _ _ hf => hf.elim
    rintro any t ⟨done, hdone, h, hstatus⟩
    obtain rfl : batch = done := by rw [hdone, List.append_nil]
    have hadv : Advanced E logits batch { s with pool := p } { t with running := s.running } := by
      have heta : ({ t with running := s.running } : EngineState K G) = t := by
        have hrunning : t.running = s.running := h.running
        rw [← hrunning]
      rw [heta]
      exact h
    refine wp_ite (fun _ => ⟨logits, p, hforward, hbatch ▸ hadv, ?_⟩) fun hany => ⟨logits, p, hforward,
      hbatch ▸ hadv, ?_⟩
    · exact congrArg (List.filter _) h.running
    · refine (h.running).trans (List.filter_eq_self.mpr fun id hid => ?_).symm
      have hsame : (t.sequences id).status = (s.sequences id).status := by
        by_cases hin : id ∈ batch.map fun x => x.1.id
        · obtain ⟨x, hx, rfl⟩ := List.mem_map.mp hin
          exact hstatus (Bool.eq_false_iff.mpr hany) x hx
        · exact congrArg EngineSequence.status (h.others id hin).1
      rw [hsame, hs.status id hid]
      decide
  · rintro ⟨b, k⟩ todo any t ⟨done, hdone, h, hstatus⟩
    obtain ⟨id, hk, rfl⟩ : ∃ id, chosen[k]? = some id ∧ b = E.item s id :=
      mem_zipIdx_items.mp (hbatch ▸ hdone ▸ List.mem_append_right _ List.mem_cons_self :
        (b, k) ∈ (chosen.map (E.item s)).zipIdx)
    have hid : id ∈ chosen := List.mem_of_getElem? hk
    have hnew : id ∉ done.map fun x => x.1.id := by
      rw [hdone, List.map_append, List.map_cons, List.nodup_middle, List.nodup_cons] at hnodup
      exact fun hmem => hnodup.1 (List.mem_append_left _ hmem)
    have hold : ∀ x ∈ done, x.1.id ≠ id := fun x hx heq => hnew (heq ▸ List.mem_map_of_mem hx)
    simp only [wp_bind, wp_pure]
    refine wp_mono (wp_sampleOne h hvocab k (hs.running_lt id (hsub.subset hid)) hnew
      fun hcache hpre => ?_) ?_ fun _ _ hf => hf
    · -- the committed rows reach to the end of the context
      have hlen : (p.seqs id).length = _ := hfed.length _ (List.mem_map_of_mem hid)
      have hprefilled : (s.sequences id).prefilled = false := by simpa [item] using hpre
      simp only [item, hprefilled, hcache, Bool.not_false, Bool.and_self, if_true]
      simp only [EngineSequence.stepTokens, hprefilled, Bool.false_eq_true, if_false,
        List.length_drop] at hlen
      omega
    · rintro finished t' ⟨h', hothers, hfinished⟩
      refine ⟨done ++ [(E.item s id, k)], by rw [hdone, List.append_assoc]; rfl, h', fun hany => ?_⟩
      obtain ⟨hf, hany⟩ := Bool.or_eq_false_iff.mp hany
      intro x hx
      rcases List.mem_append.mp hx with hx | hx
      · rw [hothers _ (hold x hx)]
        exact hstatus hany x hx
      · rw [List.mem_singleton.mp hx]
        exact hfinished hf

namespace Ran

variable {s s' : EngineState K G} {chosen : List Nat} {logits : Rows K} {p : Pool K}

theorem nextId (h : Ran E chosen logits p s s') : s'.nextId = s.nextId := h.advanced.nextId

theorem waiting (h : Ran E chosen logits p s s') : s'.waiting = s.waiting := h.advanced.waiting

theorem others (h : Ran E chosen logits p s s') {i : Nat} (hi : i ∉ chosen) :
    s'.sequences i = s.sequences i ∧ s'.pool.seqs i = p.seqs i :=
  h.advanced.others i (by rwa [map_id_zipIdx_items])

theorem sampled (h : Ran E chosen logits p s s') {k id : Nat} (hk : chosen[k]? = some id) :
    ∃ token, Sampled E logits k (s.sequences id) (p.seqs id) (s'.sequences id) (s'.pool.seqs id) token :=
  h.advanced.sampled (E.item s id, k) (mem_zipIdx_items.mpr ⟨id, hk, rfl⟩)

theorem serves (h : Ran E chosen logits p s s') (hs : Sane E s) (hsub : chosen.Sublist s.running)
    (hne : chosen ≠ []) : E.Serves := by
  obtain ⟨id, rest, rfl⟩ := List.exists_cons_of_ne_nil hne
  obtain ⟨token, hsampled⟩ := h.sampled (List.getElem?_cons_zero)
  exact ⟨(wp_ok (wp_forwardChosen hs hsub) h.forward).2.2, Nat.ne_of_gt (Nat.zero_lt_of_lt hsampled.lt)⟩

end Ran

theorem wp_step {s : EngineState K G} (hs : Sane E (E.admitWaiting s.waiting s)) :
    wp E.step
      (fun _ s' => ∃ t chosen, Prepares E (E.admitWaiting s.waiting s) t ∧ Formed E chosen t ∧
        (chosen = [] ∧ s' = t ∨ chosen ≠ [] ∧ ∃ logits p, Ran E chosen logits p t s'))
      (fun e s' => ∃ t chosen, Prepares E (E.admitWaiting s.waiting s) t ∧ Formed E chosen t ∧
        chosen ≠ [] ∧ Failed E chosen e t s') s := by
  simp only [step, wp_bind, wp_modify, wp_get]
  refine wp_mono (wp_formBatch hs (Nat.lt_succ_self _)) ?_ fun _ _ hf => hf.elim
  rintro batch t ⟨chosen, hprep, hformed, rfl⟩
  refine wp_ite (fun hnil => ?_) fun hne => ?_
  · exact ⟨t, chosen, hprep, hformed, .inl ⟨List.map_eq_nil_iff.mp hnil, rfl⟩⟩
  · simp only [List.map_eq_nil_iff] at hne
    refine wp_mono (wp_runBatch (hprep.sane hs) hformed.sublist hne) ?_ ?_
    · intro _ s' hran
      exact ⟨t, chosen, hprep, hformed, .inr ⟨hne, hran⟩⟩
    · exact fun _ s' hfailed => ⟨t, chosen, hprep, hformed, hne, hfailed⟩

end Engine

end InferenceEngine
