import InferenceEngine.Engine.Consistency
import Mathlib.Algebra.BigOperators.Ring.Finset

/-!
# The block budget

A table never has more blocks than the context of its sequence needs, and never covers more rows than the
context has, also after a forward pass that threw. The differences a step adds up are therefore the blocks
that `forward_batch` takes later on, and it finds every one of them free.
-/

namespace InferenceEngine

open Exec

def feedsOf (batch : List Batched) : List Feed := batch.map fun b => (b.id, b.tokens)

namespace Engine

open EngineState

variable {W Q K G : Type} [Field K] [LinearOrder K] (E : Engine W Q K G)

/-! ### The tables -/

/-- The blocks of a sequence stay within its context. -/
structure SeqBudget (seq : EngineSequence K) (blocks : SequenceBlocks) : Prop where
  length_le : blocks.length ≤ seq.context.length
  table_le : blocks.blockTable.length ≤ E.config.blocksFor seq.context.length

/-- All blocks stay within the contexts. -/
def Budget (s : EngineState K G) : Prop :=
  ∀ id < s.nextId, SeqBudget E (s.sequences id) (s.pool.seqs id)

variable {E}

namespace SeqBudget

variable {seq seq' : EngineSequence K} {blocks : SequenceBlocks}

theorem empty : SeqBudget E seq {} := ⟨Nat.zero_le _, Nat.zero_le _⟩

theorem mono (h : SeqBudget E seq blocks) (hle : seq.context.length ≤ seq'.context.length) :
    SeqBudget E seq' blocks :=
  ⟨h.length_le.trans hle, h.table_le.trans (E.config.blocksFor_mono hle)⟩

theorem length_add (h : SeqBudget E seq blocks) (hok : SeqOk E seq blocks) (hstatus : seq.status = .running) :
    blocks.length + (seq.stepTokens blocks).length = seq.context.length := by
  unfold EngineSequence.stepTokens
  by_cases hpre : seq.prefilled = true
  · rw [if_pos hpre]
    exact hok.committed hpre hstatus
  · have hle := h.length_le
    rw [if_neg hpre, List.length_drop]
    omega

end SeqBudget

namespace Budget

variable {s s' : EngineState K G}

theorem create (rng : G) : Budget E (E.create rng) := fun id hid => absurd hid (Nat.not_lt_zero id)

theorem arrive (h : Budget E s) (hs : Inv E s) (request : Request K) :
    Budget E { s.setSequence s.nextId { request } with
      waiting := s.waiting ++ [s.nextId], nextId := s.nextId + 1 } := by
  intro id hid
  by_cases hnew : id = s.nextId
  · subst hnew
    simp only [setSequence, Function.update_self, hs.wf.fresh _ le_rfl]
    exact .empty
  · simp only [setSequence, Function.update_of_ne hnew]
    exact h id (lt_of_le_of_ne (Nat.le_of_lt_succ hid) hnew)

theorem enter {admitted : List Nat} (h : Budget E s) (ha : Admitted E admitted s s') : Budget E s' := by
  intro id hid
  rw [ha.nextId] at hid
  rw [ha.pool, ha.sequences]
  split <;> exact (h id hid).mono le_rfl

theorem share {id : Nat} (h : Budget E s) (hs : Inv E s) (hsh : Shared E id s s') : Budget E s' := by
  intro i hi
  rw [hsh.nextId] at hi
  rw [hsh.sequences]
  by_cases hii : i = id
  · subst hii
    by_cases hnil : E.sharedBlocks s i = []
    · obtain ⟨hlength, htable⟩ := h i hi
      refine ⟨?_, ?_⟩
      · rw [hsh.length, hnil, List.length_nil, Nat.zero_mul, Nat.add_zero]
        exact hlength
      · rw [hsh.acquired.table, hnil, List.append_nil]
        exact htable
    · have hfresh := hs.wf.eq_empty (E.may_of_sharedBlocks_ne hnil).2.2
      have hcap := (sharedBlocks_length_le (E := E) s i).trans (E.length_cap_lt (hs.seq i hi).context).le
      refine ⟨?_, ?_⟩
      · rw [hsh.length, hfresh]
        simpa using hcap
      · rw [hsh.acquired.table, hfresh, List.nil_append, ← E.config.blocksFor_mul (E.sharedBlocks s i).length]
        exact E.config.blocksFor_mono hcap
  · rw [hsh.acquired.others i hii]
    exact h i hi

theorem preempt {id : Nat} (h : Budget E s) (hp : Preempted E id s s') : Budget E s' := by
  intro i hi
  rw [hp.nextId] at hi
  by_cases hii : i = id
  · subst hii
    rw [hp.freed.self]
    exact .empty
  · rw [hp.sequences_of_ne hii, hp.freed.others i hii]
    exact h i hi

/-- A running sequence lacks what its context needs beyond its table. -/
theorem missing_eq (h : Budget E s) (hs : Inv E s) {id : Nat} (hid : id ∈ s.running) :
    s.pool.missing E.config (id, (s.sequences id).stepTokens (s.pool.seqs id)) =
      E.config.blocksFor (s.sequences id).context.length - (s.pool.seqs id).blockTable.length := by
  rw [Pool.missing]
  simp only
  rw [(h id (hs.running_lt hid)).length_add (hs.seq id (hs.running_lt hid)) (hs.running_status hid)]

/-- The difference that `step` counts is never negative. -/
theorem demand_eq (h : Budget E s) (hs : Inv E s) {id : Nat} (hid : id ∈ s.running) :
    E.demand s id = s.pool.missing E.config (id, (s.sequences id).stepTokens (s.pool.seqs id)) := by
  have hseq := h id (hs.running_lt hid)
  have hle := hseq.table_le
  rw [h.missing_eq hs hid, demand, hseq.length_add (hs.seq id (hs.running_lt hid)) (hs.running_status hid)]
  omega

/-- **A batch lacks at most the free blocks.** -/
theorem needed_le (h : Budget E s) (hs : Inv E s) {chosen : List Nat} (hf : Formed E chosen s) :
    s.pool.needed E.config (s.feeds chosen) ≤ s.pool.freeBlocks := by
  by_cases hnil : chosen = []
  · simp [hnil, feeds, Pool.needed]
  have hsum : (chosen.map (E.demand s)).sum = s.pool.needed E.config (s.feeds chosen) := by
    rw [Pool.needed, feeds, List.map_map, Nat.cast_list_sum, List.map_map]
    refine congrArg List.sum (List.map_congr_left fun id hid => ?_)
    exact h.demand_eq hs (hf.sublist.subset hid)
  exact_mod_cast hsum ▸ hf.fits hnil

/-- Fed or given up, the sequences of a batch stay within their contexts. -/
theorem of_grown {p : Pool K} {chosen : List Nat} (h : Budget E s) (hs : Inv E s)
    (hsub : chosen.Sublist s.running) (hothers : ∀ i, i ∉ chosen → p.seqs i = s.pool.seqs i)
    (hlength : ∀ f ∈ s.feeds chosen, (p.seqs f.1).length ≤ (s.pool.seqs f.1).length + f.2.length)
    (htable : ∀ f ∈ s.feeds chosen, (p.seqs f.1).blockTable.length ≤
      (s.pool.seqs f.1).blockTable.length + s.pool.missing E.config f) {id : Nat} (hid : id < s.nextId) :
    SeqBudget E (s.sequences id) (p.seqs id) := by
  by_cases hmem : id ∈ chosen
  · have hrunning := hsub.subset hmem
    have hseq := h id hid
    have hf := List.mem_map_of_mem (f := fun id => (id, (s.sequences id).stepTokens (s.pool.seqs id))) hmem
    have hlen := hlength _ hf
    have htab := htable _ hf
    have hle := hseq.table_le
    rw [h.missing_eq hs hrunning] at htab
    rw [hseq.length_add (hs.seq id hid) (hs.running_status hrunning)] at hlen
    exact ⟨hlen, htab.trans_eq (Nat.add_sub_cancel' hle)⟩
  · rw [hothers id hmem]
    exact h id hid

theorem ran {chosen : List Nat} {logits : Rows K} {p : Pool K} (h : Budget E s) (hs : Inv E s)
    (hf : Formed E chosen s) (hr : Ran E chosen logits p s s') : Budget E s' := by
  obtain ⟨-, hfed, -⟩ := wp_ok (wp_forwardChosen hs.sane hf.sublist) hr.forward
  intro id hid
  rw [hr.nextId] at hid
  have hgrown : SeqBudget E (s.sequences id) (p.seqs id) := by
    refine h.of_grown hs hf.sublist (fun i hi => hfed.others i (by rwa [map_fst_feeds]))
      (fun f hmem => (hfed.length f hmem).le) (fun f hmem => (hfed.blocks f hmem).le) hid
  by_cases hmem : id ∈ chosen
  · obtain ⟨k, hk⟩ := List.getElem?_of_mem hmem
    obtain ⟨token, hsampled⟩ := hr.sampled hk
    rw [hsampled.seq_eq, hsampled.blocks_eq]
    split
    · exact .empty
    · refine hgrown.mono ?_
      simp [EngineSequence.context, EngineSequence.advance]
  · obtain ⟨hseq, hpool⟩ := hr.others hmem
    rw [hseq, hpool]
    exact hgrown

theorem failed {chosen : List Nat} {e : Error} (h : Budget E s) (hs : Inv E s) (hf : Formed E chosen s)
    (hfailed : Failed E chosen e s s') : Budget E s' := by
  obtain ⟨p, rfl, herror | ⟨⟨logits, hok⟩, -, -⟩⟩ := hfailed
  · obtain ⟨-, hint⟩ := wp_error (wp_forwardChosen hs.sane hf.sublist) herror
    obtain ⟨-, -, -, hbound⟩ := hint.enough (h.needed_le hs hf)
    refine fun id hid => h.of_grown hs hf.sublist (fun i hi => hint.others i (by rwa [map_fst_feeds]))
      (fun f hmem => ?_) hbound hid
    rcases hint.length with hsame | ⟨-, hcommitted⟩
    · rw [hsame]
      exact Nat.le_add_right _ _
    · exact (hcommitted f hmem).le
  · obtain ⟨-, hfed, -⟩ := wp_ok (wp_forwardChosen hs.sane hf.sublist) hok
    exact fun id hid => h.of_grown hs hf.sublist (fun i hi => hfed.others i (by rwa [map_fst_feeds]))
      (fun f hmem => (hfed.length f hmem).le) (fun f hmem => (hfed.blocks f hmem).le) hid

end Budget

theorem budget_reachable {rng : G} {allowed : EngineState K G → Action K → Prop} {s : EngineState K G}
    (hs : (E.machine rng).Reachable allowed s) : Inv E s ∧ Budget E s := by
  refine hs.invariant (I := fun s => Inv E s ∧ Budget E s) ⟨Inv.create rng, Budget.create rng⟩
    fun s a _ h _ => ?_
  cases a with
  | addRequest request =>
    change Inv E (finalState (addRequest request) s) ∧ Budget E (finalState (addRequest request) s)
    rw [finalState_addRequest]
    split
    · exact h
    · exact ⟨h.1.arrive ‹_›, h.2.arrive h.1 request⟩
  | step =>
    exact h.1.step h.2 (fun _ _ _ _ hX ha => hX.enter ha) (fun _ _ _ hI hX _ hsh => hX.share hI hsh)
      (fun _ _ _ _ hX hp => hX.preempt hp) (fun _ _ _ _ _ hI hX hf _ hran => hX.ran hI hf hran)
      fun _ _ _ _ hI hX hf _ hfailed => hX.failed hI hf hfailed

/-! ### The forward pass of a step -/

/-- A batch that finds its blocks free: each `reserve` call of `forward_batch` does, and all of them take
what the batch lacks. One that throws behind them has taken as much; one that throws at an item without
tokens has taken what the items before it lack. -/
structure WithinBudget (E : Engine W Q K G) (batch : List Batched) (p : Pool K) : Prop where
  needed_le : p.needed E.config (feedsOf batch) ≤ p.freeBlocks
  reserve : ∀ before b after, batch = before ++ b :: after →
    wp (Model.layoutItems E.config (batchItems before) 0)
      (fun _ q => q.missing E.config (b.id, b.tokens) ≤ q.freeBlocks ∧ q.prefixes = p.prefixes ∧
        q.freeBlocks + p.needed E.config (feedsOf before) = p.freeBlocks)
      (fun _ _ => ∃ b' ∈ before, b'.tokens = []) p
  forward : wp (E.model.forwardBatch E.config (batchItems batch))
    (fun _ q => q.prefixes = p.prefixes ∧
      q.freeBlocks + p.needed E.config (feedsOf batch) = p.freeBlocks)
    (fun e q => e ∉ BlockAllocator.errors ∧ q.prefixes = p.prefixes ∧
      q.freeBlocks + p.needed E.config ((feedsOf batch).takeWhile fun f => f.2 ≠ []) = p.freeBlocks) p

theorem withinBudget {s : EngineState K G} (hs : Inv E s) (hb : Budget E s) {chosen : List Nat}
    (hf : Formed E chosen s) : WithinBudget E (chosen.map (E.item s)) s.pool := by
  have hfeeds : feedsOf (chosen.map (E.item s)) = s.feeds chosen := by
    rw [feedsOf, feeds, List.map_map]
    rfl
  have hle := hb.needed_le hs hf
  have hids : ∀ f ∈ s.feeds chosen, f.1 < s.nextId := fun f hmem => by
    obtain ⟨id, hid, rfl⟩ := List.mem_map.mp hmem
    exact hs.running_lt (hf.sublist.subset hid)
  have hnodup : ((s.feeds chosen).map Prod.fst).Nodup := by
    rw [map_fst_feeds]
    exact hf.sublist.nodup hs.sane.running_nodup
  refine ⟨hfeeds ▸ hle, fun before b after hsplit => ?_, ?_⟩
  · have hsplit' : s.feeds chosen = feedsOf before ++ (b.id, b.tokens) :: feedsOf after := by
      rw [← hfeeds, hsplit]
      simp [feedsOf]
    rw [hsplit'] at hle hids hnodup
    rw [Pool.needed_append] at hle
    have hcons : s.pool.needed E.config ((b.id, b.tokens) :: feedsOf after) =
        s.pool.missing E.config (b.id, b.tokens) + s.pool.needed E.config (feedsOf after) := rfl
    rw [List.map_append, List.nodup_append] at hnodup
    have hitems : batchItems before = feedItems (feedsOf before) := by simp [batchItems, feedItems, feedsOf]
    rw [hitems]
    refine wp_mono (Model.wp_layoutItems hs.wf (fun f hmem => hids f (List.mem_append_left _ hmem))
      hnodup.1 0) ?_ ?_
    · rintro _ q ⟨-, -, hext, -, -, henough⟩
      obtain ⟨hsame, hcount⟩ := henough (by omega)
      have hself : q.seqs b.id = s.pool.seqs b.id := hext.others b.id fun hmem =>
        hnodup.2.2 b.id hmem b.id List.mem_cons_self rfl
      have hmissing : q.missing E.config (b.id, b.tokens) = s.pool.missing E.config (b.id, b.tokens) := by
        rw [Pool.missing, Pool.missing, hself]
      exact ⟨by omega, hsame, hcount⟩
    · rintro e q ⟨-, -, hshort, -⟩
      by_contra hall
      push Not at hall
      have hlt := hshort fun f hmem => by
        obtain ⟨b', hb', rfl⟩ := List.mem_map.mp hmem
        exact hall b' hb'
      omega
  · rw [batchItems_map_item, hfeeds]
    refine wp_mono (Model.wp_forwardBatch hs.wf hids hnodup) ?_ ?_
    · exact fun _ q hq => hq.2.1.enough hle
    · rintro e q ⟨-, hint⟩
      obtain ⟨hforeign, hsame, hcount, -⟩ := hint.enough hle
      exact ⟨hforeign, hsame, hcount⟩

/-- **The budget of a step is what its forward pass takes**, in every reachable state, and no step raises
an error of the block allocator. -/
theorem budget_of_reachable {rng : G} {s : EngineState K G}
    (hs : (E.machine rng).Reachable (fun _ _ => True) s) :
    wp (E.formBatch ((E.admitWaiting s.waiting s).running.length + 1))
      (fun batch t => WithinBudget E batch t.pool) (fun _ _ => False) (E.admitWaiting s.waiting s) ∧
    wp E.step (fun _ _ => True) (fun e _ => e ∉ BlockAllocator.errors) s := by
  obtain ⟨hI, hB⟩ := budget_reachable hs
  obtain ⟨admitted, ha⟩ := admitted_admitWaiting (E := E) s
  have hI₁ := hI.enter ha
  have hprepared : ∀ t, Prepares E (E.admitWaiting s.waiting s) t → Inv E t ∧ Budget E t := fun t ht =>
    ht.invariant (I := fun t => Inv E t ∧ Budget E t) hI₁.sane ⟨hI₁, hB.enter ha⟩
      (fun _ _ _ _ h hid hsh => ⟨h.1.share hid hsh, h.2.share h.1 hsh⟩)
      (fun _ _ _ _ h _ hp => ⟨h.1.preempt hp, h.2.preempt hp⟩)
  constructor
  · refine wp_mono (wp_formBatch hI₁.sane (Nat.lt_succ_self _)) ?_ fun _ _ hf => hf
    rintro _ t ⟨chosen, ht, hformed, rfl⟩
    exact withinBudget (hprepared t ht).1 (hprepared t ht).2 hformed
  · refine wp_mono (wp_step hI₁.sane) (fun _ _ _ => trivial) ?_
    rintro e s' ⟨t, chosen, ht, hformed, -, p, -, herror | ⟨-, -, rfl⟩⟩
    · obtain ⟨hIt, hBt⟩ := hprepared t ht
      rw [← batchItems_map_item] at herror
      exact (wp_error (withinBudget hIt hBt hformed).forward herror).1
    · decide

/-- The small engine, with a model that lacks its last norm. -/
def normless : Engine Nat Unit ℚ Unit where
  model := { Model.tiny with
    weights := fun name => if name = Model.normKey then none else Model.tiny.weights name }
  sampler := tinySampler
  config := (tiny false).config
  maxBatch := 2
  prefixCache := false
  numLayers_eq := rfl
  kvDim_eq := rfl

/-- A forward pass has thrown behind the commit, and another request has come. -/
def committed : EngineState ℚ Unit :=
  let m := normless.machine ()
  let s := m.next (m.next m.start (.addRequest (greedyRequest [1] 1))) .step
  m.next s (.addRequest (greedyRequest [2] 1))

/-- The next batch lacks one block, for its second item; the first one has no tokens, and nothing is taken. -/
theorem takes_less : (normless.machine ()).Reachable (fun _ _ => True) committed ∧
    wp (normless.formBatch 3)
      (fun batch t => t.pool.needed normless.config (feedsOf batch) = 1 ∧
        wp (normless.model.forwardBatch normless.config (batchItems batch)) (fun _ _ => False)
          (fun e q => e = .invalidArgument "forward_batch: item has no tokens" ∧
            q.freeBlocks = t.pool.freeBlocks) t.pool)
      (fun _ _ => False) (normless.admitWaiting committed.waiting committed) :=
  ⟨.next (.next (.next .start trivial) trivial) trivial, by decide +kernel⟩

theorem budget_of_reachable_committed :
    wp normless.step (fun _ _ => True) (fun e _ => e ∉ BlockAllocator.errors) committed :=
  (budget_of_reachable (.next (.next (.next .start trivial) trivial) trivial)).2

end Engine

end InferenceEngine
