import InferenceEngine.Engine.Stepping

/-!
# Block conservation and scheduler consistency

In every reachable state, also after steps that threw, the reference counts are those of the block tables
and the cache, the free list has the blocks without references, and the queues list the unfinished
requests.
-/

namespace InferenceEngine

open Exec

namespace Engine

open EngineState

variable {W Q K G : Type} [Field K] [LinearOrder K] (E : Engine W Q K G)

/-! ### One sequence -/

/-- The invariant of a sequence and its blocks. -/
structure SeqOk (seq : EngineSequence K) (blocks : SequenceBlocks) : Prop where
  idle : seq.status ≠ .running → blocks = {}
  context : seq.context ≠ []
  serves : seq.prefilled = true → E.Serves
  output : seq.prefilled = true → seq.output ≠ []
  waiting : seq.prefilled = true → seq.status ≠ .waiting
  committed : seq.prefilled = true → seq.status = .running → blocks.length + 1 = seq.context.length
  behind : E.Serves → seq.prefilled = false → blocks.length < seq.context.length

variable {E}

namespace SeqOk

variable {seq : EngineSequence K} {blocks blocks' : SequenceBlocks}

theorem new {request : Request K} (h : request.prompt ≠ []) : SeqOk E { request } {} := by
  have hctx : ({ request } : EngineSequence K).context ≠ [] := by simpa [EngineSequence.context] using h
  exact ⟨fun _ => rfl, hctx, nofun, nofun, nofun, nofun, fun _ _ => List.length_pos_iff.mpr hctx⟩

theorem enter (h : SeqOk E seq blocks) (hwaiting : seq.status = .waiting) :
    SeqOk E { seq with status := .running } blocks where
  idle := nofun
  context := h.context
  serves := h.serves
  output := h.output
  waiting := nofun
  committed hpre := absurd hwaiting (h.waiting hpre)
  behind := h.behind

theorem preempt (h : SeqOk E seq blocks) : SeqOk E { seq with prefilled := false, status := .waiting } {} where
  idle _ := rfl
  context := h.context
  serves := nofun
  output := nofun
  waiting := nofun
  committed := nofun
  behind _ _ := List.length_pos_iff.mpr h.context

/-- Only the length of the block table matters, and only to an engine that can generate tokens. -/
theorem congr (h : SeqOk E seq blocks) (hidle : seq.status ≠ .running → blocks' = blocks)
    (hcommitted : seq.prefilled = true → blocks'.length = blocks.length)
    (hbehind : E.Serves → seq.prefilled = false → blocks'.length < seq.context.length) :
    SeqOk E seq blocks' where
  idle hstatus := (hidle hstatus).trans (h.idle hstatus)
  context := h.context
  serves := h.serves
  output := h.output
  waiting := h.waiting
  committed hpre hstatus := by rw [hcommitted hpre, h.committed hpre hstatus]
  behind := hbehind

theorem length_add (h : SeqOk E seq blocks) (hserves : E.Serves) (hstatus : seq.status = .running) :
    blocks.length + (seq.stepTokens blocks).length = seq.context.length := by
  unfold EngineSequence.stepTokens
  by_cases hpre : seq.prefilled = true
  · rw [if_pos hpre]
    exact h.committed hpre hstatus
  · have hlt := h.behind hserves (Bool.not_eq_true _ ▸ hpre)
    rw [if_neg hpre, List.length_drop]
    omega

theorem advance {token : Int} (hserves : E.Serves) (hstatus : seq.status = .running)
    (hlen : blocks.length = seq.context.length) :
    SeqOk E (seq.advance token) (if seq.Completes token then {} else blocks) := by
  have hctx : (seq.advance token).context = seq.context ++ [token] := by
    simp [EngineSequence.context, EngineSequence.advance]
  have hadv : (seq.advance token).status = if seq.Completes token then .finished else .running := by
    rw [EngineSequence.advance, hstatus]
  by_cases hdone : seq.Completes token
  · rw [if_pos hdone] at hadv ⊢
    refine ⟨fun _ => rfl, by simp [hctx], fun _ => hserves, fun _ => by simp [EngineSequence.advance],
      fun _ => ?_, fun _ hrun => ?_, fun _ hpre => ?_⟩
    · rw [hadv]
      decide
    · rw [hadv] at hrun
      cases hrun
    · cases hpre
  · rw [if_neg hdone] at hadv ⊢
    refine ⟨fun hrun => absurd hadv hrun, by simp [hctx], fun _ => hserves,
      fun _ => by simp [EngineSequence.advance], fun _ => ?_, fun _ _ => ?_, fun _ hpre => ?_⟩
    · rw [hadv]
      decide
    · rw [hctx, hlen, List.length_append, List.length_singleton]
    · cases hpre

end SeqOk

/-! ### The queues -/

variable (E) in
/-- The queues list the unfinished sequences, each once. -/
structure Queues (s : EngineState K G) : Prop where
  nodup : (s.waiting ++ s.running).Nodup
  mem_waiting : ∀ id, id ∈ s.waiting ↔ id < s.nextId ∧ (s.sequences id).status = .waiting
  mem_running : ∀ id, id ∈ s.running ↔ id < s.nextId ∧ (s.sequences id).status = .running
  room : 0 ≤ E.maxBatch → (s.running.length : Int) ≤ E.maxBatch

namespace Queues

variable {s s' : EngineState K G}

theorem arrive (h : Queues E s) (request : Request K) :
    Queues E { s.setSequence s.nextId { request } with
      waiting := s.waiting ++ [s.nextId], nextId := s.nextId + 1 } := by
  have hfresh : s.nextId ∉ s.waiting ++ s.running := fun hmem => by
    rcases List.mem_append.mp hmem with hmem | hmem
    · exact Nat.lt_irrefl _ ((h.mem_waiting _).mp hmem).1
    · exact Nat.lt_irrefl _ ((h.mem_running _).mp hmem).1
  have hold : ∀ id, id < s.nextId →
      Function.update s.sequences s.nextId { request } id = s.sequences id := fun id hid =>
    Function.update_of_ne (Nat.ne_of_lt hid) _ _
  refine ⟨?_, fun id => ?_, fun id => ?_, h.room⟩
  · simp only [List.append_assoc, List.singleton_append]
    exact List.nodup_middle.mpr (List.nodup_cons.mpr ⟨hfresh, h.nodup⟩)
  · simp only [List.mem_append, List.mem_singleton, h.mem_waiting, setSequence]
    rcases Nat.lt_trichotomy id s.nextId with hid | rfl | hid
    · simp [hid, Nat.lt_succ_of_lt hid, Nat.ne_of_lt hid]
    · simp
    · omega
  · simp only [h.mem_running, setSequence]
    rcases Nat.lt_trichotomy id s.nextId with hid | rfl | hid
    · simp [hold id hid, hid, Nat.lt_succ_of_lt hid]
    · simp
    · omega

theorem enter {admitted : List Nat} (h : Queues E s) (ha : Admitted E admitted s s') : Queues E s' := by
  have hnodup := h.nodup
  rw [ha.waiting] at hnodup
  have hadmitted : ∀ id ∈ admitted, id < s.nextId ∧ (s.sequences id).status = .waiting := fun id hid =>
    (h.mem_waiting id).mp (by rw [ha.waiting]; exact List.mem_append_left _ hid)
  refine ⟨?_, fun id => ?_, fun id => ?_, fun hmax => ?_⟩
  · rw [ha.running]
    have hperm : (s'.waiting ++ (s.running ++ admitted)).Perm (admitted ++ s'.waiting ++ s.running) := by
      rw [← List.append_assoc]
      exact List.perm_append_comm.trans (by rw [List.append_assoc])
    exact hperm.nodup_iff.mpr hnodup
  · rw [ha.nextId, ha.sequences]
    have hmem := h.mem_waiting id
    rw [ha.waiting, List.mem_append] at hmem
    by_cases hid : id ∈ admitted
    · have hnot : id ∉ s'.waiting := fun hw => by
        rw [List.append_assoc, List.nodup_append] at hnodup
        exact hnodup.2.2 id hid id (List.mem_append_left _ hw) rfl
      simp [hid, hnot]
    · rw [if_neg hid, ← hmem]
      simp [hid]
  · rw [ha.nextId, ha.sequences, ha.running, List.mem_append, h.mem_running]
    by_cases hid : id ∈ admitted
    · simp [hid, (hadmitted id hid).1]
    · simp [hid]
  · by_cases hnil : admitted = []
    · rw [ha.running, hnil, List.append_nil]
      exact h.room hmax
    · exact ha.room hnil

theorem congr (h : Queues E s) (hwaiting : s'.waiting = s.waiting) (hrunning : s'.running = s.running)
    (hnextId : s'.nextId = s.nextId) (hsequences : s'.sequences = s.sequences) : Queues E s' := by
  refine ⟨?_, ?_, ?_, ?_⟩
  · rw [hwaiting, hrunning]
    exact h.nodup
  · rw [hwaiting, hnextId, hsequences]
    exact h.mem_waiting
  · rw [hrunning, hnextId, hsequences]
    exact h.mem_running
  · rw [hrunning]
    exact h.room

theorem preempt {id : Nat} (h : Queues E s) (hp : Preempted E id s s') : Queues E s' := by
  obtain ⟨older, younger, hrunning, hrunning', -⟩ := hp.youngest
  have hid : id < s.nextId := ((h.mem_running id).mp hp.mem_running).1
  have hnodup := h.nodup
  rw [hrunning] at hnodup
  have hperm : (s'.waiting ++ s'.running).Perm (s.waiting ++ (older ++ id :: younger)) := by
    rw [hp.waiting, hrunning', List.cons_append]
    refine List.perm_middle.symm.trans (List.Perm.append_left _ ?_)
    exact List.perm_middle.symm
  have hnodup' := hperm.nodup_iff.mpr hnodup
  have hnot : id ∉ s'.running := fun hmem => by
    rw [hp.waiting, List.cons_append, List.nodup_cons] at hnodup'
    exact hnodup'.1 (List.mem_append_right _ hmem)
  refine ⟨hnodup', fun i => ?_, fun i => ?_, fun hmax => ?_⟩
  · rw [hp.waiting, hp.nextId, hp.sequences, List.mem_cons, h.mem_waiting]
    by_cases hi : i = id
    · subst hi
      simp [hid]
    · rw [Function.update_of_ne hi]
      simp [hi]
  · rw [hp.nextId, hp.sequences]
    by_cases hi : i = id
    · subst hi
      simp [hnot]
    · rw [Function.update_of_ne hi, ← h.mem_running, hrunning, hrunning']
      simp [hi]
  · have hlen := hp.length_running
    have := h.room hmax
    omega

theorem ran {chosen : List Nat} {logits : Rows K} {p : Pool K} (h : Queues E s)
    (hsub : chosen.Sublist s.running) (hr : Ran E chosen logits p s s') : Queues E s' := by
  -- a sequence of the batch is running or finished afterwards, the others are as before
  have hstatus : ∀ id, id ∈ chosen → (s.sequences id).status = .running ∧
      ((s'.sequences id).status = .running ∨ (s'.sequences id).status = .finished) := by
    intro id hid
    obtain ⟨k, hk⟩ := List.getElem?_of_mem hid
    obtain ⟨token, hsampled⟩ := hr.sampled hk
    have hrun := ((h.mem_running id).mp (hsub.subset hid)).2
    refine ⟨hrun, ?_⟩
    rw [hsampled.seq_eq, EngineSequence.advance, hrun]
    by_cases hdone : (s.sequences id).Completes token <;> simp [hdone]
  have hiff : ∀ id, id ∈ s'.running ↔ id ∈ s.running ∧ (s'.sequences id).status ≠ .finished := by
    intro id
    rw [hr.running, List.mem_filter, decide_eq_true_iff]
  refine ⟨?_, fun id => ?_, fun id => ?_, fun hmax => ?_⟩
  · rw [hr.waiting, hr.running]
    exact h.nodup.sublist (List.Sublist.append_left List.filter_sublist _)
  · rw [hr.waiting, hr.nextId, h.mem_waiting]
    by_cases hid : id ∈ chosen
    · obtain ⟨hrun, hrun' | hfin⟩ := hstatus id hid
      · simp [hrun, hrun']
      · simp [hrun, hfin]
    · rw [(hr.others hid).1]
  · rw [hiff, hr.nextId, h.mem_running]
    by_cases hid : id ∈ chosen
    · obtain ⟨hrun, hrun' | hfin⟩ := hstatus id hid
      · simp [hrun, hrun']
      · simp [hfin]
    · rw [(hr.others hid).1]
      constructor
      · exact fun hmem => hmem.1
      · exact fun hmem => ⟨hmem, by rw [hmem.2]; decide⟩
  · rw [hr.running]
    have := h.room hmax
    have := List.length_filter_le (fun id => decide ((s'.sequences id).status ≠ .finished)) s.running
    omega

end Queues

/-! ### The invariant -/

variable (E) in
/-- The invariant of the engine. -/
structure Inv (s : EngineState K G) : Prop where
  wf : s.pool.Wf E.config s.nextId
  queues : Queues E s
  seq : ∀ id < s.nextId, SeqOk E (s.sequences id) (s.pool.seqs id)

namespace Inv

variable {s s' : EngineState K G}

theorem running_lt (h : Inv E s) {id : Nat} (hid : id ∈ s.running) : id < s.nextId :=
  ((h.queues.mem_running id).mp hid).1

theorem running_status (h : Inv E s) {id : Nat} (hid : id ∈ s.running) :
    (s.sequences id).status = .running :=
  ((h.queues.mem_running id).mp hid).2

theorem sane (h : Inv E s) : Sane E s where
  wf := h.wf
  running_lt _ hid := h.running_lt hid
  running_nodup := (List.nodup_append.mp h.queues.nodup).2.1
  status _ hid := h.running_status hid
  behind hserves id hid := (h.seq id (h.running_lt hid)).behind hserves

theorem create (rng : G) : Inv E (E.create rng) where
  wf := Pool.wf_create 0
  queues := ⟨List.nodup_nil, by simp [Engine.create], by simp [Engine.create], fun h => h⟩
  seq id hid := absurd hid (Nat.not_lt_zero id)

theorem arrive (h : Inv E s) {request : Request K} (hne : request.prompt ≠ []) :
    Inv E { s.setSequence s.nextId { request } with
      waiting := s.waiting ++ [s.nextId], nextId := s.nextId + 1 } := by
  refine ⟨h.wf.succ, h.queues.arrive request, fun id hid => ?_⟩
  by_cases hnew : id = s.nextId
  · subst hnew
    simp only [setSequence, Function.update_self, h.wf.fresh _ le_rfl]
    exact .new hne
  · simp only [setSequence, Function.update_of_ne hnew]
    exact h.seq id (lt_of_le_of_ne (Nat.le_of_lt_succ hid) hnew)

theorem enter {admitted : List Nat} (h : Inv E s) (ha : Admitted E admitted s s') : Inv E s' := by
  refine ⟨by rw [ha.pool, ha.nextId]; exact h.wf, h.queues.enter ha, fun id hid => ?_⟩
  rw [ha.nextId] at hid
  rw [ha.pool, ha.sequences]
  by_cases hmem : id ∈ admitted
  · rw [if_pos hmem]
    refine (h.seq id hid).enter ((h.queues.mem_waiting id).mp ?_).2
    rw [ha.waiting]
    exact List.mem_append_left _ hmem
  · rw [if_neg hmem]
    exact h.seq id hid

theorem share {id : Nat} (h : Inv E s) (hid : id ∈ s.running) (hs : Shared E id s s') : Inv E s' := by
  have hsane := hs.sane h.sane
  have hlt := h.running_lt hid
  refine ⟨hsane.wf, h.queues.congr (by rw [hs.frame]) hs.running hs.nextId hs.sequences, fun i hi => ?_⟩
  rw [hs.nextId] at hi
  rw [hs.sequences]
  by_cases hii : i = id
  · subst hii
    refine (h.seq i hi).congr (fun hstatus => absurd (h.running_status hid) hstatus) (fun hpre => ?_)
      fun hserves hpre => ?_
    · rw [hs.length, sharedBlocks, if_neg (by simp [hpre])]
      simp
    · have := hsane.behind hserves i (by rw [hs.running]; exact hid)
      rw [hs.sequences] at this
      exact this hpre
  · rw [hs.acquired.others i hii]
    exact h.seq i hi

theorem preempt {id : Nat} (h : Inv E s) (hp : Preempted E id s s') : Inv E s' := by
  refine ⟨by rw [hp.nextId]; exact hp.wf, h.queues.preempt hp, fun i hi => ?_⟩
  rw [hp.nextId] at hi
  by_cases hii : i = id
  · subst hii
    rw [hp.sequences, Function.update_self, hp.freed.self]
    exact (h.seq i hi).preempt
  · rw [hp.sequences_of_ne hii, hp.freed.others i hii]
    exact h.seq i hi

theorem ran {chosen : List Nat} {logits : Rows K} {p : Pool K} (h : Inv E s)
    (hsub : chosen.Sublist s.running) (hne : chosen ≠ []) (hr : Ran E chosen logits p s s') :
    Inv E s' := by
  have hserves := hr.serves h.sane hsub hne
  obtain ⟨-, hfed, -⟩ := wp_ok (wp_forwardChosen h.sane hsub) hr.forward
  refine ⟨by rw [hr.nextId]; exact hr.advanced.wf, h.queues.ran hsub hr, fun id hid => ?_⟩
  rw [hr.nextId] at hid
  by_cases hmem : id ∈ chosen
  · obtain ⟨k, hk⟩ := List.getElem?_of_mem hmem
    obtain ⟨token, hsampled⟩ := hr.sampled hk
    have hstatus := h.running_status (hsub.subset hmem)
    rw [hsampled.seq_eq, hsampled.blocks_eq]
    refine SeqOk.advance hserves hstatus ?_
    exact (hfed.length _ (List.mem_map_of_mem hmem)).trans ((h.seq id hid).length_add hserves hstatus)
  · obtain ⟨hseq, hpool⟩ := hr.others hmem
    rw [hseq, hpool, hfed.others id (by rwa [map_fst_feeds])]
    exact h.seq id hid

theorem failed {chosen : List Nat} {e : Error} (h : Inv E s) (hsub : chosen.Sublist s.running)
    (hf : Failed E chosen e s s') : Inv E s' := by
  obtain ⟨p, rfl, hcause⟩ := hf
  -- an engine that can generate tokens keeps its lengths
  have hpool : p.Wf E.config s.nextId ∧ (∀ i, i ∉ chosen → p.seqs i = s.pool.seqs i) ∧
      (E.Serves → ∀ i, (p.seqs i).length = (s.pool.seqs i).length) := by
    rcases hcause with herror | ⟨⟨logits, hok⟩, hvocab, -⟩
    · obtain ⟨hp, hint⟩ := wp_error (wp_forwardChosen h.sane hsub) herror
      refine ⟨hp, fun i hi => hint.others i (by rwa [map_fst_feeds]), fun hserves => ?_⟩
      refine hint.length.resolve_right fun hnone => ?_
      obtain ⟨w, hw⟩ := hserves.1.norm
      rw [hnone.1] at hw
      cases hw
    · obtain ⟨hp, hfed, -⟩ := wp_ok (wp_forwardChosen h.sane hsub) hok
      exact ⟨hp, fun i hi => hfed.others i (by rwa [map_fst_feeds]), fun hserves => absurd hvocab hserves.2⟩
  obtain ⟨hp, hothers, hlength⟩ := hpool
  refine ⟨hp, h.queues.congr rfl rfl rfl rfl, fun id hid => ?_⟩
  have hok := h.seq id hid
  refine hok.congr (fun hstatus => hothers id fun hmem => ?_) (fun hpre => hlength (hok.serves hpre) id)
    fun hserves hpre => ?_
  · exact hstatus (h.running_status (hsub.subset hmem))
  · exact (hlength hserves id).trans_lt (hok.behind hserves hpre)

end Inv

/-- The invariant rule of a step: besides `Inv`, a property that every part of a step keeps. -/
theorem Inv.step {X : EngineState K G → Prop} {s : EngineState K G} (h : Inv E s) (hX : X s)
    (henter : ∀ t u admitted, Inv E t → X t → Admitted E admitted t u → X u)
    (hshare : ∀ t u id, Inv E t → X t → id ∈ t.running → Shared E id t u → X u)
    (hpreempt : ∀ t u id, Inv E t → X t → Preempted E id t u → X u)
    (hran : ∀ t u chosen logits p, Inv E t → X t → Formed E chosen t → chosen ≠ [] →
      Ran E chosen logits p t u → X u)
    (hfailed : ∀ t u chosen e, Inv E t → X t → Formed E chosen t → chosen ≠ [] →
      Failed E chosen e t u → X u) :
    Inv E (finalState E.step s) ∧ X (finalState E.step s) := by
  obtain ⟨admitted, ha⟩ := admitted_admitWaiting (E := E) s
  have h₁ := h.enter ha
  have hprepared : ∀ t, Prepares E (E.admitWaiting s.waiting s) t → Inv E t ∧ X t := fun t ht =>
    ht.invariant (I := fun t => Inv E t ∧ X t) h₁.sane ⟨h₁, henter _ _ _ h hX ha⟩
      (fun t u id _ hI hid hs => ⟨hI.1.share hid hs, hshare t u id hI.1 hI.2 hid hs⟩)
      (fun t u id _ hI _ hp => ⟨hI.1.preempt hp, hpreempt t u id hI.1 hI.2 hp⟩)
  refine wp_finalState (P := fun s' => Inv E s' ∧ X s') (wp_mono (wp_step h₁.sane) ?_ ?_)
  · rintro _ s' ⟨t, chosen, ht, hformed, ⟨-, rfl⟩ | ⟨hne, logits, p, hran'⟩⟩
    · exact hprepared _ ht
    · obtain ⟨hI, hX'⟩ := hprepared t ht
      exact ⟨hI.ran hformed.sublist hne hran', hran t s' chosen logits p hI hX' hformed hne hran'⟩
  · rintro e s' ⟨t, chosen, ht, hformed, hne, hfailed'⟩
    obtain ⟨hI, hX'⟩ := hprepared t ht
    exact ⟨hI.failed hformed.sublist hfailed', hfailed t s' chosen e hI hX' hformed hne hfailed'⟩

omit [Field K] [LinearOrder K] in
theorem finalState_addRequest (request : Request K) (s : EngineState K G) :
    finalState (addRequest request) s = if request.prompt = [] then s else
      { s.setSequence s.nextId { request } with
        waiting := s.waiting ++ [s.nextId], nextId := s.nextId + 1 } := by
  by_cases h : request.prompt = []
  · rw [if_pos h]
    simp only [finalState, addRequest, h, if_true]
    rfl
  · rw [if_neg h]
    simp only [finalState, addRequest, h, if_false]
    rfl

theorem inv_reachable {rng : G} {allowed : EngineState K G → Action K → Prop} {s : EngineState K G}
    (hs : (E.machine rng).Reachable allowed s) : Inv E s := by
  refine hs.invariant (Inv.create rng) fun s a _ h _ => ?_
  cases a with
  | addRequest request =>
    change Inv E (finalState (addRequest request) s)
    rw [finalState_addRequest]
    split
    · exact h
    · exact h.arrive ‹_›
  | step =>
    exact (h.step (X := fun _ => True) trivial (fun _ _ _ _ _ _ => trivial)
      (fun _ _ _ _ _ _ _ => trivial) (fun _ _ _ _ _ _ => trivial)
      (fun _ _ _ _ _ _ _ _ _ _ => trivial) fun _ _ _ _ _ _ _ _ _ => trivial).1

/-! ### Consistency -/

variable (E) in
/-- Blocks are conserved, and the scheduler's queues, statuses and block tables agree. -/
structure Consistent (s : EngineState K G) : Prop where
  refCount_eq : ∀ block, s.pool.alloc.refCount block =
    (∑ id ∈ Finset.range s.nextId, (s.pool.seqs id).blockTable.count block) +
      s.pool.prefixes.countP fun e => e.2.block = block
  freeList_nodup : s.pool.alloc.freeList.Nodup
  mem_freeList : ∀ block, block ∈ s.pool.alloc.freeList ↔
    block < E.config.numBlocks ∧ s.pool.alloc.refCount block = 0
  queues_nodup : (s.waiting ++ s.running).Nodup
  mem_waiting : ∀ id, id ∈ s.waiting ↔ id < s.nextId ∧ (s.sequences id).status = .waiting
  mem_running : ∀ id, id ∈ s.running ↔ id < s.nextId ∧ (s.sequences id).status = .running
  mem_queues : ∀ id, id ∈ s.waiting ++ s.running ↔
    id < s.nextId ∧ (s.sequences id).status ≠ .finished
  running_le : (s.running.length : Int) ≤ E.maxBatch
  idle : ∀ id < s.nextId, (s.sequences id).status ≠ .running →
    (s.pool.seqs id).blockTable = [] ∧ (s.pool.seqs id).length = 0
  prefilled : ∀ id < s.nextId, (s.sequences id).status = .running → (s.sequences id).prefilled = true →
    (s.sequences id).output ≠ [] ∧ (s.pool.seqs id).length =
      (s.sequences id).request.prompt.length + (s.sequences id).output.length - 1

theorem Inv.refCount_eq {s : EngineState K G} (h : Inv E s) (block : Nat) :
    s.pool.alloc.refCount block =
      (∑ id ∈ Finset.range s.nextId, (s.pool.seqs id).blockTable.count block) +
        s.pool.prefixes.countP fun e => e.2.block = block := by
  rw [h.wf.tracked.refCount_eq, Pool.count_refs]

/-- **Every reachable state is consistent**, also when steps have thrown. -/
theorem consistent_of_reachable (hmax : 0 ≤ E.maxBatch) {rng : G} {s : EngineState K G}
    (hs : (E.machine rng).Reachable (fun _ _ => True) s) : Consistent E s := by
  have h := inv_reachable hs
  have htracks := h.wf.tracked
  refine ⟨h.refCount_eq, htracks.nodup, fun block => ?_, h.queues.nodup, h.queues.mem_waiting,
    h.queues.mem_running, fun id => ?_, h.queues.room hmax, fun id hid hstatus => ?_,
    fun id hid hstatus hpre => ⟨(h.seq id hid).output hpre, ?_⟩⟩
  · rw [htracks.mem_freeList, htracks.refCount_eq, Multiset.count_eq_zero]
  · rw [List.mem_append, h.queues.mem_waiting, h.queues.mem_running, ← and_or_left]
    refine and_congr_right fun _ => ?_
    cases (s.sequences id).status <;> decide
  · rw [(h.seq id hid).idle hstatus]
    exact ⟨rfl, rfl⟩
  · have hlen := (h.seq id hid).committed hpre hstatus
    rw [EngineSequence.context, List.length_append] at hlen
    omega

/-! ### A small engine -/

def tinySampler : Sampler ℚ Unit where
  exp := id
  uniform g := (0, g)
  sortDesc row := (List.range row.length).mergeSort fun a b => row.getD b 0 ≤ row.getD a 0
  sortDesc_perm row := List.mergeSort_perm _ _
  sortDesc_pairwise row := by
    have h := @List.pairwise_mergeSort Nat (fun a b => decide (row.getD b 0 ≤ row.getD a 0))
      (fun a b c hab hbc => by
        simp only [decide_eq_true_iff] at hab hbc ⊢
        exact hbc.trans hab)
      (fun a b => by simpa using le_total _ _) (List.range row.length)
    exact h.imp fun hab => by simpa using hab

/-- The small model with three blocks of one row, for batches of two. -/
def tiny (prefixCache : Bool) : Engine Nat Unit ℚ Unit where
  model := Model.tiny
  sampler := tinySampler
  config := ⟨⟨1, 1, 1, 3, Nat.one_pos, Nat.one_pos, Nat.one_pos⟩, by decide⟩
  maxBatch := 2
  prefixCache := prefixCache
  numLayers_eq := rfl
  kvDim_eq := rfl

def greedyRequest (prompt : List Int) (maxTokens : Int) : Request ℚ where
  prompt := prompt
  params := ⟨0, 0, 0⟩
  maxTokens := maxTokens

/-- Two requests that do not fit the pool together. -/
def contended (prefixCache : Bool) : EngineState ℚ Unit :=
  let m := (tiny prefixCache).machine ()
  m.next (m.next m.start (.addRequest (greedyRequest [1] 3))) (.addRequest (greedyRequest [1, 1] 2))

/-- Their second step preempts the second one. -/
def preempted (prefixCache : Bool) : EngineState ℚ Unit :=
  let m := (tiny prefixCache).machine ()
  m.next (m.next (contended prefixCache) .step) .step

theorem consistent_of_reachable_preempted :
    (preempted true).preemptions = 1 ∧ Consistent (tiny true) (preempted true) :=
  ⟨by decide +kernel,
    consistent_of_reachable (by decide) (.next (.next (.next (.next .start trivial) trivial) trivial) trivial)⟩

end Engine

end InferenceEngine
