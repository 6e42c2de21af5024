import InferenceEngine.Engine.Engine
import InferenceEngine.KvCache.Sharing
import InferenceEngine.Model.Decoder

/-!
# Scheduling

The part of a step that decides what to run: it admits waiting requests, shares cached prefixes, and
preempts sequences until a batch fits the free blocks. Every decision is described once, by a relation
between the state before and after it.
-/

namespace InferenceEngine

open Exec

namespace Engine

open EngineState

variable {W Q K G : Type} [Field K] [LinearOrder K] (E : Engine W Q K G)

/-- The engine can generate a token. -/
def Serves : Prop := E.model.Complete ∧ E.model.config.vocabSize ≠ 0

/-- What a running sequence needs of the state: it is well formed, running sequences exist and are listed
once, and one that is not prefilled has tokens left to process once the engine can generate any. -/
structure Sane (s : EngineState K G) : Prop where
  wf : s.pool.Wf E.config s.nextId
  running_lt : ∀ id ∈ s.running, id < s.nextId
  running_nodup : s.running.Nodup
  status : ∀ id ∈ s.running, (s.sequences id).status = .running
  behind : E.Serves → ∀ id ∈ s.running,
    (s.sequences id).prefilled = false → (s.pool.seqs id).length < (s.sequences id).context.length

/-! ### Admission -/

/-- The waiting requests `admitted` have moved to the running ones. -/
structure Admitted (admitted : List Nat) (s s' : EngineState K G) : Prop where
  pool : s'.pool = s.pool
  nextId : s'.nextId = s.nextId
  waiting : s.waiting = admitted ++ s'.waiting
  running : s'.running = s.running ++ admitted
  sequences : ∀ i, s'.sequences i =
    if i ∈ admitted then { s.sequences i with status := .running } else s.sequences i
  room : admitted ≠ [] → (s'.running.length : Int) ≤ E.maxBatch
  fits : ∀ id ∈ admitted, s.pool.canAppend E.config id (if (s.sequences id).prefilled then 1
    else (s.sequences id).request.prompt.length + (s.sequences id).output.length) = true
  stopped : ∀ id rest, s'.waiting = id :: rest → E.maxBatch ≤ s'.running.length ∨
    s.pool.canAppend E.config id (if (s.sequences id).prefilled then 1
      else (s.sequences id).request.prompt.length + (s.sequences id).output.length) = false

theorem admitted_admitWaiting (s : EngineState K G) :
    ∃ admitted, Admitted E admitted s (E.admitWaiting s.waiting s) := by
  generalize hw : s.waiting = waiting
  induction waiting generalizing s with
  | nil => exact ⟨[], rfl, rfl, by simp [admitWaiting, hw], by simp [admitWaiting], by simp [admitWaiting],
      fun h => absurd rfl h, nofun, by simp [admitWaiting, hw]⟩
  | cons id rest ih =>
    rw [admitWaiting]
    by_cases hroom : (s.running.length : Int) < E.maxBatch
    swap
    · rw [if_neg hroom]
      exact ⟨[], rfl, rfl, rfl, by simp, by simp, fun h => absurd rfl h, nofun,
        fun _ _ _ => .inl (not_lt.mp hroom)⟩
    rw [if_pos hroom]
    by_cases hfits : s.pool.canAppend E.config id (if (s.sequences id).prefilled then 1
        else (s.sequences id).request.prompt.length + (s.sequences id).output.length) = true
    swap
    · simp only [hfits]
      refine ⟨[], rfl, rfl, rfl, by simp, by simp, fun h => absurd rfl h, nofun,
        fun id' rest' h => .inr ?_⟩
      obtain ⟨rfl, -⟩ := List.cons.inj (hw.symm.trans h)
      exact Bool.eq_false_iff.mpr hfits
    simp only [hfits, if_true]
    generalize ht : ({ s.setSequence id { s.sequences id with status := .running } with
      running := s.running ++ [id], waiting := rest } : EngineState K G) = t
    obtain ⟨admitted, h⟩ := ih t (by rw [← ht])
    have hpool : t.pool = s.pool := by rw [← ht]; rfl
    have hrunning : t.running = s.running ++ [id] := by rw [← ht]
    have hseqs : ∀ i, t.sequences i =
        if i = id then { s.sequences i with status := .running } else s.sequences i := by
      intro i
      rw [← ht]
      by_cases hi : i = id
      · subst hi
        simp [setSequence]
      · simp [setSequence, hi]
    have hfields : ∀ i, (t.sequences i).prefilled = (s.sequences i).prefilled ∧
        (t.sequences i).request = (s.sequences i).request ∧
        (t.sequences i).output = (s.sequences i).output := by
      intro i
      rw [hseqs]
      split <;> exact ⟨rfl, rfl, rfl⟩
    refine ⟨id :: admitted, h.pool.trans hpool, h.nextId.trans (by rw [← ht]; rfl), ?_, ?_, fun i => ?_,
      fun _ => ?_, fun i hi => ?_, fun id' rest' hrest => ?_⟩
    · have := h.waiting
      rw [← ht] at this
      simpa [hw, ← ht] using this
    · rw [h.running, hrunning, List.append_assoc, List.singleton_append]
    · rw [h.sequences, hseqs]
      by_cases hi : i = id
      · simp [hi]
      · simp [hi]
    · by_cases hnil : admitted = []
      · rw [h.running, hrunning, hnil]
        simp only [List.append_nil, List.length_append, List.length_singleton]
        omega
      · exact h.room hnil
    · rcases List.mem_cons.mp hi with rfl | hi
      · exact hfits
      · have hcan := h.fits i hi
        rwa [hpool, (hfields i).1, (hfields i).2.1, (hfields i).2.2] at hcan
    · refine (h.stopped id' rest' hrest).imp_right fun hcan => ?_
      rwa [hpool, (hfields id').1, (hfields id').2.1, (hfields id').2.2] at hcan

/-! ### Sharing -/

/-- The leading tokens of a context that may come from the cache: full blocks, and not the last token. -/
def cap (ctx : List Int) : List Int :=
  ctx.take ((ctx.length - 1) / E.config.blockSize * E.config.blockSize)

theorem length_cap_lt {ctx : List Int} (h : ctx ≠ []) : (E.cap ctx).length < ctx.length := by
  have hpos := List.length_pos_iff.mpr h
  have := Nat.div_mul_le_self (ctx.length - 1) E.config.blockSize
  rw [cap, List.length_take]
  omega

/-- The cached blocks `sharePrefix` takes over. -/
def sharedBlocks (s : EngineState K G) (id : Nat) : List Nat :=
  if E.prefixCache ∧ ¬(s.sequences id).prefilled ∧ (s.pool.seqs id).blockTable = [] then
    Pool.matchChain E.config s.pool.prefixes (E.config.spans (E.cap (s.sequences id).context)) 0
  else []

/-- Only a sequence without blocks that is not prefilled shares, and only with the cache on. -/
theorem may_of_sharedBlocks_ne {s : EngineState K G} {id : Nat} (h : E.sharedBlocks s id ≠ []) :
    E.prefixCache ∧ ¬(s.sequences id).prefilled ∧ (s.pool.seqs id).blockTable = [] := by
  by_contra hmay
  exact h (if_neg hmay)

/-- Sequence `id` has taken over the cached blocks of its prefix. -/
structure Shared (id : Nat) (s s' : EngineState K G) : Prop where
  frame : s' = { s with pool := s'.pool }
  wf : s'.pool.Wf E.config s.nextId
  acquired : Pool.Acquired id (E.sharedBlocks s id) s.pool s'.pool
  length : (s'.pool.seqs id).length =
    (s.pool.seqs id).length + (E.sharedBlocks s id).length * E.config.blockSize

variable {E}

/-- A sequence shares nothing when it may not, and when nothing is cached for it. -/
theorem sharedBlocks_length_le (s : EngineState K G) (id : Nat) :
    (E.sharedBlocks s id).length * E.config.blockSize ≤ (E.cap (s.sequences id).context).length := by
  rw [sharedBlocks]
  split
  · refine (Nat.mul_le_mul_right _ (Pool.length_matchChain_le _ _ _)).trans ?_
    rw [PoolSizes.length_spans]
    exact Nat.div_mul_le_self _ _
  · simp

theorem wp_sharePrefix {s : EngineState K G} {id : Nat} (hid : id < s.nextId)
    (h : s.pool.Wf E.config s.nextId) :
    wp (E.sharePrefix id) (fun _ s' => Shared E id s s') (fun _ _ => False) s := by
  have hnone : E.sharedBlocks s id = [] → Shared E id s s := fun hnil =>
    ⟨rfl, h, ⟨rfl, rfl, by simp [hnil], fun _ _ => rfl, rfl, rfl⟩, by simp [hnil]⟩
  simp only [sharePrefix, wp_bind, wp_get]
  refine wp_ite (fun hmay => ?_) fun hmay => hnone (by rw [sharedBlocks, if_neg hmay])
  have hblocks : E.sharedBlocks s id = Pool.matchChain E.config s.pool.prefixes
      (E.config.spans (E.cap (s.sequences id).context)) 0 := by rw [sharedBlocks, if_pos hmay]
  refine wp_ite (fun _ => ?_) fun hcap => hnone ?_
  · have hfresh := h.eq_empty hmay.2.2
    simp only [onPool, wp_bind, wp_zoom, wp_pure]
    refine wp_mono (Pool.wp_acquireSharedPrefix hid _ h hfresh) ?_ fun _ _ hf => hf
    rintro m p' ⟨rfl, hp', hacq, hlen⟩
    refine ⟨rfl, hp', by rw [hblocks]; exact hacq, ?_⟩
    rw [hblocks, hfresh]
    simpa [cap] using hlen
  · rw [hblocks, cap, Nat.eq_zero_of_not_pos hcap]
    simp [PoolSizes.spans, Pool.matchChain]

namespace Shared

variable {s s' : EngineState K G} {id : Nat}

theorem running (h : Shared E id s s') : s'.running = s.running := by rw [h.frame]

theorem sequences (h : Shared E id s s') : s'.sequences = s.sequences := by rw [h.frame]

theorem nextId (h : Shared E id s s') : s'.nextId = s.nextId := by rw [h.frame]

/-- What other sequences may share stays the same, and this one has shared everything it may. -/
theorem sharedBlocks (h : Shared E id s s') (i : Nat) :
    E.sharedBlocks s' i = if i = id then [] else E.sharedBlocks s i := by
  have hmatch : ∀ spans, Pool.matchChain E.config s'.pool.prefixes spans 0 =
      Pool.matchChain E.config s.pool.prefixes spans 0 := fun spans =>
    Pool.matchChain_congr h.acquired.prefixes spans 0
  by_cases hi : i = id
  · subst hi
    rw [if_pos rfl]
    have htable := h.acquired.table
    by_cases hnil : E.sharedBlocks s i = []
    · rw [hnil, List.append_nil] at htable
      rw [← hnil, Engine.sharedBlocks, Engine.sharedBlocks, h.sequences, htable, hmatch]
    · rw [Engine.sharedBlocks, if_neg]
      rintro ⟨-, -, htable'⟩
      rw [htable'] at htable
      exact hnil (List.append_eq_nil_iff.mp htable.symm).2
  · rw [if_neg hi, Engine.sharedBlocks, Engine.sharedBlocks, h.sequences, h.acquired.others i hi, hmatch]

theorem sane (h : Shared E id s s') (hs : Sane E s) : Sane E s' where
  wf := by rw [h.nextId]; exact h.wf
  running_lt := by rw [h.running, h.nextId]; exact hs.running_lt
  running_nodup := by rw [h.running]; exact hs.running_nodup
  status := by rw [h.running, h.sequences]; exact hs.status
  behind hserves i hi hpre := by
    rw [h.running] at hi
    rw [h.sequences] at hpre ⊢
    have hlt := hs.behind hserves i hi hpre
    by_cases hii : i = id
    · subst hii
      have hne : (s.sequences i).context ≠ [] := List.ne_nil_of_length_pos (Nat.zero_lt_of_lt hlt)
      have hcap := E.length_cap_lt hne
      have hle := sharedBlocks_length_le (E := E) s i
      rw [h.length]
      by_cases hnil : E.sharedBlocks s i = []
      · simpa [hnil] using hlt
      · rw [hs.wf.eq_empty (E.may_of_sharedBlocks_ne hnil).2.2]
        simp only
        omega
    · rw [h.acquired.others i hii]
      exact hlt

end Shared

/-! ### Preemption -/

variable (E) in
/-- The youngest holder of blocks has given them back and waits again. -/
structure Preempted (id : Nat) (s s' : EngineState K G) : Prop where
  wf : s'.pool.Wf E.config s.nextId
  freed : Pool.Freed id s.pool s'.pool
  nextId : s'.nextId = s.nextId
  waiting : s'.waiting = id :: s.waiting
  sequences : s'.sequences = Function.update s.sequences id
    { s.sequences id with prefilled := false, status := .waiting }
  youngest : ∃ older younger, s.running = older ++ id :: younger ∧ s'.running = older ++ younger ∧
    (s.pool.seqs id).blockTable ≠ [] ∧ ∀ i ∈ younger, (s.pool.seqs i).blockTable = []

theorem wp_preemptYoungest {s : EngineState K G} (hs : Sane E s) :
    wp preemptYoungest
      (fun more s' => if more then ∃ id, Preempted E id s s'
        else s' = s ∧ ∀ id ∈ s.running, (s.pool.seqs id).blockTable = [])
      (fun _ _ => False) s := by
  simp only [preemptYoungest, wp_bind, wp_get]
  cases hfind : s.running.reverse.find? fun id => decide ((s.pool.seqs id).blockTable ≠ []) with
  | none =>
    rw [List.find?_eq_none] at hfind
    exact ⟨rfl, fun id hid => by simpa using hfind id (List.mem_reverse.mpr hid)⟩
  | some id =>
    obtain ⟨hholds, younger, older, hsplit, hyounger⟩ := List.find?_eq_some_iff_append.mp hfind
    have hnot : id ∉ younger := fun hmem => by simpa [hholds] using hyounger id hmem
    have hrunning : s.running = older.reverse ++ id :: younger.reverse := by
      rw [← List.reverse_reverse s.running, hsplit]
      simp
    have herase : (s.running.reverse.erase id).reverse = older.reverse ++ younger.reverse := by
      rw [hsplit, List.erase_append_right _ hnot, List.erase_cons_head, List.reverse_append]
    have hid : id < s.nextId := hs.running_lt id (by rw [hrunning]; simp)
    simp only [wp_bind, wp_modify, wp_pure, if_true]
    rw [onPool, wp_zoom]
    refine wp_mono (Pool.wp_free hid hs.wf) ?_ fun _ _ hf => hf
    rintro _ p' ⟨hp', hfreed⟩
    refine ⟨id, hp', hfreed, rfl, rfl, rfl, older.reverse, younger.reverse, hrunning, herase,
      by simpa using hholds, fun i hi => ?_⟩
    simpa using hyounger i (List.mem_reverse.mp hi)

namespace Preempted

variable {s s' : EngineState K G} {id : Nat}

theorem mem_running (h : Preempted E id s s') : id ∈ s.running := by
  obtain ⟨older, younger, hrunning, -⟩ := h.youngest
  simp [hrunning]

theorem running_sublist (h : Preempted E id s s') : s'.running.Sublist s.running := by
  obtain ⟨older, younger, hrunning, hrunning', -⟩ := h.youngest
  rw [hrunning, hrunning']
  exact List.Sublist.append_left (List.sublist_cons_self _ _) _

theorem length_running (h : Preempted E id s s') : s'.running.length + 1 = s.running.length := by
  obtain ⟨older, younger, hrunning, hrunning', -⟩ := h.youngest
  rw [hrunning, hrunning']
  simp only [List.length_append, List.length_cons]
  omega

theorem not_mem_running (h : Preempted E id s s') (hs : Sane E s) : id ∉ s'.running := by
  obtain ⟨older, younger, hrunning, hrunning', -⟩ := h.youngest
  have hnodup := hs.running_nodup
  rw [hrunning] at hnodup
  rw [hrunning']
  exact (List.nodup_middle.mp hnodup).notMem

theorem sequences_of_ne (h : Preempted E id s s') {i : Nat} (hi : i ≠ id) :
    s'.sequences i = s.sequences i := by
  rw [h.sequences, Function.update_of_ne hi]

theorem sane (h : Preempted E id s s') (hs : Sane E s) : Sane E s' := by
  have hsub := h.running_sublist.subset
  have hne : ∀ i ∈ s'.running, i ≠ id := fun i hi heq => h.not_mem_running hs (heq ▸ hi)
  refine ⟨by rw [h.nextId]; exact h.wf, fun i hi => ?_, h.running_sublist.nodup hs.running_nodup,
    fun i hi => ?_, fun hserves i hi hpre => ?_⟩
  · rw [h.nextId]
    exact hs.running_lt i (hsub hi)
  · rw [h.sequences_of_ne (hne i hi)]
    exact hs.status i (hsub hi)
  · rw [h.sequences_of_ne (hne i hi)] at hpre ⊢
    rw [h.freed.others i (hne i hi)]
    exact hs.behind hserves i (hsub hi) hpre

end Preempted

/-! ### Batches -/

variable (E)

/-- What a batch has of a sequence. -/
def item (s : EngineState K G) (id : Nat) : Batched where
  id := id
  tokens := (s.sequences id).stepTokens (s.pool.seqs id)
  wasPrefill := !(s.sequences id).prefilled
  prefillCtx := if !(s.sequences id).prefilled && E.prefixCache then (s.sequences id).context else []

/-- The blocks a sequence lacks for the tokens of its next batch. -/
def demand (s : EngineState K G) (id : Nat) : Int :=
  E.config.blocksFor ((s.pool.seqs id).length +
    ((s.sequences id).stepTokens (s.pool.seqs id)).length) - (s.pool.seqs id).blockTable.length

/-- Two running sequences or more, and none fits the free blocks with all it can share. -/
structure Stuck (s : EngineState K G) : Prop where
  settled : ∀ id ∈ s.running, E.sharedBlocks s id = []
  short : ∀ id ∈ s.running, (s.pool.freeBlocks : Int) < E.demand s id
  many : 1 < s.running.length

/-- Running sequences have shared prefixes, and were preempted when nothing fitted. -/
inductive Prepares (s : EngineState K G) : EngineState K G → Prop
  | refl : Prepares s s
  | share {t u : EngineState K G} {id : Nat} :
    Prepares s t → id ∈ t.running → Shared E id t u → Prepares s u
  | preempt {t u : EngineState K G} {id : Nat} :
    Prepares s t → Stuck E t → Preempted E id t u → Prepares s u

/-- A pass over the running sequences `ids` has batched those that fit the budget one after another. -/
structure Assembled (ids : List Nat) (budget : Int) (batch : List Batched) (s s' : EngineState K G) :
    Prop where
  prepares : Prepares E s s'
  frame : s' = { s with pool := s'.pool }
  freeList : s'.pool.alloc.freeList = s.pool.alloc.freeList
  others : ∀ i, i ∉ ids → s'.pool.seqs i = s.pool.seqs i
  shared : ∀ i, E.sharedBlocks s' i = if i ∈ ids then [] else E.sharedBlocks s i
  chosen : ∃ chosen : List Nat, chosen.Sublist ids ∧ batch = chosen.map (E.item s') ∧
    (chosen ≠ [] → (chosen.map (E.demand s')).sum ≤ budget) ∧
    (chosen = [] → ∀ i ∈ ids, budget < E.demand s' i)

/-- The sequences of the batch the retry loop ends with, and why there are none if there are none. -/
structure Formed (chosen : List Nat) (s : EngineState K G) : Prop where
  settled : ∀ id ∈ s.running, E.sharedBlocks s id = []
  sublist : chosen.Sublist s.running
  fits : chosen ≠ [] → (chosen.map (E.demand s)).sum ≤ s.pool.freeBlocks
  short : chosen = [] → ∀ id ∈ s.running, (s.pool.freeBlocks : Int) < E.demand s id
  ended : chosen = [] → s.running.length ≤ 1 ∨ ∀ id ∈ s.running, (s.pool.seqs id).blockTable = []

variable {E}

namespace Prepares

variable {s t u : EngineState K G}

theorem trans (h : Prepares E s t) (h' : Prepares E t u) : Prepares E s u := by
  induction h' with
  | refl => exact h
  | share _ hid hshare ih => exact .share ih hid hshare
  | preempt _ hstuck hpre ih => exact .preempt ih hstuck hpre

theorem sane (h : Prepares E s t) (hs : Sane E s) : Sane E t := by
  induction h with
  | refl => exact hs
  | share _ _ hshare ih => exact hshare.sane ih
  | preempt _ _ hpre ih => exact hpre.sane ih

/-- What sharing and preemption keep holds of every state they lead to. -/
theorem invariant {I : EngineState K G → Prop} (h : Prepares E s t) (hs : Sane E s) (hI : I s)
    (hshare : ∀ t u id, Sane E t → I t → id ∈ t.running → Shared E id t u → I u)
    (hpreempt : ∀ t u id, Sane E t → I t → Stuck E t → Preempted E id t u → I u) : I t := by
  induction h with
  | refl => exact hI
  | share hprev hid h ih => exact hshare _ _ _ (hprev.sane hs) ih hid h
  | preempt hprev hstuck h ih => exact hpreempt _ _ _ (hprev.sane hs) ih hstuck h

end Prepares

theorem item_congr {s s' : EngineState K G} {id : Nat} (hsequences : s'.sequences = s.sequences)
    (hpool : s'.pool.seqs id = s.pool.seqs id) : E.item s' id = E.item s id := by
  rw [item, item, hsequences, hpool]

theorem demand_congr {s s' : EngineState K G} {id : Nat} (hsequences : s'.sequences = s.sequences)
    (hpool : s'.pool.seqs id = s.pool.seqs id) : E.demand s' id = E.demand s id := by
  rw [demand, demand, hsequences, hpool]

theorem wp_assemble {ids : List Nat} (hnodup : ids.Nodup) {s : EngineState K G} (hs : Sane E s)
    (hsub : ids ⊆ s.running) (budget : Int) :
    wp (E.assemble ids budget) (fun batch s' => Assembled E ids budget batch s s')
      (fun _ _ => False) s := by
  induction ids generalizing s budget with
  | nil => exact ⟨.refl, rfl, rfl, fun _ _ => rfl, by simp, [], .slnil, rfl, by simp, by simp⟩
  | cons id ids ih =>
    have hid : id ∈ s.running := hsub List.mem_cons_self
    rw [List.nodup_cons] at hnodup
    simp only [assemble, wp_bind, wp_get]
    refine wp_mono (wp_sharePrefix (hs.running_lt id hid) hs.wf) ?_ fun _ _ hf => hf
    intro _ t ht
    have hsub' : ids ⊆ t.running := by
      rw [ht.running]
      exact fun i hi => hsub (List.mem_cons_of_mem _ hi)
    -- what the rest of the pass does not touch
    have hrest : ∀ {budget' batch s'}, Assembled E ids budget' batch t s' →
        Prepares E s s' ∧ s' = { s with pool := s'.pool } ∧
        s'.pool.alloc.freeList = s.pool.alloc.freeList ∧
        (∀ i, i ∉ id :: ids → s'.pool.seqs i = s.pool.seqs i) ∧
        (∀ i, E.sharedBlocks s' i = if i ∈ id :: ids then [] else E.sharedBlocks s i) ∧
        E.item s' id = E.item t id ∧ E.demand s' id = E.demand t id := by
      intro budget' batch s' h
      have hsequences : s'.sequences = t.sequences := by rw [h.frame]
      have hpool := h.others id hnodup.1
      refine ⟨(Prepares.refl.share hid ht).trans h.prepares, by rw [h.frame, ht.frame],
        h.freeList.trans ht.acquired.freeList, fun i hi => ?_, fun i => ?_,
        item_congr hsequences hpool, demand_congr hsequences hpool⟩
      · simp only [List.mem_cons, not_or] at hi
        rw [h.others i hi.2, ht.acquired.others i hi.1]
      · rw [h.shared, ht.sharedBlocks]
        by_cases hi : i = id <;> simp [hi]
    refine wp_ite (fun hlt => ?_) fun hge => ?_
    · refine wp_mono (ih hnodup.2 (ht.sane hs) hsub' budget) ?_ fun _ _ hf => hf
      intro batch s' h
      obtain ⟨hprep, hframe, hfree, hothers, hshared, -, hdemand⟩ := hrest h
      obtain ⟨chosen, hchosen, rfl, hsum, hshort⟩ := h.chosen
      refine ⟨hprep, hframe, hfree, hothers, hshared, chosen, hchosen.cons id, rfl, hsum, fun hnil => ?_⟩
      rintro i (_ | ⟨_, hi⟩)
      · rw [hdemand]
        exact hlt
      · exact hshort hnil i hi
    · simp only [wp_bind]
      refine wp_mono (ih hnodup.2 (ht.sane hs) hsub' _) ?_ fun _ _ hf => hf
      intro batch s' h
      obtain ⟨hprep, hframe, hfree, hothers, hshared, hitem, hdemand⟩ := hrest h
      obtain ⟨chosen, hchosen, rfl, hsum, hshort⟩ := h.chosen
      refine ⟨hprep, hframe, hfree, hothers, hshared, id :: chosen, hchosen.cons_cons id, ?_, fun _ => ?_,
        fun hnil => absurd hnil (List.cons_ne_nil _ _)⟩
      · rw [List.map_cons, hitem]
        rfl
      · rw [List.map_cons, List.sum_cons, hdemand]
        have hle := not_lt.mp hge
        by_cases hnil : chosen = []
        · rw [hnil, List.map_nil, List.sum_nil, add_zero]
          exact hle
        · have := hsum hnil
          change _ ≤ budget - E.demand t id at this
          omega

/-- The retry loop returns with turns to spare: every preemption leaves one running sequence less. -/
theorem wp_formBatch {s : EngineState K G} (hs : Sane E s) {fuel : Nat} (hfuel : s.running.length < fuel) :
    wp (E.formBatch fuel)
      (fun batch s' => ∃ chosen, Prepares E s s' ∧ Formed E chosen s' ∧ batch = chosen.map (E.item s'))
      (fun _ _ => False) s := by
  induction fuel generalizing s with
  | zero => exact absurd hfuel (Nat.not_lt_zero _)
  | succ fuel ih =>
    simp only [formBatch, wp_bind, wp_get]
    refine wp_mono (wp_assemble hs.running_nodup hs (List.Subset.refl _) _) ?_ fun _ _ hf => hf
    intro batch t h
    have ht : Sane E t := h.prepares.sane hs
    have hrunning : t.running = s.running := by rw [h.frame]
    have hfree : t.pool.freeBlocks = s.pool.freeBlocks := by
      rw [Pool.freeBlocks, Pool.freeBlocks, BlockAllocator.numFree, BlockAllocator.numFree, h.freeList]
    have hsettled : ∀ id ∈ t.running, E.sharedBlocks t id = [] := fun id hid => by
      rw [h.shared, if_pos (hrunning ▸ hid)]
    obtain ⟨chosen, hchosen, hbatch, hsum, hshort⟩ := h.chosen
    rw [← hrunning] at hchosen hshort
    rw [← hfree] at hsum hshort
    refine wp_ite (fun hstop => ?_) fun hmore => ?_
    · refine ⟨chosen, h.prepares, ⟨hsettled, hchosen, hsum, hshort, fun hnil => .inl ?_⟩, hbatch⟩
      rw [hrunning]
      exact hstop.resolve_left fun hne => hne (by rw [hbatch, hnil]; rfl)
    · have hnil : chosen = [] := by
        by_contra hne
        exact hmore (.inl (by rw [hbatch]; simpa using hne))
      have hmany : 1 < t.running.length := by
        rw [hrunning]
        exact not_le.mp fun hle => hmore (.inr hle)
      simp only [wp_bind]
      refine wp_mono (wp_preemptYoungest ht) ?_ fun _ _ hf => hf
      rintro (_ | _) u hu
      · obtain ⟨rfl, hempty⟩ := hu
        exact ⟨chosen, h.prepares, ⟨hsettled, hchosen, hsum, hshort, fun _ => .inr hempty⟩, hbatch⟩
      · obtain ⟨id, hid⟩ := hu
        have hlen := hid.length_running
        have hprep : Prepares E s u := h.prepares.preempt ⟨hsettled, hshort hnil, hmany⟩ hid
        refine wp_mono (ih (hid.sane ht) (by rw [hrunning] at hlen; omega)) ?_ fun _ _ hf => hf
        exact fun _ _ ⟨chosen', h'⟩ => ⟨chosen', hprep.trans h'.1, h'.2⟩

end Engine

end InferenceEngine
