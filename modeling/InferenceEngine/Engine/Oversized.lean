import InferenceEngine.Engine.Draining
import InferenceEngine.Engine.Transparency

/-!
# A request that does not fit

Admission is first come, first served, and nothing checks that a request fits the pool. A request `x` that
does not fit spoils no output. It stays where it is, though: at the head of the queue, or alone in the
batch with the blocks it has. Either way the engine comes to rest, and what waits behind it never runs.
-/

namespace InferenceEngine

open Exec

namespace Engine

open EngineState

variable {W Q K G : Type} [Field K] [LinearOrder K] (E : Engine W Q K G) (x : Nat) (X : Request K)

/-- Request `x` is `X`, all others fit the pool on their own. -/
def Submits (s : EngineState K G) : Action K → Prop
  | .addRequest request => if s.nextId = x then request = X else E.Admissible (.addRequest request)
  | .step => True

/-- What holds around `x`: the others fit the pool on their own, and no request has got all its tokens
before it is finished. -/
structure Around (s : EngineState K G) : Prop where
  request : x < s.nextId → (s.sequences x).request = X
  fits : ∀ id < s.nextId, id ≠ x → E.config.blocksFor
    ((s.sequences id).request.prompt.length + (s.sequences id).request.limit - 1) ≤ E.config.numBlocks
  short : Short s

/-- `x` waits, before everything that came later, and nothing that came later has got a token. -/
structure Queued (s : EngineState K G) : Prop where
  order : x < s.nextId → ∃ before after, s.waiting = before ++ x :: after ∧
    ∀ id, id ∈ after ↔ x < id ∧ id < s.nextId
  silent : ∀ id < s.nextId, x < id → (s.sequences id).output = []

variable {E x X} {s s' : EngineState K G}

/-! ### The invariants -/

namespace Around

theorem create (rng : G) : Around E x X (E.create rng) where
  request hx := absurd hx (Nat.not_lt_zero x)
  fits id hid := absurd hid (Nat.not_lt_zero id)
  short id hid := absurd hid (Nat.not_lt_zero id)

theorem arrive (h : Around E x X s) {request : Request K} (ha : E.Submits x X s (.addRequest request)) :
    Around E x X { s.setSequence s.nextId { request } with
      waiting := s.waiting ++ [s.nextId], nextId := s.nextId + 1 } := by
  have hold : ∀ id < s.nextId, Function.update s.sequences s.nextId { request } id = s.sequences id :=
    fun id hid => Function.update_of_ne hid.ne _ _
  rw [Submits] at ha
  constructor
  · intro hx
    simp only [setSequence]
    obtain rfl | hlt := (Nat.le_of_lt_succ hx).eq_or_lt
    · rw [if_pos rfl] at ha
      rw [Function.update_self]
      exact ha
    · rw [hold x hlt]
      exact h.request hlt
  · intro id hid hne
    simp only [setSequence]
    obtain rfl | hlt := (Nat.le_of_lt_succ hid).eq_or_lt
    · rw [if_neg hne] at ha
      rw [Function.update_self]
      exact ha.2
    · rw [hold id hlt]
      exact h.fits id hlt hne
  · intro id hid hstatus
    simp only [setSequence] at hstatus ⊢
    obtain rfl | hlt := (Nat.le_of_lt_succ hid).eq_or_lt
    · rw [Function.update_self, List.length_nil, Request.limit]
      omega
    · rw [hold id hlt] at hstatus ⊢
      exact h.short id hlt hstatus

theorem context_le (h : Around E x X s) {id : Nat} (hid : id < s.nextId) (hne : id ≠ x)
    (hstatus : (s.sequences id).status ≠ .finished) :
    E.config.blocksFor (s.sequences id).context.length ≤ E.config.numBlocks := by
  have hshort := h.short id hid hstatus
  refine (E.config.blocksFor_mono ?_).trans (h.fits id hid hne)
  rw [EngineSequence.context, List.length_append]
  omega

theorem unsampled (h : Around E x X s) (hu : Unsampled s s') : Around E x X s' where
  request hx := by
    rw [hu.request]
    exact h.request (hu.nextId ▸ hx)
  fits id hid hne := by
    rw [hu.request]
    exact h.fits id (hu.nextId ▸ hid) hne
  short := h.short.unsampled hu

theorem ran {chosen : List Nat} {logits : Rows K} {p : Pool K} (h : Around E x X s) (hs : Inv E s)
    (hsub : chosen.Sublist s.running) (hr : Ran E chosen logits p s s') : Around E x X s' where
  request hx := by
    rw [hr.request]
    exact h.request (hr.nextId ▸ hx)
  fits id hid hne := by
    rw [hr.request]
    exact h.fits id (hr.nextId ▸ hid) hne
  short := hr.short hs h.short hsub

end Around

namespace Queued

theorem create (rng : G) : Queued x (E.create rng) where
  order hx := absurd hx (Nat.not_lt_zero x)
  silent id hid := absurd hid (Nat.not_lt_zero id)

omit [Field K] [LinearOrder K] in
theorem arrive (h : Queued x s) (request : Request K) :
    Queued x { s.setSequence s.nextId { request } with
      waiting := s.waiting ++ [s.nextId], nextId := s.nextId + 1 } := by
  constructor
  · intro hx
    obtain rfl | hlt := (Nat.le_of_lt_succ hx).eq_or_lt
    · refine ⟨s.waiting, [], rfl, fun id => ?_⟩
      simp only [List.not_mem_nil, false_iff]
      omega
    · obtain ⟨before, after, hwaiting, hafter⟩ := h.order hlt
      refine ⟨before, after ++ [s.nextId], ?_, fun id => ?_⟩
      · simp only [hwaiting, List.append_assoc, List.cons_append]
      · change id ∈ after ++ [s.nextId] ↔ x < id ∧ id < s.nextId + 1
        rw [List.mem_append, hafter, List.mem_singleton]
        omega
  · intro id hid hlt
    simp only [setSequence]
    obtain rfl | hold := (Nat.le_of_lt_succ hid).eq_or_lt
    · rw [Function.update_self]
    · rw [Function.update_of_ne hold.ne]
      exact h.silent id hold hlt

theorem not_mem_admitted {admitted : List Nat} (hs : Inv E s) (haround : Around E x X s)
    (hbig : E.config.numBlocks < E.config.blocksFor X.prompt.length) (ha : Admitted E admitted s s') :
    x ∉ admitted := by
  intro hmem
  obtain ⟨hlt, hstatus⟩ :=
    (hs.queues.mem_waiting x).mp (ha.waiting ▸ List.mem_append_left _ hmem)
  have hfits := ha.fits x hmem
  have hpre : (s.sequences x).prefilled = false := by
    rw [← Bool.not_eq_true]
    exact fun hpre => (hs.seq x hlt).waiting hpre hstatus
  have hmono := E.config.blocksFor_mono
    (Nat.le_add_right X.prompt.length (s.sequences x).output.length)
  have hfree := hs.wf.tracked.numFree_add_card
  rw [Pool.canAppend, (hs.seq x hlt).idle (by rw [hstatus]; decide), hpre, haround.request hlt] at hfits
  simp [Pool.freeBlocks] at hfits
  omega

theorem enter {admitted : List Nat} (h : Queued x s) (hs : Inv E s) (haround : Around E x X s)
    (hbig : E.config.numBlocks < E.config.blocksFor X.prompt.length) (ha : Admitted E admitted s s') :
    Queued x s' := by
  have hnot := not_mem_admitted hs haround hbig ha
  constructor
  · intro hx
    rw [ha.nextId] at hx ⊢
    obtain ⟨before, after, hwaiting, hafter⟩ := h.order hx
    rw [ha.waiting, List.append_eq_append_iff] at hwaiting
    obtain ⟨before', -, hrest⟩ | ⟨c, hc, hrest⟩ := hwaiting
    · exact ⟨before', after, hrest, hafter⟩
    · cases c with
      | nil => exact ⟨[], after, hrest.symm, hafter⟩
      | cons first c =>
        rw [List.cons_append, List.cons.injEq] at hrest
        rw [hc, ← hrest.1] at hnot
        exact absurd (List.mem_append_right _ List.mem_cons_self) hnot
  · intro id hid hlt
    rw [ha.nextId] at hid
    rw [ha.sequences]
    split
    · exact h.silent id hid hlt
    · exact h.silent id hid hlt

theorem share {id : Nat} (h : Queued x s) (hsh : Shared E id s s') : Queued x s' := by
  rw [hsh.frame]
  exact ⟨h.order, h.silent⟩

theorem preempt {id : Nat} (h : Queued x s) (hp : Preempted E id s s') : Queued x s' := by
  constructor
  · intro hx
    rw [hp.nextId] at hx ⊢
    obtain ⟨before, after, hwaiting, hafter⟩ := h.order hx
    refine ⟨id :: before, after, ?_, hafter⟩
    rw [hp.waiting, hwaiting, List.cons_append]
  · intro i hi hlt
    rw [hp.nextId] at hi
    by_cases hii : i = id
    · subst hii
      rw [hp.sequences, Function.update_self]
      exact h.silent i hi hlt
    · rw [hp.sequences_of_ne hii]
      exact h.silent i hi hlt

theorem ran {chosen : List Nat} {logits : Rows K} {p : Pool K} (h : Queued x s) (hs : Inv E s)
    (hsub : chosen.Sublist s.running) (hr : Ran E chosen logits p s s') : Queued x s' := by
  constructor
  · intro hx
    rw [hr.nextId] at hx ⊢
    rw [hr.waiting]
    exact h.order hx
  · intro id hid hlt
    rw [hr.nextId] at hid
    -- what came after `x` waits, so it is not in the batch
    obtain ⟨before, after, hwaiting, hafter⟩ := h.order (hlt.trans hid)
    have hnot : id ∉ chosen := by
      intro hmem
      have hrunning := hs.running_status (hsub.subset hmem)
      have hwaits : id ∈ s.waiting := by
        rw [hwaiting]
        exact List.mem_append_right _ (List.mem_cons_of_mem _ ((hafter id).mpr ⟨hlt, hid⟩))
      rw [((hs.queues.mem_waiting id).mp hwaits).2] at hrunning
      cases hrunning
    rw [(hr.others hnot).1]
    exact h.silent id hid hlt

end Queued

variable (E x X) in
/-- What holds between two calls. -/
structure Beside (s : EngineState K G) : Prop where
  ready : Ready E s
  around : Around E x X s
  queued : E.config.numBlocks < E.config.blocksFor X.prompt.length → Queued x s

theorem Beside.step (hM : E.model.Complete) (hmatch : E.model.Matches) (hs : Inv E s)
    (h : Beside E x X s) : Inv E (finalState E.step s) ∧ Beside E x X (finalState E.step s) := by
  apply hs.step h
  · intro t u admitted hI hX ha
    exact ⟨hX.ready.enter ha, hX.around.unsampled (ha.unsampled hI),
      fun hbig => (hX.queued hbig).enter hI hX.around hbig ha⟩
  · intro t u id hI hX hid hsh
    exact ⟨hX.ready.share hI hsh, hX.around.unsampled hsh.unsampled,
      fun hbig => (hX.queued hbig).share hsh⟩
  · intro t u id hI hX hp
    exact ⟨hX.ready.preempt hp, hX.around.unsampled (hp.unsampled hI.sane),
      fun hbig => (hX.queued hbig).preempt hp⟩
  · intro t u chosen logits p hI hX hf hne hr
    exact ⟨hX.ready.ran hmatch hI hf.sublist hr, hX.around.ran hI hf.sublist hr,
      fun hbig => (hX.queued hbig).ran hI hf.sublist hr⟩
  · intro t u chosen e hI hX hf hne hfailed
    exact absurd hfailed (hX.ready.not_failed hM hmatch hI hf hne)

theorem beside_reachable (hM : E.model.Complete) (hmatch : E.model.Matches)
    (hX : ∀ t ∈ X.prompt, E.model.InVocab t) {rng : G}
    (hs : (E.machine rng).Reachable (E.Submits x X) s) : Inv E s ∧ Beside E x X s := by
  apply hs.invariant (I := fun s => Inv E s ∧ Beside E x X s)
  · exact ⟨Inv.create rng, Ready.create rng, Around.create rng, fun _ => Queued.create rng⟩
  · intro s a _ h ha
    cases a with
    | step => exact h.2.step hM hmatch h.1
    | addRequest request =>
      change Inv E (finalState (addRequest request) s) ∧ Beside E x X (finalState (addRequest request) s)
      rw [finalState_addRequest]
      split
      · exact h
      · have hvocab : ∀ t ∈ request.prompt, E.model.InVocab t := by
          rw [Submits] at ha
          split at ha
          · rw [ha]
            exact hX
          · exact ha.1
        exact ⟨h.1.arrive ‹_›, h.2.ready.arrive h.1 hvocab, h.2.around.arrive ha,
          fun hbig => (h.2.queued hbig).arrive request⟩

/-! ### Coming to rest -/

/-- When nobody can be batched, only `x` is left running. -/
theorem eq_of_formed_nil (hM : E.model.Complete) (hmatch : E.model.Matches) (hcache : E.prefixCache = false)
    (hs : Inv E s) (h : Beside E x X s) (hf : Formed E [] s) {id : Nat} (hid : id ∈ s.running) : id = x := by
  by_contra hne
  have hlt := hs.running_lt hid
  have hcached := h.ready.uncached hcache
  -- no other sequence holds blocks
  have honly : ∀ i ∈ s.running, (s.pool.seqs i).blockTable ≠ [] → i = id := by
    intro i hi htable
    obtain hone | hnone := hf.ended rfl
    · obtain ⟨j, hj⟩ := List.length_eq_one_iff.mp (le_antisymm hone (List.length_pos_of_mem hid))
      rw [hj, List.mem_singleton] at hi hid
      rw [hi, hid]
    · exact absurd (hnone i hi) htable
  have hoccupied : E.occupied s id ⊆ (s.pool.seqs id).blockTable.toFinset := by
    intro b hb
    have hrefs := (hs.mem_refs).mp (Multiset.mem_toFinset.mp (occupied_subset hs hid hb))
    rw [hcached] at hrefs
    obtain hnil | ⟨i, hi, hmem⟩ := hrefs
    · cases hnil
    · rw [honly i hi (List.ne_nil_of_mem hmem)] at hmem
      exact List.mem_toFinset.mpr hmem
  have hroom : E.Room s id := by
    have hcard := (Finset.card_le_card hoccupied).trans (List.toFinset_card_le _)
    have hcontext := h.around.context_le hlt hne (by rw [hs.running_status hid]; decide)
    rw [Room]
    omega
  have hserves := h.ready.serves hM hmatch hs hlt
  rw [room_iff_demand hs hserves hid (hf.settled id hid)] at hroom
  · exact absurd hroom (not_le.mpr (hf.short rfl id hid))
  · intro i hi htable
    obtain rfl := honly i hi htable
    exact ⟨.inl htable, List.mem_append_right _ (List.mem_singleton_self _)⟩

theorem running_of_formed_nil (hM : E.model.Complete) (hmatch : E.model.Matches)
    (hcache : E.prefixCache = false) (hs : Inv E s) (h : Beside E x X s) (hf : Formed E [] s) :
    s.running = [] ∨ s.running = [x] := by
  have honly : ∀ id ∈ s.running, id = x := fun id hid => eq_of_formed_nil hM hmatch hcache hs h hf hid
  have hnodup := hs.sane.running_nodup
  cases hrunning : s.running with
  | nil => exact .inl rfl
  | cons first rest =>
    rw [hrunning] at honly hnodup
    obtain rfl := honly first List.mem_cons_self
    cases rest with
    | nil => exact .inr rfl
    | cons second rest =>
      obtain rfl := honly second (List.mem_cons_of_mem _ List.mem_cons_self)
      exact absurd List.mem_cons_self (List.nodup_cons.mp hnodup).1

theorem assemble_short (hcache : E.prefixCache = false) {budget : Int} :
    ∀ ids : List Nat, (∀ id ∈ ids, budget < E.demand s id) → E.assemble ids budget s = .ok [] s := by
  intro ids
  induction ids with
  | nil => exact fun _ => rfl
  | cons id ids ih =>
    intro hshort
    have hshare : E.sharePrefix id s = .ok () s := by
      rw [sharePrefix, get_bind, if_neg (by simp [hcache])]
      rfl
    have hdelta := hshort id List.mem_cons_self
    rw [demand] at hdelta
    rw [assemble, bind_of_ok hshare, get_bind, if_pos hdelta]
    exact ih fun i hi => hshort i (List.mem_cons_of_mem _ hi)

/-- Nobody is admitted and the only running sequence has no room, so nothing happens. -/
theorem step_of_no_room (hM : E.model.Complete) (hmatch : E.model.Matches) (hcache : E.prefixCache = false)
    (hs : Inv E s) (hr : Ready E s) {id : Nat} (hrunning : s.running = [id]) (hwaits : ¬E.Admits s)
    (hroom : ¬E.SomeRoom s) : finalState E.step s = s := by
  have hid : id ∈ s.running := by rw [hrunning]; exact List.mem_singleton_self id
  have hserves := hr.serves hM hmatch hs (hs.running_lt hid)
  have hshort : s.pool.freeBlocks < E.demand s id := by
    rw [← not_le, ← room_iff_demand hs hserves hid]
    · exact fun h => hroom ⟨id, hid, h⟩
    · simp [sharedBlocks, hcache]
    · intro i hi htable
      rw [hrunning, List.mem_singleton] at hi
      subst hi
      exact ⟨.inl htable, List.mem_append_right _ (List.mem_singleton_self _)⟩
  have hassemble := assemble_short hcache s.running (by
    intro i hi
    rw [hrunning, List.mem_singleton] at hi
    rw [hi]
    exact hshort)
  have hform : E.formBatch (s.running.length + 1) s = .ok [] s := by
    rw [formBatch_succ, hassemble]
    simp [hrunning]
  have hsame := admitWaiting_of_not_admits hs hwaits
  rw [finalState, step, modify_bind, hsame]
  rw [get_bind, bind_of_ok hform, if_pos rfl]
  rfl

theorem beside_iterate (hM : E.model.Complete) (hmatch : E.model.Matches) (hs : Inv E s)
    (h : Beside E x X s) (k : Nat) :
    Inv E ((finalState E.step)^[k] s) ∧ Beside E x X ((finalState E.step)^[k] s) ∧
      ((finalState E.step)^[k] s).nextId = s.nextId ∧
      ∀ id, (((finalState E.step)^[k] s).sequences id).request = (s.sequences id).request := by
  induction k with
  | zero => exact ⟨hs, h, rfl, fun _ => rfl⟩
  | succ k ih =>
    rw [Function.iterate_succ_apply']
    obtain ⟨hI, hX, hnextId, hrequest⟩ := ih
    obtain ⟨hI', hX'⟩ := hX.step hM hmatch hI
    refine ⟨hI', hX', ?_⟩
    rw [← hnextId]
    simp only [← hrequest]
    obtain ⟨t, chosen, hu, -, -, -, -, ⟨-, heq⟩ | ⟨-, logits, p, hran⟩⟩ := exists_formed hM hmatch hI hX.ready
    · rw [heq]
      exact ⟨hu.nextId, hu.request⟩
    · refine ⟨hran.nextId.trans hu.nextId, fun id => ?_⟩
      rw [hran.request, hu.request]

/-- After a step that could not progress, the engine can progress or has come to rest. -/
theorem Beside.rests (hM : E.model.Complete) (hmatch : E.model.Matches) (hcache : E.prefixCache = false)
    (hs : Inv E s) (h : Beside E x X s) (hf : Formed E [] s) (hcan : ¬E.CanProgress s) :
    finalState E.step s = s := by
  rw [canProgress_iff hs, not_or] at hcan
  obtain hrunning | hrunning := running_of_formed_nil hM hmatch hcache hs h hf
  · exact step_of_not_admits hs hcan.1 hrunning
  · exact step_of_no_room hM hmatch hcache hs h.ready hrunning hcan.1 hcan.2

/-- **The engine comes to rest.** -/
theorem Beside.exists_fixed (hM : E.model.Complete) (hmatch : E.model.Matches)
    (hcache : E.prefixCache = false) (hs : Inv E s) (h : Beside E x X s) :
    ∃ k, finalState E.step ((finalState E.step)^[k] s) = (finalState E.step)^[k] s := by
  apply Machine.exists_fixed (I := fun s => Inv E s ∧ Beside E x X s) (w := work) ?_ ?_ ⟨hs, h⟩
  · exact fun s hI => hI.2.step hM hmatch hI.1
  · intro s hI
    obtain ⟨hs, h⟩ := hI
    by_cases hcan : E.CanProgress s
    · exact ⟨1, .inr (work_step_lt hM hmatch hs h.ready h.around.short hcan)⟩
    obtain ⟨t, chosen, hu, hformed, -, -, hiff, ⟨rfl, heq⟩ | ⟨hne, -⟩⟩ :=
      exists_formed hM hmatch hs h.ready
    · obtain ⟨hI', h'⟩ := h.step hM hmatch hs
      rw [heq] at hI' h'
      by_cases hcan' : E.CanProgress t
      · refine ⟨2, .inr ?_⟩
        rw [Function.iterate_succ_apply, Function.iterate_one, heq, ← hu.work]
        exact work_step_lt hM hmatch hI' h'.ready h'.around.short hcan'
      · refine ⟨1, .inl ?_⟩
        rw [Function.iterate_one, heq]
        exact h'.rests hM hmatch hcache hI' hformed hcan'
    · exact absurd (hiff.mpr hne) hcan

/-- At rest everything else is finished, unless `x` is in the way. -/
theorem Beside.of_fixed (hM : E.model.Complete) (hmatch : E.model.Matches) (hcache : E.prefixCache = false)
    (hmax : 1 ≤ E.maxBatch) (hs : Inv E s) (h : Beside E x X s) (hfixed : finalState E.step s = s) :
    (s.waiting = [] ∧ s.running = []) ∨ s.running = [x] ∨ s.running = [] ∧ s.waiting.head? = some x := by
  have hcan : ¬E.CanProgress s := by
    intro hcan
    have hlt := work_step_lt hM hmatch hs h.ready h.around.short hcan
    rw [hfixed] at hlt
    exact lt_irrefl _ hlt
  obtain ⟨t, chosen, -, hformed, -, -, hiff, ⟨rfl, heq⟩ | ⟨hne, -⟩⟩ := exists_formed hM hmatch hs h.ready
  swap
  · exact absurd (hiff.mpr hne) hcan
  rw [hfixed] at heq
  subst heq
  obtain hrunning | hrunning := running_of_formed_nil hM hmatch hcache hs h hformed
  swap
  · exact .inr (.inl hrunning)
  cases hwaiting : s.waiting with
  | nil => exact .inl ⟨rfl, hrunning⟩
  | cons first rest =>
    right
    right
    refine ⟨hrunning, ?_⟩
    by_contra hne
    have hfirst : first ≠ x := fun heq => hne (congrArg some heq)
    obtain ⟨hlt, hstatus⟩ :=
      (hs.queues.mem_waiting first).mp (by rw [hwaiting]; exact List.mem_cons_self)
    have hcontext := h.around.context_le hlt hfirst (by rw [hstatus]; decide)
    apply hcan
    rw [canProgress_iff hs]
    refine .inl ⟨first, by simp [hwaiting], ?_, ?_⟩
    · rw [hrunning, List.length_nil]
      omega
    · rw [hs.free_of_not_running hrunning (h.ready.uncached hcache)]
      exact hcontext

theorem Inv.finished_of_not_mem (hs : Inv E s) {id : Nat} (hid : id < s.nextId) (hwaiting : id ∉ s.waiting)
    (hrunning : id ∉ s.running) : (s.sequences id).status = .finished := by
  cases hstatus : (s.sequences id).status with
  | waiting => exact absurd ((hs.queues.mem_waiting id).mpr ⟨hid, hstatus⟩) hwaiting
  | running => exact absurd ((hs.queues.mem_running id).mpr ⟨hid, hstatus⟩) hrunning
  | finished => rfl

/-- With a prompt that exceeds the pool, at rest: what came before `x` is finished. -/
theorem Beside.finished_before (hM : E.model.Complete) (hmatch : E.model.Matches)
    (hcache : E.prefixCache = false) (hmax : 1 ≤ E.maxBatch) (hs : Inv E s) (h : Beside E x X s)
    (hfixed : finalState E.step s = s) (hbig : E.config.numBlocks < E.config.blocksFor X.prompt.length)
    (hx : x < s.nextId) {id : Nat} (hid : id < x) : (s.sequences id).status = .finished := by
  obtain ⟨before, after, hwaiting, hafter⟩ := (h.queued hbig).order hx
  have hnodup := hs.queues.nodup
  have hwaits : x ∈ s.waiting := by
    rw [hwaiting]
    exact List.mem_append_right _ List.mem_cons_self
  have hrest := h.of_fixed hM hmatch hcache hmax hs hfixed
  obtain ⟨hnil, -⟩ | hrunning | ⟨hrunning, hhead⟩ := hrest
  · rw [hnil] at hwaits
    cases hwaits
  · rw [hrunning, List.nodup_append] at hnodup
    exact absurd rfl (hnodup.2.2 x hwaits x (List.mem_singleton_self x))
  · apply hs.finished_of_not_mem (hid.trans hx)
    · -- `x` is the first to wait, and what waits behind it came later
      rw [hrunning, List.append_nil, hwaiting] at hnodup
      have hbefore : before = [] := by
        cases before with
        | nil => rfl
        | cons first before =>
          rw [hwaiting, List.cons_append, List.head?_cons, Option.some.injEq] at hhead
          rw [hhead, List.cons_append, List.nodup_cons] at hnodup
          exact absurd (List.mem_append_right _ List.mem_cons_self) hnodup.1
      rw [hwaiting, hbefore, List.nil_append, List.mem_cons, hafter]
      omega
    · rw [hrunning]
      exact List.not_mem_nil

/-! ### What a request that does not fit does to the others -/

theorem submits_self (hx : s.nextId = x) : E.Submits x X s (.addRequest X) := by
  rw [Submits, if_pos hx]

theorem submits_of_admissible {request : Request K} (hx : s.nextId ≠ x)
    (ha : E.Admissible (.addRequest request)) : E.Submits x X s (.addRequest request) := by
  rw [Submits, if_neg hx]
  exact ha

theorem Submits.known (hX : ∀ t ∈ X.prompt, E.model.InVocab t) {a : Action K} (ha : E.Submits x X s a) :
    KnownTokens E s a := by
  cases a with
  | step => trivial
  | addRequest request =>
    rw [Submits] at ha
    split at ha
    · rw [ha]
      exact hX
    · exact ha.1

/-- **A request that does not fit** never changes an output. Repeated steps bring the engine to rest, and
then all other requests are finished unless `x` runs alone or heads the queue with nothing running. If
already its prompt exceeds the pool, what came before it is finished, and what came after it has nothing. -/
theorem rests_beside_oversized (hM : E.model.Complete) (hmatch : E.model.Matches)
    (hcache : E.prefixCache = false) (hmax : 1 ≤ E.maxBatch) (hX : ∀ t ∈ X.prompt, E.model.InVocab t)
    {rng : G} (hs : (E.machine rng).Reachable (E.Submits x X) s) :
    (∀ k, let t := (finalState E.step)^[k] s
      ∀ id < s.nextId, (s.sequences id).request.params.temperature ≤ 0 →
        (t.sequences id).output <+: (s.sequences id).request.greedyOutput E.model.forward ∧
        ((t.sequences id).status = .finished →
          (t.sequences id).output = (s.sequences id).request.greedyOutput E.model.forward ∧
          ∀ u, (E.machine rng).Reachable (fun _ a => E.Admissible a) u → ∀ i < u.nextId,
            (u.sequences i).request = (s.sequences id).request → (u.sequences i).status = .finished →
              (t.sequences id).output = (u.sequences i).output)) ∧
    ∃ k, let t := (finalState E.step)^[k] s
      finalState E.step t = t ∧
      ((∀ id < s.nextId, id ≠ x → (t.sequences id).status = .finished) ∨
        t.running = [x] ∨ t.running = [] ∧ t.waiting.head? = some x) ∧
      (E.config.numBlocks < E.config.blocksFor X.prompt.length → x < s.nextId →
        (∀ id < x, (t.sequences id).status = .finished) ∧
        ∀ id < s.nextId, x < id → (t.sequences id).output = []) := by
  obtain ⟨hI, h⟩ := beside_reachable hM hmatch hX hs
  have hsteps : ∀ k, (E.machine rng).Reachable (E.Submits x X) ((finalState E.step)^[k] s) := by
    intro k
    induction k with
    | zero => exact hs
    | succ k ih =>
      rw [Function.iterate_succ_apply']
      have hstep : E.Submits x X ((finalState E.step)^[k] s) .step := trivial
      exact .next ih hstep
  constructor
  · intro k t id hid hgreedy
    obtain ⟨-, -, hnextId, hrequest⟩ := beside_iterate hM hmatch hI h k
    have ht : (E.machine rng).Reachable (KnownTokens E) t :=
      (hsteps k).mono fun _ _ ha => ha.known hX
    rw [← hrequest id] at hgreedy ⊢
    rw [← hnextId] at hid
    obtain ⟨hisPrefix, hfinished⟩ := seqGreedy_reachable hmatch ht (.inl hcache) hid hgreedy
    refine ⟨hisPrefix, fun hdone => ⟨hfinished hdone, ?_⟩⟩
    intro u hu i hi hsame hidone
    have hu' : (E.machine rng).Reachable (KnownTokens E) u := hu.mono fun _ _ ha => ha.known
    rw [← hsame] at hgreedy
    rw [(seqGreedy_reachable hmatch hu' (.inl hcache) hi hgreedy).2 hidone, hfinished hdone, hsame]
  · obtain ⟨k, hfixed⟩ := h.exists_fixed hM hmatch hcache hI
    obtain ⟨hI', h', hnextId, -⟩ := beside_iterate hM hmatch hI h k
    refine ⟨k, hfixed, ?_, fun hbig hx => ⟨fun id hid => ?_, fun id hid hlt => ?_⟩⟩
    · refine (h'.of_fixed hM hmatch hcache hmax hI' hfixed).imp_left fun hnil id hid _ => ?_
      apply hI'.finished_of_not_mem (hnextId ▸ hid)
      · rw [hnil.1]
        exact List.not_mem_nil
      · rw [hnil.2]
        exact List.not_mem_nil
    · exact h'.finished_before hM hmatch hcache hmax hI' hfixed hbig (hnextId ▸ hx) hid
    · exact (h'.queued hbig).silent id (hnextId ▸ hid) hlt

/-- The second of three requests has a prompt longer than the pool; the first one is done. -/
def headed : EngineState ℚ Unit :=
  let m := (tiny false).machine ()
  m.next (m.next (m.next (m.next m.start (.addRequest (greedyRequest [1] 1)))
    (.addRequest (greedyRequest [1, 1, 1, 1] 1))) (.addRequest (greedyRequest [2] 1))) .step

/-- The first request has outgrown the pool, alone in the batch, when the second one comes. -/
def outgrown : EngineState ℚ Unit :=
  let m := (tiny false).machine ()
  m.next (m.next (m.next (m.next (m.next m.start (.addRequest (greedyRequest [1] 4))) .step) .step) .step)
    (.addRequest (greedyRequest [2] 1))

theorem headed_reachable :
    ((tiny false).machine ()).Reachable ((tiny false).Submits 1 (greedyRequest [1, 1, 1, 1] 1)) headed := by
  have hstep : ∀ s, (tiny false).Submits 1 (greedyRequest [1, 1, 1, 1] 1) s .step := fun _ => trivial
  refine .next (.next (.next (.next .start (submits_of_admissible ?_ ?_)) (submits_self ?_))
    (submits_of_admissible ?_ ?_)) (hstep _)
  · decide
  · exact admissible_tiny false (by decide) (by decide)
  · decide +kernel
  · decide +kernel
  · exact admissible_tiny false (by decide) (by decide)

theorem outgrown_reachable :
    ((tiny false).machine ()).Reachable ((tiny false).Submits 0 (greedyRequest [1] 4)) outgrown := by
  have hstep : ∀ s, (tiny false).Submits 0 (greedyRequest [1] 4) s .step := fun _ => trivial
  refine .next (.next (.next (.next (.next .start (submits_self ?_)) (hstep _)) (hstep _)) (hstep _))
    (submits_of_admissible ?_ ?_)
  · rfl
  · decide +kernel
  · exact admissible_tiny false (by decide) (by decide)

theorem headed_rests : finalState (tiny false).step headed = headed :=
  step_of_not_admits (inv_reachable headed_reachable) (by decide +kernel) (by decide +kernel)

theorem outgrown_rests : finalState (tiny false).step outgrown = outgrown := by
  have hknown : ∀ t ∈ (greedyRequest [1] 4).prompt, (tiny false).model.InVocab t := fun t ht =>
    Model.tiny_inVocab (by revert t; decide)
  obtain ⟨hI, h⟩ := beside_reachable Model.tiny_complete Model.tiny_matches hknown outgrown_reachable
  have hrunning : outgrown.running = [0] := by decide +kernel
  exact step_of_no_room Model.tiny_complete Model.tiny_matches rfl hI h.ready hrunning (by decide +kernel)
    (by decide +kernel)

/-- A request that fits the pool on its own is never finished: behind a prompt that exceeds the pool, and
beside a request that has outgrown it. -/
theorem oversized_starves :
    ((tiny false).config.numBlocks < (tiny false).config.blocksFor (headed.sequences 1).request.prompt.length ∧
      (tiny false).Admissible (.addRequest (headed.sequences 2).request) ∧
      ∀ k, (((finalState (tiny false).step)^[k] headed).sequences 2).status ≠ .finished) ∧
    ((tiny false).config.numBlocks < (tiny false).config.blocksFor (outgrown.sequences 0).context.length ∧
      (tiny false).Admissible (.addRequest (outgrown.sequences 1).request) ∧
      ∀ k, (((finalState (tiny false).step)^[k] outgrown).sequences 1).status ≠ .finished) := by
  have hheaded : ∀ t ∈ (headed.sequences 2).request.prompt, 0 ≤ t ∧ t < 3 := by decide +kernel
  have houtgrown : ∀ t ∈ (outgrown.sequences 1).request.prompt, 0 ≤ t ∧ t < 3 := by decide +kernel
  refine ⟨⟨by decide +kernel, ⟨fun t ht => Model.tiny_inVocab (hheaded t ht), by decide +kernel⟩, fun k => ?_⟩,
    by decide +kernel, ⟨fun t ht => Model.tiny_inVocab (houtgrown t ht), by decide +kernel⟩, fun k => ?_⟩
  · rw [Function.iterate_fixed headed_rests]
    decide +kernel
  · rw [Function.iterate_fixed outgrown_rests]
    decide +kernel

theorem rests_beside_oversized_headed :
    ∃ k, let t := (finalState (tiny false).step)^[k] headed
      (t.sequences 0).status = .finished ∧ (t.sequences 2).output = [] := by
  obtain ⟨-, k, -, -, hbig⟩ := rests_beside_oversized Model.tiny_complete Model.tiny_matches rfl (by decide)
    (fun t ht => Model.tiny_inVocab (by revert t; decide)) headed_reachable
  obtain ⟨hbefore, hafter⟩ := hbig (by decide) (by decide +kernel)
  exact ⟨k, hbefore 0 (by decide), hafter 2 (by decide +kernel) (by decide)⟩

end Engine

end InferenceEngine
