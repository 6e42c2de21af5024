import InferenceEngine.Engine.Progress

/-!
# Draining

Progress is a matter of the state before the step: the first waiting request is admitted, or a running
sequence has room. Without the prefix cache one of the two holds while there is work. With it, blocks that
only the cache still references count as taken for both, and the engine can starve.
-/

namespace InferenceEngine

open Exec

namespace Engine

open EngineState

variable {W Q K G : Type} [Field K] [LinearOrder K] (E : Engine W Q K G)

/-- The batch has room for the first waiting request, and the free blocks hold its context. -/
def Admits (s : EngineState K G) : Prop :=
  ∃ id ∈ s.waiting.head?, (s.running.length : Int) < E.maxBatch ∧
    E.config.blocksFor (s.sequences id).context.length ≤ s.pool.freeBlocks

instance (s : EngineState K G) : Decidable (E.Admits s) := by
  unfold Admits
  infer_instance

variable {E} {s s' : EngineState K G}

/-! ### The reachable states -/

theorem Within.create (rng : G) : Within E (E.create rng) :=
  ⟨fun id hid => absurd hid (Nat.not_lt_zero id), fun id hid => absurd hid (Nat.not_lt_zero id)⟩

theorem Within.arrive (h : Within E s) {request : Request K}
    (hfits : E.config.blocksFor (request.prompt.length + request.limit - 1) ≤ E.config.numBlocks) :
    Within E { s.setSequence s.nextId { request } with
      waiting := s.waiting ++ [s.nextId], nextId := s.nextId + 1 } := by
  refine ⟨fun id hid => ?_, fun id hid hstatus => ?_⟩ <;> by_cases hnew : id = s.nextId
  · subst hnew
    simpa [setSequence] using hfits
  · simp only [setSequence, Function.update_of_ne hnew]
    exact h.fits id (lt_of_le_of_ne (Nat.le_of_lt_succ hid) hnew)
  · subst hnew
    simp [setSequence, Request.limit]
  · simp only [setSequence, Function.update_of_ne hnew] at hstatus ⊢
    exact h.short id (lt_of_le_of_ne (Nat.le_of_lt_succ hid) hnew) hstatus

/-- The states that requests which fit the pool on their own lead to. -/
theorem admissible_reachable (hM : E.model.Complete) (hmatch : E.model.Matches) {rng : G}
    (hs : (E.machine rng).Reachable (fun _ a => E.Admissible a) s) : Inv E s ∧ Ready E s ∧ Within E s := by
  refine hs.invariant (I := fun s => Inv E s ∧ Ready E s ∧ Within E s)
    ⟨Inv.create rng, Ready.create rng, Within.create rng⟩ fun s a _ h ha => ?_
  cases a with
  | addRequest request =>
    change Inv E (finalState (addRequest request) s) ∧ Ready E (finalState (addRequest request) s) ∧
      Within E (finalState (addRequest request) s)
    rw [finalState_addRequest]
    split
    · exact h
    · exact ⟨h.1.arrive ‹_›, h.2.1.arrive h.1 ha.1, h.2.2.arrive ha.2⟩
  | step =>
    have hstep := stepped hM hmatch h.1 h.2.1 h.2.2
    exact ⟨hstep.inv, hstep.ready, hstep.within⟩

theorem reachable_steps {rng : G} (hs : (E.machine rng).Reachable (fun _ a => E.Admissible a) s) (k : Nat) :
    (E.machine rng).Reachable (fun _ a => E.Admissible a) ((finalState E.step)^[k] s) := by
  induction k with
  | zero => exact hs
  | succ k ih =>
    rw [Function.iterate_succ_apply']
    have hstep : E.Admissible .step := trivial
    exact .next ih hstep

/-! ### Progress from the state before the step -/

theorem Within.context_le (hw : Within E s) {id : Nat} (hid : id < s.nextId)
    (hstatus : (s.sequences id).status ≠ .finished) :
    E.config.blocksFor (s.sequences id).context.length ≤ E.config.numBlocks := by
  have hshort := hw.short id hid hstatus
  refine (E.config.blocksFor_mono ?_).trans (hw.fits id hid)
  rw [EngineSequence.context, List.length_append]
  omega

theorem admits_iff (hs : Inv E s) : E.Admits s ↔ ∃ id rest, s.waiting = id :: rest ∧
    (s.running.length : Int) < E.maxBatch ∧
    s.pool.canAppend E.config id (if (s.sequences id).prefilled then 1
      else (s.sequences id).request.prompt.length + (s.sequences id).output.length) = true := by
  cases hwaiting : s.waiting with
  | nil => simp [Admits, hwaiting]
  | cons first rest =>
    have hmem := (hs.queues.mem_waiting first).mp (by rw [hwaiting]; exact List.mem_cons_self)
    have hpre : (s.sequences first).prefilled = false := by
      by_contra hpre
      exact (hs.seq first hmem.1).waiting (Bool.not_eq_false _ ▸ hpre) hmem.2
    have hidle := (hs.seq first hmem.1).idle (by rw [hmem.2]; nofun)
    simp [Admits, hwaiting, Pool.canAppend, hpre, hidle, EngineSequence.context]

namespace Admitted

variable {admitted : List Nat} {id : Nat}

/-- Admission does not change what the running sequences have room for. -/
theorem room_iff (ha : Admitted E admitted s s') (hid : id ∈ s.running) : E.Room s' id ↔ E.Room s id := by
  have hseq : ∀ i, (s'.sequences i).context = (s.sequences i).context ∧
      (s'.sequences i).prefilled = (s.sequences i).prefilled := by
    intro i
    rw [ha.sequences]
    split <;> exact ⟨rfl, rfl⟩
  have hshared : E.sharedBlocks s' id = E.sharedBlocks s id := by
    rw [sharedBlocks, sharedBlocks, (hseq id).1, (hseq id).2, ha.pool]
  have hupTo : upTo s' id = upTo s id := by
    rw [upTo, upTo, ha.running, takeWhile_ne_append hid]
  have hoccupied : E.occupied s' id = E.occupied s id := by
    simp only [occupied, Holder, hshared, hupTo, ha.pool]
  rw [Room, Room, hoccupied, hshared, (hseq id).1, ha.pool]

/-- An admitted request finds its blocks free, whatever the running sequences hold. -/
theorem room_of_mem (ha : Admitted E admitted s s') (hs : Inv E s) (hid : id ∈ admitted) :
    E.Room s' id := by
  have hwaiting := (hs.queues.mem_waiting id).mp (by rw [ha.waiting]; exact List.mem_append_left _ hid)
  have hfits := ha.fits id hid
  have hpre : (s.sequences id).prefilled = false := by
    by_contra hpre
    exact (hs.seq id hwaiting.1).waiting (Bool.not_eq_false _ ▸ hpre) hwaiting.2
  rw [Pool.canAppend, (hs.seq id hwaiting.1).idle (by rw [hwaiting.2]; nofun), hpre] at hfits
  have hrunning : id ∈ s'.running := by
    rw [ha.running]
    exact List.mem_append_right _ hid
  have hcard := Finset.card_le_card (occupied_subset (hs.enter ha) hrunning)
  have hfree := (hs.enter ha).wf.tracked.numFree_add_card
  have hctx : (s'.sequences id).context = (s.sequences id).context := by
    rw [ha.sequences, if_pos hid]
    rfl
  rw [ha.pool] at hcard hfree
  rw [Room, hctx, EngineSequence.context, List.length_append]
  simp [Pool.freeBlocks] at hfits
  omega

end Admitted

theorem canProgress_iff (hs : Inv E s) : E.CanProgress s ↔ E.Admits s ∨ E.SomeRoom s := by
  obtain ⟨admitted, ha⟩ := admitted_admitWaiting (E := E) s
  rw [admits_iff hs]
  constructor
  · rintro ⟨id, hid, hroom⟩
    rw [ha.running, List.mem_append] at hid
    rcases hid with hid | hid
    · exact .inr ⟨id, hid, (ha.room_iff hid).mp hroom⟩
    · obtain ⟨first, rest, rfl⟩ := List.exists_cons_of_ne_nil (List.ne_nil_of_mem hid)
      have hlen := ha.room (List.cons_ne_nil _ _)
      rw [ha.running, List.length_append, List.length_cons] at hlen
      exact .inl ⟨first, rest ++ (E.admitWaiting s.waiting s).waiting, ha.waiting, by omega,
        ha.fits first List.mem_cons_self⟩
  · rintro (⟨first, rest, hwaiting, hlt, hfits⟩ | ⟨id, hid, hroom⟩)
    · have hne : admitted ≠ [] := fun hnil => by
        have hwaiting' := ha.waiting
        have hrunning := ha.running
        rw [hnil, List.nil_append] at hwaiting'
        rw [hnil, List.append_nil] at hrunning
        rcases ha.stopped first rest (hwaiting'.symm.trans hwaiting) with hfull | hcannot
        · rw [hrunning] at hfull
          omega
        · rw [hcannot] at hfits
          cases hfits
      obtain ⟨id, hid⟩ := List.exists_mem_of_ne_nil _ hne
      exact ⟨id, by rw [ha.running]; exact List.mem_append_right _ hid, ha.room_of_mem hs hid⟩
    · exact ⟨id, by rw [ha.running]; exact List.mem_append_left _ hid, (ha.room_iff hid).mpr hroom⟩

theorem admitWaiting_of_not_admits (hs : Inv E s) (hwaits : ¬E.Admits s) :
    E.admitWaiting s.waiting s = s := by
  rw [admits_iff hs] at hwaits
  cases hwaiting : s.waiting with
  | nil => rw [admitWaiting]
  | cons first rest =>
    rw [admitWaiting]
    by_cases hlt : (s.running.length : Int) < E.maxBatch
    · simp only [if_pos hlt]
      exact if_neg fun hfits => hwaits ⟨first, rest, hwaiting, hlt, hfits⟩
    · rw [if_neg hlt]

/-- Nothing runs and nobody is admitted, so nothing happens. -/
theorem step_of_not_admits (hs : Inv E s) (hwaits : ¬E.Admits s) (hrunning : s.running = []) :
    finalState E.step s = s := by
  have hsame := admitWaiting_of_not_admits hs hwaits
  rw [step_of_not_running (by rw [hsame, hrunning]), hsame]

theorem not_appended_of_fixed (rng : G) (h : finalState E.step s = s) :
    ¬Appended s ((E.machine rng).next s .step) := fun happended => happended.ne h

/-! ### Without the prefix cache -/

/-- Nothing runs, so every block is free. -/
theorem Inv.free_of_not_running (hs : Inv E s) (hrunning : s.running = []) (hcached : s.pool.prefixes = []) :
    s.pool.freeBlocks = E.config.numBlocks := by
  have hrefs : (s.pool.refs s.nextId).toFinset = ∅ := by
    ext b
    simp [hs.mem_refs, hrunning, hcached]
  have hcard := hs.wf.tracked.numFree_add_card
  rw [hrefs, Finset.card_empty] at hcard
  exact hcard

/-- The first holder of blocks has room: it competes with nobody. -/
theorem someRoom_of_uncached (hs : Inv E s) (hw : Within E s) (hcached : s.pool.prefixes = [])
    (hne : s.running ≠ []) : E.SomeRoom s := by
  have hle : ∀ id ∈ s.running, E.config.blocksFor (s.sequences id).context.length ≤ E.config.numBlocks :=
    fun id hid => hw.context_le (hs.running_lt hid) (by rw [hs.running_status hid]; nofun)
  cases hfind : s.running.find? fun id => decide (E.Holder s id) with
  | none =>
    rw [List.find?_eq_none] at hfind
    obtain ⟨id, hid⟩ := List.exists_mem_of_ne_nil _ hne
    have hnot : ¬E.Holder s id := by simpa using hfind id hid
    have hoccupied : E.occupied s id = ∅ := by simp [occupied, hcached, hnot]
    refine ⟨id, hid, ?_⟩
    have := hle id hid
    rw [Room, hoccupied, Finset.card_empty]
    omega
  | some id =>
    obtain ⟨hholds, older, younger, hrunning, holder⟩ := List.find?_eq_some_iff_append.mp hfind
    have hid : id ∈ s.running := by simp [hrunning]
    have hnot : id ∉ older := fun hmem => by simpa [hholds] using holder id hmem
    have hsub : E.occupied s id ⊆ (s.pool.seqs id).blockTable.toFinset := by
      intro b hb
      rcases mem_occupied.mp hb with hb | ⟨-, i, hi, hmem⟩
      · simp [hcached] at hb
      · rw [upTo, hrunning, takeWhile_ne_middle hnot, List.mem_append, List.mem_singleton] at hi
        rcases hi with hi | rfl
        · have hnone : ¬E.Holder s i := by simpa using holder i hi
          exact absurd (.inl (List.ne_nil_of_mem hmem)) hnone
        · exact List.mem_toFinset.mpr hmem
    have hcard := (Finset.card_le_card hsub).trans (List.toFinset_card_le _)
    have := hle id hid
    refine ⟨id, hid, ?_⟩
    rw [Room]
    omega

/-- **Without the prefix cache there is progress while there is work.** -/
theorem progress_of_uncached (hmax : 1 ≤ E.maxBatch) (hs : Inv E s) (hw : Within E s)
    (hcached : s.pool.prefixes = []) (hwork : s.hasWork = true) : E.Admits s ∨ E.SomeRoom s := by
  by_cases hrunning : s.running = []
  · have hwaiting := (hasWork_iff.mp hwork).resolve_right (not_not.mpr hrunning)
    obtain ⟨first, rest, hcons⟩ := List.exists_cons_of_ne_nil hwaiting
    obtain ⟨hlt, hstatus⟩ := (hs.queues.mem_waiting first).mp (by rw [hcons]; exact List.mem_cons_self)
    refine .inl ⟨first, by simp [hcons], ?_, ?_⟩
    · rw [hrunning, List.length_nil]
      omega
    · rw [hs.free_of_not_running hrunning hcached]
      exact hw.context_le hlt (by rw [hstatus]; nofun)
  · exact .inr (someRoom_of_uncached hs hw hcached hrunning)

/-! ### The retry loop -/

theorem formBatch_succ (fuel : Nat) (s : EngineState K G) : E.formBatch (fuel + 1) s =
    match E.assemble s.running s.pool.freeBlocks s with
    | .error e t => .error e t
    | .ok batch t =>
      if batch ≠ [] ∨ s.running.length ≤ 1 then .ok batch t
      else match preemptYoungest t with
        | .error e u => .error e u
        | .ok more u => if more then E.formBatch fuel u else .ok batch u := by
  rw [formBatch, get_bind]
  cases hpass : E.assemble s.running s.pool.freeBlocks s with
  | error e t => rw [bind_of_error hpass]
  | ok batch t =>
    rw [bind_of_ok hpass]
    by_cases hstop : batch ≠ [] ∨ s.running.length ≤ 1
    · simp only [if_pos hstop]
      rfl
    · simp only [if_neg hstop]
      cases hyoungest : preemptYoungest t with
      | error e u => rw [bind_of_error hyoungest]
      | ok more u =>
        rw [bind_of_ok hyoungest]
        cases more <;> rfl

/-- The loop ends before the turns run out: more turns change nothing. -/
theorem formBatch_fuel (hs : Sane E s) {fuel fuel' : Nat} (h : s.running.length < fuel)
    (h' : s.running.length < fuel') : E.formBatch fuel s = E.formBatch fuel' s := by
  induction fuel generalizing fuel' s with
  | zero => exact absurd h (Nat.not_lt_zero _)
  | succ fuel ih =>
    obtain ⟨fuel', rfl⟩ : ∃ k, fuel' = k + 1 := ⟨fuel' - 1, by omega⟩
    rw [formBatch_succ, formBatch_succ]
    cases hass : E.assemble s.running s.pool.freeBlocks s with
    | error e t => rfl
    | ok batch t =>
      have ht := wp_ok (wp_assemble hs.running_nodup hs (List.Subset.refl _) _) hass
      have hsane : Sane E t := ht.prepares.sane hs
      have hrunning : t.running = s.running := by rw [ht.frame]
      simp only
      split
      · rfl
      · cases hpre : preemptYoungest t with
        | error e u => rfl
        | ok more u =>
          have hu := wp_ok (wp_preemptYoungest hsane) hpre
          cases more with
          | false => rfl
          | true =>
            obtain ⟨id, hid⟩ := hu
            have hlen := hid.length_running
            rw [hrunning] at hlen
            exact ih (hid.sane hsane) (by omega) (by omega)

/-! ### Draining and starving -/

/-- Without the prefix cache an engine with work can always progress, so that it drains. -/
theorem drained_uncached (hM : E.model.Complete) (hmatch : E.model.Matches) (hcache : E.prefixCache = false)
    (hmax : 1 ≤ E.maxBatch) {rng : G} (hs : (E.machine rng).Reachable (fun _ a => E.Admissible a) s) :
    (s.hasWork = true → E.CanProgress s) ∧ ∀ k, s.work ≤ k → ((finalState E.step)^[k] s).hasWork = false := by
  have hcan : ∀ t, (E.machine rng).Reachable (fun _ a => E.Admissible a) t → t.hasWork = true → E.CanProgress t := by
    intro t ht hwork
    obtain ⟨hI, hX, hW⟩ := admissible_reachable hM hmatch ht
    exact (canProgress_iff hI).mpr (progress_of_uncached hmax hI hW (hX.uncached hcache) hwork)
  obtain ⟨hI, hX, hW⟩ := admissible_reachable hM hmatch hs
  exact ⟨hcan s hs, fun k hk => drained hM hmatch hI hX hW (fun j _ => hcan _ (reachable_steps hs j)) hk⟩

/-- **Without the prefix cache the engine drains.** A step with work appends a token, no output shrinks,
the retry loop ends, and there is no work left after as many steps as there are tokens to come. -/
theorem drains_uncached (hM : E.model.Complete) (hmatch : E.model.Matches)
    (hcache : E.prefixCache = false) (hmax : 1 ≤ E.maxBatch) {rng : G}
    (hs : (E.machine rng).Reachable (fun _ a => E.Admissible a) s) :
    (s.hasWork = true → Appended s ((E.machine rng).next s .step)) ∧
    (∀ a, ∀ id < s.nextId,
      (s.sequences id).output <+: (((E.machine rng).next s a).sequences id).output) ∧
    (∀ fuel, (E.admitWaiting s.waiting s).running.length < fuel →
      E.formBatch fuel (E.admitWaiting s.waiting s) =
        E.formBatch ((E.admitWaiting s.waiting s).running.length + 1) (E.admitWaiting s.waiting s)) ∧
    ∀ k, s.work ≤ k → ((finalState E.step)^[k] s).hasWork = false := by
  obtain ⟨hI, hX, hW⟩ := admissible_reachable hM hmatch hs
  have hstep := stepped hM hmatch hI hX hW
  obtain ⟨hcan, hdrains⟩ := drained_uncached hM hmatch hcache hmax hs
  refine ⟨fun hwork => hstep.appended_iff.mpr (hcan hwork), fun a id hid => ?_, fun fuel hfuel => ?_, hdrains⟩
  · cases a with
    | step => exact hstep.output id
    | addRequest request =>
      change _ <+: ((finalState (addRequest request) s).sequences id).output
      rw [finalState_addRequest]
      split
      · exact List.prefix_refl _
      · simp [setSequence, Nat.ne_of_lt hid]
  · obtain ⟨admitted, ha⟩ := admitted_admitWaiting (E := E) s
    exact formBatch_fuel (hI.enter ha).sane hfuel (Nat.lt_succ_self _)

theorem admissible_tiny (prefixCache : Bool) {prompt : List Int} {maxTokens : Int}
    (hprompt : ∀ t ∈ prompt, 0 ≤ t ∧ t < 3) (hfits : prompt.length + (max 1 maxTokens).toNat - 1 ≤ 3) :
    (tiny prefixCache).Admissible (.addRequest (greedyRequest prompt maxTokens)) := by
  refine ⟨fun t ht => Model.tiny_inVocab (hprompt t ht), (PoolSizes.blocksFor_le_iff _).mpr ?_⟩
  simpa [tiny, greedyRequest, Request.limit] using hfits

theorem contended_reachable (prefixCache : Bool) :
    ((tiny prefixCache).machine ()).Reachable (fun _ a => (tiny prefixCache).Admissible a) (contended prefixCache) :=
  .next (.next .start (admissible_tiny prefixCache (by decide) (by decide)))
    (admissible_tiny prefixCache (by decide) (by decide))

theorem preempted_reachable (prefixCache : Bool) :
    ((tiny prefixCache).machine ()).Reachable (fun _ a => (tiny prefixCache).Admissible a) (preempted prefixCache) :=
  have hstep : (tiny prefixCache).Admissible .step := trivial
  .next (.next (contended_reachable prefixCache) hstep) hstep

theorem drains_uncached_preempted :
    Appended (preempted false) (((tiny false).machine ()).next (preempted false) .step) ∧
      ((finalState (tiny false).step)^[2] (preempted false)).hasWork = false :=
  have hdrains := drains_uncached Model.tiny_complete Model.tiny_matches rfl (by decide) (preempted_reachable false)
  ⟨hdrains.1 (by decide +kernel), hdrains.2.2.2 2 (by decide +kernel)⟩

/-- **A step makes progress exactly when** it admits the first waiting request or a running sequence has
room, and an engine in which one of the two holds while there is work drains. -/
theorem appended_iff_room (hM : E.model.Complete) (hmatch : E.model.Matches) {rng : G}
    (hs : (E.machine rng).Reachable (fun _ a => E.Admissible a) s) :
    (Appended s ((E.machine rng).next s .step) ↔ E.Admits s ∨ E.SomeRoom s) ∧
    ∀ k, (∀ j < k, ((finalState E.step)^[j] s).hasWork = true →
        E.Admits ((finalState E.step)^[j] s) ∨ E.SomeRoom ((finalState E.step)^[j] s)) →
      s.work ≤ k → ((finalState E.step)^[k] s).hasWork = false := by
  obtain ⟨hI, hX, hW⟩ := admissible_reachable hM hmatch hs
  refine ⟨(stepped hM hmatch hI hX hW).appended_iff.trans (canProgress_iff hI), fun k hcan hk => ?_⟩
  refine drained hM hmatch hI hX hW (fun j hj hwork => ?_) hk
  exact (canProgress_iff (admissible_reachable hM hmatch (reachable_steps hs j)).1).mpr (hcan j hj hwork)

/-- A request has come and gone, and another one waits for blocks that only the cache references. -/
def starved : EngineState ℚ Unit :=
  let m := (tiny true).machine ()
  let s := m.next (m.next (m.next m.start (.addRequest (greedyRequest [1, 2] 2))) .step) .step
  m.next s (.addRequest (greedyRequest [2, 1] 2))

theorem starved_reachable : ((tiny true).machine ()).Reachable (fun _ a => (tiny true).Admissible a) starved :=
  have hstep : (tiny true).Admissible .step := trivial
  have hfirst : (tiny true).Admissible (.addRequest (greedyRequest [1, 2] 2)) :=
    admissible_tiny true (by decide) (by decide)
  .next (.next (.next (.next .start hfirst) hstep) hstep) (admissible_tiny true (by decide) (by decide))

/-- The waiting request fits the pool on its own, and no step ever does anything for it. -/
theorem starves : ((tiny true).machine ()).Reachable (fun _ a => (tiny true).Admissible a) starved ∧
    starved.hasWork = true ∧ ¬Appended starved (((tiny true).machine ()).next starved .step) ∧
    ∀ k, (finalState (tiny true).step)^[k] starved = starved := by
  have hwaits : ¬(tiny true).Admits starved := by decide +kernel
  have hidle : starved.running = [] := by decide +kernel
  have hI := inv_reachable (starved_reachable.mono fun _ _ _ => trivial)
  have hstep := step_of_not_admits hI hwaits hidle
  refine ⟨starved_reachable, by decide +kernel, not_appended_of_fixed _ hstep, fun k => ?_⟩
  exact Function.iterate_fixed hstep k

theorem appended_iff_room_starved :
    Appended starved (((tiny true).machine ()).next starved .step) ↔
      (tiny true).Admits starved ∨ (tiny true).SomeRoom starved :=
  (appended_iff_room Model.tiny_complete Model.tiny_matches starved_reachable).1

end Engine

end InferenceEngine
