import InferenceEngine.Engine.Readiness

/-!
# Room for a batch

Whether a step batches a sequence can be read off the state in which the retry loop starts: some running
sequence must find room beside the cached blocks and the blocks of the sequences that are not preempted
for it. Those are the holders of blocks before it when it holds blocks itself, and nobody otherwise.
-/

namespace InferenceEngine

open Exec

namespace Engine

open EngineState

variable {W Q K G : Type} [Field K] [LinearOrder K] (E : Engine W Q K G)

/-- A running sequence that has blocks, or is about to share some. -/
def Holder (s : EngineState K G) (id : Nat) : Prop :=
  (s.pool.seqs id).blockTable ≠ [] ∨ E.sharedBlocks s id ≠ []

instance (s : EngineState K G) (id : Nat) : Decidable (E.Holder s id) := by
  unfold Holder
  infer_instance

/-- The running sequences up to `id`. -/
def upTo (s : EngineState K G) (id : Nat) : List Nat := s.running.takeWhile (· ≠ id) ++ [id]

/-- The cached blocks, and those of the sequences that are not preempted for `id`. -/
def occupied (s : EngineState K G) (id : Nat) : Finset Nat :=
  (s.pool.prefixes.map (·.2.block) ++
    if E.Holder s id then (upTo s id).flatMap fun i => (s.pool.seqs i).blockTable else []).toFinset

/-- The context of `id` fits beside the occupied blocks, with the blocks it has and shares. -/
def Room (s : EngineState K G) (id : Nat) : Prop :=
  E.config.blocksFor (s.sequences id).context.length + (E.occupied s id).card ≤
    E.config.numBlocks + ((s.pool.seqs id).blockTable.length + (E.sharedBlocks s id).length)

instance (s : EngineState K G) (id : Nat) : Decidable (E.Room s id) := by
  unfold Room
  infer_instance

def SomeRoom (s : EngineState K G) : Prop := ∃ id ∈ s.running, E.Room s id

instance (s : EngineState K G) : Decidable (E.SomeRoom s) := by
  unfold SomeRoom
  infer_instance

variable {E} {s s' : EngineState K G}

theorem mem_occupied {id b : Nat} : b ∈ E.occupied s id ↔ b ∈ s.pool.prefixes.map (·.2.block) ∨
    E.Holder s id ∧ ∃ i ∈ upTo s id, b ∈ (s.pool.seqs i).blockTable := by
  by_cases h : E.Holder s id <;> simp [occupied, h]

theorem sharedBlocks_subset (s : EngineState K G) (id : Nat) :
    E.sharedBlocks s id ⊆ s.pool.prefixes.map (·.2.block) := by
  intro b hb
  rw [Engine.sharedBlocks, if_pos (E.may_of_sharedBlocks_ne (List.ne_nil_of_mem hb))] at hb
  simpa [Pool.cacheRefs] using Pool.matchChain_subset _ _ b hb

/-- Sharing changes nothing: the blocks are cached. -/
theorem Shared.room_iff {id : Nat} (h : Shared E id s s') (i : Nat) : E.Room s' i ↔ E.Room s i := by
  have hshared := h.sharedBlocks i
  have hcached : s'.pool.prefixes.map (·.2.block) = s.pool.prefixes.map (·.2.block) :=
    Pool.map_block_of_map_untick h.acquired.prefixes
  have htable : ∀ j, (s'.pool.seqs j).blockTable = (s.pool.seqs j).blockTable ++
      if j = id then E.sharedBlocks s id else [] := by
    intro j
    by_cases hj : j = id
    · subst hj
      rw [if_pos rfl, h.acquired.table]
    · rw [if_neg hj, h.acquired.others j hj, List.append_nil]
  have hholder : E.Holder s' i ↔ E.Holder s i := by
    rw [Holder, Holder, htable, hshared]
    by_cases hi : i = id
    · subst hi
      simp
      tauto
    · simp [hi]
  have hoccupied : E.occupied s' i = E.occupied s i := by
    ext b
    have hupTo : upTo s' i = upTo s i := by rw [upTo, upTo, h.running]
    rw [mem_occupied, mem_occupied, hcached, hholder, hupTo]
    constructor
    · rintro (hb | ⟨hhold, j, hj, hb⟩)
      · exact .inl hb
      · rw [htable, List.mem_append] at hb
        rcases hb with hb | hb
        · exact .inr ⟨hhold, j, hj, hb⟩
        · split at hb
          · exact .inl (sharedBlocks_subset s id hb)
          · cases hb
    · rintro (hb | ⟨hhold, j, hj, hb⟩)
      · exact .inl hb
      · exact .inr ⟨hhold, j, hj, by rw [htable]; exact List.mem_append_left _ hb⟩
  rw [Room, Room, hoccupied, h.sequences, htable, hshared]
  by_cases hi : i = id
  · subst hi
    simp [List.length_append]
  · simp [hi]

theorem takeWhile_ne_append {l₁ l₂ : List Nat} {i : Nat} (h : i ∈ l₁) :
    (l₁ ++ l₂).takeWhile (· ≠ i) = l₁.takeWhile (· ≠ i) := by
  induction l₁ with
  | nil => cases h
  | cons a l₁ ih =>
    by_cases ha : a = i
    · simp [ha]
    · have := ih (List.mem_of_ne_of_mem (Ne.symm ha) h)
      simpa [ha] using this

theorem takeWhile_ne_middle {l₁ l₂ : List Nat} {i : Nat} (h : i ∉ l₁) :
    (l₁ ++ i :: l₂).takeWhile (· ≠ i) = l₁ := by
  have hall : ∀ a ∈ l₁, decide (a ≠ i) = true := fun a ha =>
    decide_eq_true fun heq : a = i => h (heq ▸ ha)
  rw [List.takeWhile_append_of_pos hall]
  simp

theorem Preempted.sharedBlocks_of_ne {id i : Nat} (h : Preempted E id s s') (hne : i ≠ id) :
    E.sharedBlocks s' i = E.sharedBlocks s i := by
  rw [Engine.sharedBlocks, Engine.sharedBlocks, h.sequences_of_ne hne, h.freed.others i hne, h.freed.prefixes]

/-- The younger sequences of the preempted one hold nothing, so nobody else is counted differently. -/
theorem Preempted.room_iff {id i : Nat} (h : Preempted E id s s') (hs : Inv E s)
    (hsettled : ∀ j ∈ s.running, E.sharedBlocks s j = []) (hi : i ∈ s.running) (hne : i ≠ id) :
    E.Room s' i ↔ E.Room s i := by
  obtain ⟨older, younger, hrunning, hrunning', -, hyounger⟩ := h.youngest
  have hshared := h.sharedBlocks_of_ne hne
  have hholder : E.Holder s' i ↔ E.Holder s i := by
    rw [Holder, Holder, h.freed.others i hne, hshared]
  have hnot : id ∉ older := fun hmem => by
    have hnodup := hs.sane.running_nodup
    rw [hrunning, List.nodup_append] at hnodup
    exact hnodup.2.2 id hmem id List.mem_cons_self rfl
  have hoccupied : E.occupied s' i = E.occupied s i := by
    ext b
    rw [mem_occupied, mem_occupied, h.freed.prefixes, hholder]
    refine or_congr_right (and_congr_right fun hhold => ?_)
    have hold : i ∈ older := by
      rw [hrunning, List.mem_append, List.mem_cons] at hi
      rcases hi with hi | hi | hi
      · exact hi
      · exact absurd hi hne
      · rw [Holder, hyounger i hi, hsettled i (by rw [hrunning]; simp [hi])] at hhold
        simp at hhold
    have hupTo : upTo s' i = upTo s i := by
      rw [upTo, upTo, hrunning, hrunning', takeWhile_ne_append hold, takeWhile_ne_append hold]
    rw [hupTo]
    refine exists_congr fun j => and_congr_right fun hj => ?_
    have hjid : j ≠ id := by
      rw [upTo, hrunning, takeWhile_ne_append hold, List.mem_append, List.mem_singleton] at hj
      rcases hj with hj | rfl
      · exact fun heq => hnot (heq ▸ (List.takeWhile_prefix _).subset hj)
      · exact hne
    rw [h.freed.others j hjid]
  rw [Room, Room, hoccupied, h.sequences_of_ne hne, h.freed.others i hne, hshared]

theorem Inv.mem_refs {b : Nat} (hs : Inv E s) : b ∈ s.pool.refs s.nextId ↔
    b ∈ s.pool.prefixes.map (·.2.block) ∨ ∃ i ∈ s.running, b ∈ (s.pool.seqs i).blockTable := by
  rw [Pool.refs, Multiset.mem_add, or_comm]
  refine or_congr (by simp [Pool.cacheRefs]) ?_
  rw [Pool.tableRefs, Multiset.mem_sum]
  constructor
  · rintro ⟨i, hi, hb⟩
    have hlt := Finset.mem_range.mp hi
    refine ⟨i, (hs.queues.mem_running i).mpr ⟨hlt, ?_⟩, hb⟩
    by_contra hstatus
    rw [(hs.seq i hlt).idle hstatus] at hb
    simp at hb
  · rintro ⟨i, hi, hb⟩
    exact ⟨i, Finset.mem_range.mpr (hs.running_lt hi), hb⟩

theorem occupied_subset {id : Nat} (hs : Inv E s) (hid : id ∈ s.running) :
    E.occupied s id ⊆ (s.pool.refs s.nextId).toFinset := by
  intro b hb
  rw [Multiset.mem_toFinset, hs.mem_refs]
  refine (mem_occupied.mp hb).imp_right fun ⟨_, i, hi, hmem⟩ => ⟨i, ?_, hmem⟩
  rcases List.mem_append.mp hi with hi | hi
  · exact (List.takeWhile_prefix _).subset hi
  · exact List.mem_singleton.mp hi ▸ hid

/-- When nobody is left to preempt for a sequence, it has room exactly when it fits the free blocks. -/
theorem room_iff_demand {id : Nat} (hs : Inv E s) (hserves : E.Serves) (hid : id ∈ s.running)
    (hsettled : E.sharedBlocks s id = [])
    (hall : ∀ i ∈ s.running, (s.pool.seqs i).blockTable ≠ [] → E.Holder s id ∧ i ∈ upTo s id) :
    E.Room s id ↔ E.demand s id ≤ s.pool.freeBlocks := by
  have hoccupied : E.occupied s id = (s.pool.refs s.nextId).toFinset := by
    refine (occupied_subset hs hid).antisymm fun b hb => mem_occupied.mpr ?_
    refine (hs.mem_refs.mp (Multiset.mem_toFinset.mp hb)).imp_right fun ⟨i, hi, hmem⟩ => ?_
    obtain ⟨hhold, hup⟩ := hall i hi (List.ne_nil_of_mem hmem)
    exact ⟨hhold, i, hup, hmem⟩
  have hcard := hs.wf.tracked.numFree_add_card
  have hlen := (hs.seq id (hs.running_lt hid)).length_add hserves (hs.running_status hid)
  rw [Room, demand, hoccupied, hsettled, hlen, Pool.freeBlocks, List.length_nil]
  omega

theorem Preempted.not_room {id : Nat} (h : Preempted E id s s') (hs : Inv E s) (hserves : E.Serves)
    (hstuck : Stuck E s) : ¬E.Room s id := by
  obtain ⟨older, younger, hrunning, -, hholds, hyounger⟩ := h.youngest
  have hnot : id ∉ older := fun hmem => by
    have hnodup := hs.sane.running_nodup
    rw [hrunning, List.nodup_append] at hnodup
    exact hnodup.2.2 id hmem id List.mem_cons_self rfl
  rw [room_iff_demand hs hserves h.mem_running (hstuck.settled id h.mem_running), not_le]
  · exact hstuck.short id h.mem_running
  · intro i hi htable
    refine ⟨.inl hholds, ?_⟩
    rw [upTo, hrunning, takeWhile_ne_middle hnot]
    rw [hrunning, List.mem_append, List.mem_cons] at hi
    rcases hi with hi | rfl | hi
    · exact List.mem_append_left _ hi
    · exact List.mem_append_right _ (List.mem_singleton_self _)
    · exact absurd (hyounger i hi) htable

theorem Prepares.someRoom_iff (hM : E.model.Complete) (hmatch : E.model.Matches) (h : Prepares E s s')
    (hs : Inv E s) (hr : Ready E s) : E.SomeRoom s' ↔ E.SomeRoom s := by
  refine (h.invariant (I := fun t => Inv E t ∧ Ready E t ∧ (E.SomeRoom t ↔ E.SomeRoom s)) hs.sane
    ⟨hs, hr, Iff.rfl⟩ ?_ ?_).2.2
  · rintro t u id - ⟨hI, hX, hiff⟩ hid hsh
    refine ⟨hI.share hid hsh, hX.share hI hsh, ?_⟩
    rw [← hiff]
    simp only [SomeRoom, hsh.running, hsh.room_iff]
  · rintro t u id - ⟨hI, hX, hiff⟩ hstuck hp
    have hserves := hX.serves hM hmatch hI (hI.running_lt hp.mem_running)
    refine ⟨hI.preempt hp, hX.preempt hp, ?_⟩
    rw [← hiff]
    constructor
    · rintro ⟨i, hi, hroom⟩
      have hmem := hp.running_sublist.subset hi
      have hne : i ≠ id := fun heq => hp.not_mem_running hI.sane (heq ▸ hi)
      exact ⟨i, hmem, (hp.room_iff hI hstuck.settled hmem hne).mp hroom⟩
    · rintro ⟨i, hi, hroom⟩
      have hne : i ≠ id := fun heq => hp.not_room hI hserves hstuck (heq ▸ hroom)
      refine ⟨i, ?_, (hp.room_iff hI hstuck.settled hi hne).mpr hroom⟩
      obtain ⟨older, younger, hrunning, hrunning', -⟩ := hp.youngest
      rw [hrunning] at hi
      rw [hrunning']
      simpa [hne] using hi

theorem Formed.someRoom_iff {chosen : List Nat} (hM : E.model.Complete) (hmatch : E.model.Matches)
    (h : Formed E chosen s) (hs : Inv E s) (hr : Ready E s) : E.SomeRoom s ↔ chosen ≠ [] := by
  constructor
  · rintro ⟨id, hid, hroom⟩ hnil
    have hserves := hr.serves hM hmatch hs (hs.running_lt hid)
    refine absurd ((room_iff_demand hs hserves hid (h.settled id hid) ?_).mp hroom)
      (not_le.mpr (h.short hnil id hid))
    intro i hi htable
    rcases h.ended hnil with hone | hnone
    · obtain ⟨x, hx⟩ := List.length_eq_one_iff.mp (le_antisymm hone (List.length_pos_of_mem hid))
      rw [hx, List.mem_singleton] at hi hid
      subst hi hid
      exact ⟨.inl htable, List.mem_append_right _ (List.mem_singleton_self _)⟩
    · exact absurd (hnone i hi) htable
  · intro hne
    obtain ⟨id, rest, rfl⟩ := List.exists_cons_of_ne_nil hne
    have hid := h.sublist.subset List.mem_cons_self
    have hserves := hr.serves hM hmatch hs (hs.running_lt hid)
    have hlen := (hs.seq id (hs.running_lt hid)).length_add hserves (hs.running_status hid)
    have hcard := hs.wf.tracked.numFree_add_card
    have hle := Finset.card_le_card (occupied_subset hs hid)
    have hsum := h.fits hne
    have hrest : 0 ≤ (rest.map (E.demand s)).sum := by
      refine List.sum_nonneg fun z hz => ?_
      obtain ⟨i, hi, rfl⟩ := List.mem_map.mp hz
      rw [hr.demand_eq (hs.running_lt (h.sublist.subset (List.mem_cons_of_mem _ hi)))]
      exact Int.natCast_nonneg _
    refine ⟨id, hid, ?_⟩
    rw [List.map_cons, List.sum_cons, demand, hlen, Pool.freeBlocks] at hsum
    rw [Room]
    omega

end Engine

end InferenceEngine
