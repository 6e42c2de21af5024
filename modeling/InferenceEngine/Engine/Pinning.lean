import InferenceEngine.Engine.Room

/-!
# Unbatched sequences

A sequence takes over the cached blocks of its prefix before its turn comes to be measured against the budget.
Whether a step leaves it with blocks and without a batch can be worked out from the state before the step: which
waiting requests enter, which holders of blocks are then preempted, and who of the rest fits in turn.
-/

namespace InferenceEngine

open Exec

namespace Engine

open EngineState

variable {W Q K G : Type} [Field K] [LinearOrder K] (E : Engine W Q K G)

/-- The waiting requests the next step admits. -/
def entering (s : EngineState K G) : List Nat :=
  (s.waiting.take (E.maxBatch - s.running.length).toNat).takeWhile fun id =>
    s.pool.canAppend E.config id (if (s.sequences id).prefilled then 1
      else (s.sequences id).request.prompt.length + (s.sequences id).output.length)

/-- The sequences the next step has to choose from. -/
def contenders (s : EngineState K G) : List Nat := s.running ++ E.entering s

/-- The contenders without the holders of blocks after the first `k`. -/
def remaining (s : EngineState K G) (k : Nat) : List Nat :=
  (E.contenders s).take k ++ ((E.contenders s).drop k).filter fun id => ¬E.Holder s id

/-- The blocks that are neither cached nor held by one of the sequences `ids`. -/
def spareBlocks (s : EngineState K G) (ids : List Nat) : Int :=
  E.config.numBlocks - (s.pool.prefixes.map (·.2.block) ++
    ids.flatMap fun id => (s.pool.seqs id).blockTable).toFinset.card

/-- The blocks a sequence lacks once it has shared its prefix. -/
def lack (s : EngineState K G) (id : Nat) : Int :=
  let shared := (E.sharedBlocks s id).length
  let blocks := s.pool.seqs id
  let length := blocks.length + shared * E.config.blockSize
  E.config.blocksFor (length + ((s.sequences id).stepTokens { blocks with length }).length) -
    (blocks.blockTable.length + shared : Nat)

/-- One sequence is left, or one fits the blocks nobody holds. -/
def Suffices (s : EngineState K G) (ids : List Nat) : Prop :=
  ids.length ≤ 1 ∨ ∃ id ∈ ids, E.lack s id ≤ E.spareBlocks s ids

instance (s : EngineState K G) (ids : List Nat) : Decidable (E.Suffices s ids) := by
  unfold Suffices
  infer_instance

/-- The sequences that stay when the latest holders of blocks give them back until that suffices. -/
def kept (s : EngineState K G) : List Nat :=
  E.remaining s (Nat.findGreatest (fun k => E.Suffices s (E.remaining s k)) (E.contenders s).length)

/-- Those of the sequences that fit what the ones before them leave of the budget. -/
def fitting (s : EngineState K G) : List Nat → Int → List Nat
  | [], _ => []
  | id :: ids, budget =>
    if budget < E.lack s id then fitting s ids budget else id :: fitting s ids (budget - E.lack s id)

/-- Whoever stays, is not prefilled and has or shares blocks fits in turn. -/
def HoldersFit (s : EngineState K G) : Prop :=
  ∀ id ∈ E.kept s, (s.sequences id).prefilled = false → E.Holder s id →
    id ∈ E.fitting s (E.kept s) (E.spareBlocks s (E.kept s))

instance (s : EngineState K G) : Decidable (E.HoldersFit s) := by
  unfold HoldersFit
  infer_instance

variable {E}

/-! ### Admission -/

namespace Admitted

variable {admitted : List Nat} {s s' : EngineState K G}

theorem eq_entering (h : Admitted E admitted s s') : admitted = E.entering s := by
  have hroom : admitted.length ≤ (E.maxBatch - s.running.length).toNat := by
    by_cases hnil : admitted = []
    · simp [hnil]
    · have hle := h.room hnil
      rw [h.running, List.length_append, Nat.cast_add] at hle
      omega
  have hrest : ((s'.waiting.take ((E.maxBatch - s.running.length).toNat - admitted.length)).takeWhile fun id =>
      s.pool.canAppend E.config id (if (s.sequences id).prefilled then 1
        else (s.sequences id).request.prompt.length + (s.sequences id).output.length)) = [] := by
    cases hwaiting : s'.waiting with
    | nil => simp
    | cons id rest =>
      rcases h.stopped id rest hwaiting with hfull | hcan
      · rw [h.running, List.length_append, Nat.cast_add] at hfull
        have hzero : (E.maxBatch - s.running.length).toNat - admitted.length = 0 := by omega
        rw [hzero, List.take_zero, List.takeWhile_nil]
      · cases (E.maxBatch - s.running.length).toNat - admitted.length with
        | zero => simp
        | succ n => simp [hcan]
  rw [entering, h.waiting, List.take_append, List.take_of_length_le hroom,
    List.takeWhile_append_of_pos h.fits, hrest, List.append_nil]

theorem running_eq (h : Admitted E admitted s s') : s'.running = E.contenders s := by
  rw [h.running, h.eq_entering, contenders]

theorem prefilled_eq (h : Admitted E admitted s s') (i : Nat) :
    (s'.sequences i).prefilled = (s.sequences i).prefilled := by
  rw [h.sequences]
  split <;> rfl

theorem sharedBlocks_eq (h : Admitted E admitted s s') (i : Nat) : E.sharedBlocks s' i = E.sharedBlocks s i := by
  rw [sharedBlocks, sharedBlocks, h.pool, h.sequences]
  split <;> rfl

theorem lack_eq (h : Admitted E admitted s s') (i : Nat) : E.lack s' i = E.lack s i := by
  rw [lack, lack, h.sharedBlocks_eq, h.pool, h.sequences]
  split <;> rfl

end Admitted

/-! ### One pass -/

theorem fitting_congr {s t : EngineState K G} {ids : List Nat} (h : ∀ i ∈ ids, E.lack t i = E.lack s i)
    (budget : Int) : E.fitting t ids budget = E.fitting s ids budget := by
  induction ids generalizing budget with
  | nil => rfl
  | cons id ids ih =>
    have hrest := ih fun i hi => h i (List.mem_cons_of_mem _ hi)
    rw [fitting, fitting, h id List.mem_cons_self, hrest, hrest]

theorem fitting_eq_nil {s : EngineState K G} {ids : List Nat} {budget : Int}
    (h : ∀ id ∈ ids, budget < E.lack s id) : E.fitting s ids budget = [] := by
  induction ids with
  | nil => rfl
  | cons id ids ih =>
    rw [fitting, if_pos (h id List.mem_cons_self)]
    exact ih fun i hi => h i (List.mem_cons_of_mem _ hi)

theorem lack_of_settled {s : EngineState K G} {id : Nat} (h : E.sharedBlocks s id = []) :
    E.lack s id = E.demand s id := by
  simp only [lack, demand, h, List.length_nil, zero_mul, add_zero]

theorem Shared.lack_eq {s s' : EngineState K G} {id : Nat} (h : Shared E id s s') (i : Nat) :
    E.lack s' i = E.lack s i := by
  by_cases hi : i = id
  · subst hi
    have htokens : (s.sequences i).stepTokens (s'.pool.seqs i) = (s.sequences i).stepTokens
        { s.pool.seqs i with
          length := (s.pool.seqs i).length + (E.sharedBlocks s i).length * E.config.blockSize } := by
      rw [EngineSequence.stepTokens, EngineSequence.stepTokens, h.length]
    rw [lack_of_settled (by rw [h.sharedBlocks, if_pos rfl]), demand, lack, h.sequences, htokens,
      h.length, h.acquired.table, List.length_append]
  · rw [lack, lack, h.sharedBlocks, if_neg hi, h.sequences, h.acquired.others i hi]

theorem wp_assemble_fitting {ids : List Nat} (hnodup : ids.Nodup) {s : EngineState K G} (hs : Sane E s)
    (hsub : ids ⊆ s.running) (budget : Int) :
    wp (E.assemble ids budget)
      (fun batch s' => batch.map Batched.id = E.fitting s ids budget ∧ ∀ i, E.lack s' i = E.lack s i)
      (fun _ _ => False) s := by
  induction ids generalizing s budget with
  | nil => exact ⟨rfl, fun _ => rfl⟩
  | cons id ids ih =>
    rw [List.nodup_cons] at hnodup
    simp only [assemble, wp_bind, wp_get]
    apply wp_mono (wp_sharePrefix (hs.running_lt id (hsub List.mem_cons_self)) hs.wf) ?_ fun _ _ hf => hf
    intro _ t ht
    have hsub' : ids ⊆ t.running := by
      rw [ht.running]
      exact fun i hi => hsub (List.mem_cons_of_mem _ hi)
    have hrest : ∀ budget', wp (E.assemble ids budget')
        (fun batch s' => batch.map Batched.id = E.fitting s ids budget' ∧ ∀ i, E.lack s' i = E.lack s i)
        (fun _ _ => False) t := by
      intro budget'
      apply wp_mono (ih hnodup.2 (ht.sane hs) hsub' budget') ?_ fun _ _ hf => hf
      intro batch s' h
      exact ⟨h.1.trans (fitting_congr (fun i _ => ht.lack_eq i) budget'), fun i => (h.2 i).trans (ht.lack_eq i)⟩
    have hlack : E.lack s id = E.demand t id := by
      rw [← ht.lack_eq, lack_of_settled (by rw [ht.sharedBlocks, if_pos rfl])]
    rw [fitting, hlack]
    apply wp_ite
    · intro hlt
      change budget < E.demand t id at hlt
      rw [if_pos hlt]
      exact hrest budget
    · intro hge
      change ¬budget < E.demand t id at hge
      rw [if_neg hge]
      simp only [wp_bind]
      apply wp_mono (hrest _) ?_ fun _ _ hf => hf
      intro batch s' h
      exact ⟨congrArg (id :: ·) h.1, h.2⟩

/-- The batch the retry loop ends with is what fits the free blocks there. -/
theorem wp_formBatch_fitting {s : EngineState K G} (hs : Sane E s) {fuel : Nat} (hfuel : s.running.length < fuel) :
    wp (E.formBatch fuel)
      (fun batch s' => batch.map Batched.id = E.fitting s' s'.running s'.pool.freeBlocks)
      (fun _ _ => False) s := by
  induction fuel generalizing s with
  | zero => exact absurd hfuel (Nat.not_lt_zero _)
  | succ fuel ih =>
    simp only [formBatch, wp_bind, wp_get]
    have hpass := wp_and (wp_assemble hs.running_nodup hs (List.Subset.refl _) s.pool.freeBlocks)
      (wp_assemble_fitting hs.running_nodup hs (List.Subset.refl _) s.pool.freeBlocks)
    apply wp_mono hpass ?_ fun _ _ hf => hf.1.elim
    intro batch t hout
    obtain ⟨hassembled, hids, hlack⟩ := hout
    have ht := hassembled.prepares.sane hs
    have hrunning : t.running = s.running := by rw [hassembled.frame]
    have hfree : t.pool.freeBlocks = s.pool.freeBlocks := by
      rw [Pool.freeBlocks, Pool.freeBlocks, BlockAllocator.numFree, BlockAllocator.numFree, hassembled.freeList]
    have hfitting : batch.map Batched.id = E.fitting t t.running t.pool.freeBlocks := by
      rw [hids, hrunning, hfree, fitting_congr fun i _ => hlack i]
    apply wp_ite
    · exact fun _ => hfitting
    · intro _
      simp only [wp_bind]
      apply wp_mono (wp_preemptYoungest ht) ?_ fun _ _ hf => hf
      intro more u hu
      cases more with
      | false =>
        obtain ⟨rfl, -⟩ := hu
        exact hfitting
      | true =>
        obtain ⟨id, hp⟩ := hu
        have hshorter := hp.length_running
        rw [hrunning] at hshorter
        exact ih (hp.sane ht) (by omega)

/-! ### The retry loop -/

theorem remaining_length (s : EngineState K G) : E.remaining s (E.contenders s).length = E.contenders s := by
  rw [remaining, List.take_length, List.drop_length, List.filter_nil, List.append_nil]

theorem mem_remaining {s : EngineState K G} {k i : Nat} : i ∈ E.remaining s k ↔
    i ∈ (E.contenders s).take k ∨ i ∈ (E.contenders s).drop k ∧ ¬E.Holder s i := by
  simp [remaining]

theorem remaining_subset {s : EngineState K G} {j k : Nat} (h : j ≤ k) : E.remaining s j ⊆ E.remaining s k := by
  intro i hi
  rw [mem_remaining] at hi ⊢
  rcases hi with hi | ⟨hi, hbare⟩
  · exact .inl ((List.take_prefix_take_left h).subset hi)
  · have hmem := List.mem_of_mem_drop hi
    rw [← List.take_append_drop k (E.contenders s), List.mem_append] at hmem
    exact hmem.imp_right fun hdrop => ⟨hdrop, hbare⟩

/-- Once a holder has given its blocks back, the bare ones after it are the only ones it leaves behind. -/
theorem remaining_of_split {s : EngineState K G} {older younger rest : List Nat} {id j : Nat}
    (h : E.contenders s = older ++ id :: younger ++ rest) (hyounger : ∀ i ∈ younger, ¬E.Holder s i)
    (hj : j ≤ younger.length) : E.remaining s (older.length + 1 + j) =
      older ++ id :: younger ++ rest.filter fun i => ¬E.Holder s i := by
  have hfilter : (younger.drop j).filter (fun i => ¬E.Holder s i) = younger.drop j :=
    List.filter_eq_self.mpr fun i hi => decide_eq_true (hyounger i (List.mem_of_mem_drop hi))
  have hjoin : ∀ l, younger.take j ++ (younger.drop j ++ l) = younger ++ l := fun l => by
    rw [← List.append_assoc, List.take_append_drop]
  have hsplit : E.contenders s = (older ++ id :: younger.take j) ++ (younger.drop j ++ rest) := by
    simp only [h, List.append_assoc, List.cons_append, hjoin]
  have hlength : older.length + 1 + j = (older ++ id :: younger.take j).length := by
    simp only [List.length_append, List.length_cons, List.length_take]
    omega
  rw [remaining, hsplit, hlength, List.take_left, List.drop_left, List.filter_append, hfilter]
  simp only [List.append_assoc, List.cons_append, hjoin]

variable (E) in
/-- The loop has come to the first `k` contenders: the holders after them have given their blocks back, as
nobody fitted before. -/
structure Reached (s : EngineState K G) (k : Nat) (u : EngineState K G) : Prop where
  le : k ≤ (E.contenders s).length
  running : u.running = E.remaining s k
  prefilled : ∀ i ∈ u.running, (u.sequences i).prefilled = (s.sequences i).prefilled
  lack : ∀ i ∈ u.running, E.lack u i = E.lack s i
  blocks : ∀ i ∈ u.running, (u.pool.seqs i).blockTable ++ E.sharedBlocks u i =
    (s.pool.seqs i).blockTable ++ E.sharedBlocks s i
  cached : u.pool.prefixes.map (·.2.block) = s.pool.prefixes.map (·.2.block)
  short : ∀ j, k < j → j ≤ (E.contenders s).length → ¬E.Suffices s (E.remaining s j)

theorem Admitted.reached {admitted : List Nat} {s s' : EngineState K G} (h : Admitted E admitted s s') :
    Reached E s (E.contenders s).length s' where
  le := le_rfl
  running := by rw [h.running_eq, remaining_length]
  prefilled i _ := h.prefilled_eq i
  lack i _ := h.lack_eq i
  blocks i _ := by rw [h.pool, h.sharedBlocks_eq]
  cached := by rw [h.pool]
  short j hlt hle := absurd hlt (not_lt.mpr hle)

namespace Reached

variable {s u v : EngineState K G} {k : Nat}

theorem holder_iff (h : Reached E s k u) {i : Nat} (hi : i ∈ u.running) : E.Holder s i ↔ E.Holder u i := by
  have hnil : (u.pool.seqs i).blockTable = [] ∧ E.sharedBlocks u i = [] ↔
      (s.pool.seqs i).blockTable = [] ∧ E.sharedBlocks s i = [] := by
    rw [← List.append_eq_nil_iff, h.blocks i hi, List.append_eq_nil_iff]
  rw [Holder, Holder, ← not_and_or, ← not_and_or, hnil]

/-- What a sequence has shared since is cached. -/
theorem mem_table (h : Reached E s k u) {i b : Nat} (hi : i ∈ u.running)
    (hb : b ∉ u.pool.prefixes.map (·.2.block)) :
    b ∈ (s.pool.seqs i).blockTable ↔ b ∈ (u.pool.seqs i).blockTable := by
  have hs : b ∉ E.sharedBlocks s i := fun hmem => hb (by rw [h.cached]; exact sharedBlocks_subset s i hmem)
  have hu : b ∉ E.sharedBlocks u i := fun hmem => hb (sharedBlocks_subset u i hmem)
  have hmem : b ∈ (u.pool.seqs i).blockTable ++ E.sharedBlocks u i ↔
      b ∈ (s.pool.seqs i).blockTable ++ E.sharedBlocks s i := by rw [h.blocks i hi]
  rw [List.mem_append, List.mem_append, or_iff_left hu, or_iff_left hs] at hmem
  exact hmem.symm

theorem spareBlocks_eq (h : Reached E s k u) (hu : Inv E u) :
    E.spareBlocks s (E.remaining s k) = u.pool.freeBlocks := by
  have hrefs : (s.pool.prefixes.map (·.2.block) ++
      (E.remaining s k).flatMap fun id => (s.pool.seqs id).blockTable).toFinset =
      (u.pool.refs u.nextId).toFinset := by
    ext b
    rw [List.mem_toFinset, Multiset.mem_toFinset, hu.mem_refs, List.mem_append, ← h.cached, List.mem_flatMap,
      ← h.running]
    by_cases hb : b ∈ u.pool.prefixes.map (·.2.block)
    · rw [or_iff_left_of_imp fun _ => hb, or_iff_left_of_imp fun _ => hb]
    · rw [or_iff_right hb, or_iff_right hb]
      exact exists_congr fun i => and_congr_right fun hi => h.mem_table hi hb
  have hcard := hu.wf.tracked.numFree_add_card
  rw [spareBlocks, hrefs, Pool.freeBlocks]
  omega

theorem share {id : Nat} (h : Reached E s k u) (hsh : Shared E id u v) : Reached E s k v := by
  have hrunning := hsh.running
  refine ⟨h.le, hrunning.trans h.running, ?_, ?_, ?_, ?_, h.short⟩
  · intro i hi
    rw [hsh.sequences]
    exact h.prefilled i (hrunning ▸ hi)
  · intro i hi
    rw [hsh.lack_eq]
    exact h.lack i (hrunning ▸ hi)
  · intro i hi
    rw [← h.blocks i (hrunning ▸ hi), hsh.sharedBlocks]
    by_cases hii : i = id
    · subst hii
      rw [if_pos rfl, hsh.acquired.table, List.append_nil]
    · rw [if_neg hii, hsh.acquired.others i hii]
  · rw [← h.cached]
    exact Pool.map_block_of_map_untick hsh.acquired.prefixes

theorem not_suffices (h : Reached E s k u) (hu : Inv E u) (hstuck : Stuck E u) :
    ¬E.Suffices s (E.remaining s k) := by
  rw [← h.running]
  rintro (hone | ⟨i, hi, hfits⟩)
  · exact absurd hstuck.many (not_lt.mpr hone)
  · rw [h.running, h.spareBlocks_eq hu, ← h.lack i hi, lack_of_settled (hstuck.settled i hi)] at hfits
    exact absurd hfits (not_le.mpr (hstuck.short i hi))

/-- The preempted holder is among the first `k`, and everybody after it there is bare. -/
theorem split {id : Nat} (h : Reached E s k u) (hu : Inv E u) (hstuck : Stuck E u) (hp : Preempted E id u v) :
    ∃ older between, E.contenders s = older ++ id :: between ++ (E.contenders s).drop k ∧
      k = older.length + 1 + between.length ∧ E.Holder s id ∧ (∀ i ∈ between, ¬E.Holder s i) ∧
      v.running = older ++ (between ++ ((E.contenders s).drop k).filter fun i => ¬E.Holder s i) := by
  obtain ⟨older, younger, hsplit, hleft, hholds, hyounger⟩ := hp.youngest
  have hholder : E.Holder s id := (h.holder_iff hp.mem_running).mpr (.inl hholds)
  have htake : id ∈ (E.contenders s).take k := by
    have hmem := hp.mem_running
    rw [h.running, mem_remaining] at hmem
    exact hmem.resolve_right fun hdrop => hdrop.2 hholder
  obtain ⟨before, between, htake⟩ := List.append_of_mem htake
  have hrunning : u.running =
      before ++ id :: (between ++ ((E.contenders s).drop k).filter fun i => ¬E.Holder s i) := by
    rw [h.running, remaining, htake, List.append_assoc, List.cons_append]
  have hnot : id ∉ older ++ younger := (List.nodup_middle.mp (hsplit ▸ hu.sane.running_nodup)).notMem
  rw [List.mem_append, not_or] at hnot
  obtain ⟨rfl, -, rfl⟩ :=
    (List.append_cons_inj_of_notMem hnot.1 hnot.2).mp (hsplit.symm.trans hrunning)
  refine ⟨older, between, ?_, ?_, hholder, fun i hi => ?_, hleft⟩
  · rw [← htake, List.take_append_drop]
  · have hlength := congrArg List.length htake
    rw [List.length_take_of_le h.le, List.length_append, List.length_cons] at hlength
    omega
  · have hmem : i ∈ u.running := by simp [hsplit, hi]
    rw [h.holder_iff hmem, Holder, hyounger i (List.mem_append_left _ hi), hstuck.settled i hmem]
    simp

theorem preempt {id : Nat} (h : Reached E s k u) (hu : Inv E u) (hstuck : Stuck E u) (hp : Preempted E id u v) :
    ∃ j, Reached E s j v := by
  obtain ⟨older, between, hcontenders, hk, hholder, hbare, hleft⟩ := h.split hu hstuck hp
  have hne : ∀ i ∈ v.running, i ≠ id := fun i hi heq => hp.not_mem_running hu.sane (heq ▸ hi)
  have hmem : ∀ i ∈ v.running, i ∈ u.running := hp.running_sublist.subset
  refine ⟨older.length, ?_, ?_, ?_, ?_, ?_, hp.freed.prefixes ▸ h.cached, ?_⟩
  · exact le_trans (by omega) h.le
  · have hfilter : between.filter (fun i => ¬E.Holder s i) = between :=
      List.filter_eq_self.mpr fun i hi => decide_eq_true (hbare i hi)
    have hdrop : (id :: between ++ (E.contenders s).drop k).filter (fun i => ¬E.Holder s i) =
        between ++ ((E.contenders s).drop k).filter fun i => ¬E.Holder s i := by
      rw [List.cons_append, List.filter_cons_of_neg (by simp [hholder]), List.filter_append, hfilter]
    rw [hleft, remaining]
    conv_rhs => rw [hcontenders, List.append_assoc, List.take_left, List.drop_left]
    rw [hdrop]
  · intro i hi
    rw [hp.sequences_of_ne (hne i hi)]
    exact h.prefilled i (hmem i hi)
  · intro i hi
    rw [← h.lack i (hmem i hi), Engine.lack, Engine.lack, hp.sharedBlocks_of_ne (hne i hi),
      hp.sequences_of_ne (hne i hi), hp.freed.others i (hne i hi)]
  · intro i hi
    rw [← h.blocks i (hmem i hi), hp.sharedBlocks_of_ne (hne i hi), hp.freed.others i (hne i hi)]
  · intro j hlt hle
    by_cases habove : k < j
    · exact h.short j habove hle
    · -- the same sequences remain all the way down to the preempted one
      obtain ⟨i, rfl⟩ := Nat.exists_eq_add_of_le hlt
      have hsame := (remaining_of_split (j := i) hcontenders hbare (by omega)).trans
        (remaining_of_split hcontenders hbare le_rfl).symm
      rw [← hk] at hsame
      exact hsame ▸ h.not_suffices hu hstuck

end Reached

theorem Prepares.reached {s t u : EngineState K G} (h : Prepares E t u) (ht : Inv E t) {k : Nat}
    (hk : Reached E s k t) : Inv E u ∧ ∃ j, Reached E s j u := by
  refine h.invariant (I := fun u => Inv E u ∧ ∃ j, Reached E s j u) ht.sane ⟨ht, k, hk⟩ ?_ ?_
  · rintro t u id - ⟨hI, j, hj⟩ hid hsh
    exact ⟨hI.share hid hsh, j, hj.share hsh⟩
  · rintro t u id - ⟨hI, j, hj⟩ hstuck hp
    exact ⟨hI.preempt hp, hj.preempt hI hstuck hp⟩

/-- Either the loop stops where the holders that gave their blocks back suffice, or nobody left has any. -/
theorem Reached.holdersFit_iff {s u : EngineState K G} {k : Nat} {chosen : List Nat} (h : Reached E s k u)
    (hu : Inv E u) (hformed : Formed E chosen u) (hchosen : chosen = E.fitting u u.running u.pool.freeBlocks) :
    E.HoldersFit s ↔
      ∀ id ∈ u.running, (u.sequences id).prefilled = false → id ∉ chosen → (u.pool.seqs id).blockTable = [] := by
  have hbare : ∀ id ∈ u.running, ((u.pool.seqs id).blockTable = [] ↔ ¬E.Holder s id) := by
    intro id hid
    rw [h.holder_iff hid, Holder, hformed.settled id hid]
    simp
  have hfitting : chosen = E.fitting s (E.remaining s k) (E.spareBlocks s (E.remaining s k)) := by
    rw [hchosen, h.spareBlocks_eq hu, fitting_congr h.lack, h.running]
  by_cases hsuffices : E.Suffices s (E.remaining s k)
  · have hkept : E.kept s = E.remaining s k := by
      rw [kept, Nat.findGreatest_eq_iff.mpr ⟨h.le, fun _ => hsuffices, fun j hj => h.short j hj⟩]
    rw [HoldersFit, hkept, ← hfitting, ← h.running]
    refine forall₂_congr fun id hid => ?_
    rw [h.prefilled id hid, hbare id hid, not_imp_not]
  · rw [Suffices, not_or, not_le] at hsuffices
    have hnil : chosen = [] := by
      rw [hfitting]
      exact fitting_eq_nil fun id hid => not_le.mp fun hle => hsuffices.2 ⟨id, hid, hle⟩
    have htables : ∀ id ∈ u.running, (u.pool.seqs id).blockTable = [] := by
      refine (hformed.ended hnil).resolve_left ?_
      rw [h.running]
      exact not_le.mpr hsuffices.1
    have hle : Nat.findGreatest (fun k => E.Suffices s (E.remaining s k)) (E.contenders s).length ≤ k := by
      by_contra hlt
      rw [not_le] at hlt
      exact h.short _ hlt (Nat.findGreatest_le _)
        (Nat.findGreatest_of_ne_zero rfl (Nat.ne_zero_of_lt hlt))
    refine iff_of_true (fun id hid _ hholder => absurd hholder ?_) fun id hid _ _ => htables id hid
    have hmem : id ∈ u.running := h.running ▸ remaining_subset hle hid
    exact (hbare id hmem).mp (htables id hmem)

/-! ### The end of a step -/

/-- Running sequences that are not prefilled hold no blocks. -/
def Unpinned (s : EngineState K G) : Prop :=
  ∀ id ∈ s.running, (s.sequences id).prefilled = false → (s.pool.seqs id).blockTable = []

/-- The forward pass and the samples leave the sequences outside the batch alone. -/
theorem Ran.unpinned_iff_bare {s s' : EngineState K G} {chosen : List Nat} {logits : Rows K} {p : Pool K}
    (h : Ran E chosen logits p s s') (hs : Sane E s) (hsub : chosen.Sublist s.running) :
    Unpinned s' ↔ ∀ id ∈ s.running, (s.sequences id).prefilled = false → id ∉ chosen →
      (s.pool.seqs id).blockTable = [] := by
  obtain ⟨-, hfed, -⟩ := wp_ok (wp_forwardChosen hs hsub) h.forward
  have hothers : ∀ id, id ∉ chosen →
      s'.sequences id = s.sequences id ∧ s'.pool.seqs id = s.pool.seqs id := by
    intro id hid
    obtain ⟨hsame, hpool⟩ := h.others hid
    exact ⟨hsame, hpool.trans (hfed.others id (by rwa [map_fst_feeds]))⟩
  constructor
  · intro hunpinned id hid hpre hnot
    obtain ⟨hsame, hpool⟩ := hothers id hnot
    have hrunning : id ∈ s'.running := by
      rw [h.running, List.mem_filter]
      exact ⟨hid, by simp [hsame, hs.status id hid]⟩
    rw [← hpool]
    exact hunpinned id hrunning (hsame ▸ hpre)
  · intro hbare id hid hpre
    rw [h.running, List.mem_filter] at hid
    by_cases hmem : id ∈ chosen
    · obtain ⟨k, hk⟩ := List.getElem?_of_mem hmem
      obtain ⟨token, hsampled⟩ := h.sampled hk
      rw [hsampled.seq_eq] at hpre
      cases hpre
    · obtain ⟨hsame, hpool⟩ := hothers id hmem
      rw [hpool]
      exact hbare id hid.1 (hsame ▸ hpre) hmem

theorem wp_step_unpinned {s : EngineState K G} (hs : Inv E s) :
    wp E.step (fun _ s' => Unpinned s' ↔ E.HoldersFit s) (fun _ _ => True) s := by
  obtain ⟨admitted, ha⟩ := admitted_admitWaiting (E := E) s
  have hadmitted := hs.enter ha
  simp only [step, wp_bind, wp_modify, wp_get]
  have hloop := wp_and (wp_formBatch hadmitted.sane (Nat.lt_succ_self _))
    (wp_formBatch_fitting hadmitted.sane (Nat.lt_succ_self _))
  apply wp_mono hloop ?_ fun _ _ hf => hf.1.elim
  intro batch u hout
  obtain ⟨⟨chosen, hprepares, hformed, rfl⟩, hids⟩ := hout
  have hchosen : chosen = E.fitting u u.running u.pool.freeBlocks := by
    rw [← hids, List.map_map]
    exact (List.map_id chosen).symm
  obtain ⟨hu, k, hreached⟩ := hprepares.reached hadmitted ha.reached
  rw [hreached.holdersFit_iff hu hformed hchosen]
  apply wp_ite
  · intro hnil
    rw [List.map_eq_nil_iff] at hnil
    subst hnil
    exact forall₂_congr fun id _ => by simp
  · intro hne
    rw [List.map_eq_nil_iff] at hne
    apply wp_mono (wp_runBatch hu.sane hformed.sublist hne) ?_ fun _ _ _ => trivial
    intro _ s' hout
    obtain ⟨logits, p, hran⟩ := hout
    exact hran.unpinned_iff_bare hu.sane hformed.sublist

/-- **No cached block stays pinned** by the sequences a step leaves out, exactly when all who stay with blocks
and are not prefilled fit in turn. -/
theorem unpinned_iff {rng : G} {s : EngineState K G} (hs : (E.machine rng).Reachable (fun _ _ => True) s)
    (hreturns : returns E.step s = true) : Unpinned (finalState E.step s) ↔ E.HoldersFit s := by
  have h := wp_step_unpinned (inv_reachable hs)
  unfold wp at h
  unfold returns at hreturns
  unfold finalState
  cases hrun : E.step s with
  | ok a s' => simpa [hrun] using h
  | error e s' => simp [hrun] at hreturns

/-! ### A sequence left out with a block -/

/-- The small engine with five blocks, for batches of three. -/
def tinyFive : Engine Nat Unit ℚ Unit where
  model := Model.tiny
  sampler := tinySampler
  config := ⟨⟨1, 1, 1, 5, Nat.one_pos, Nat.one_pos, Nat.one_pos⟩, by decide⟩
  maxBatch := 3
  prefixCache := true
  numLayers_eq := rfl
  kvDim_eq := rfl

/-- The second of the requests added before the step leaves too few blocks for the third. -/
def crowded (prompt : List Int) : EngineState ℚ Unit :=
  let m := tinyFive.machine ()
  m.next (m.next (m.next (m.next m.start (.addRequest (greedyRequest [1] 2))) .step)
    (.addRequest (greedyRequest [2, 2, 2] 9))) (.addRequest (greedyRequest prompt 9))

theorem crowded_reachable (prompt : List Int) :
    (tinyFive.machine ()).Reachable (fun _ _ => True) (crowded prompt) :=
  .next (.next (.next (.next .start trivial) trivial) trivial) trivial

-- the third request is left out either way, but only `[1, 2, 2]` shares a block
theorem unpinned_crowded :
    (Unpinned (finalState tinyFive.step (crowded [1, 2, 2])) ↔ tinyFive.HoldersFit (crowded [1, 2, 2])) ∧
      Unpinned (finalState tinyFive.step (crowded [0, 2, 2])) ∧
      2 ∈ (finalState tinyFive.step (crowded [0, 2, 2])).running ∧
      ((finalState tinyFive.step (crowded [0, 2, 2])).sequences 2).prefilled = false :=
  ⟨unpinned_iff (crowded_reachable _) (by decide +kernel),
    (unpinned_iff (crowded_reachable _) (by decide +kernel)).mpr (by decide +kernel),
    by decide +kernel, by decide +kernel⟩

theorem not_unpinned_crowded :
    (tinyFive.machine ()).Reachable (fun _ _ => True) (crowded [1, 2, 2]) ∧
      returns tinyFive.step (crowded [1, 2, 2]) = true ∧
      ¬Unpinned (finalState tinyFive.step (crowded [1, 2, 2])) := by
  refine ⟨crowded_reachable _, by decide +kernel, fun h => ?_⟩
  have htable := h 2 (by decide +kernel) (by decide +kernel)
  revert htable
  decide +kernel

end Engine

end InferenceEngine
