import InferenceEngine.Engine.Transparency

/-!
# Arrival order

`preempt_youngest` takes the last running sequence that holds blocks and puts it at the front of the waiting
ones. As long as that is the last running sequence of all, the running and then the waiting sequences stand
in arrival order. Passing over a younger sequence without blocks loses the order.
-/

namespace InferenceEngine

open Exec

namespace Engine

open EngineState

variable {W Q K G : Type} [Field K] [LinearOrder K] (E : Engine W Q K G)

/-! ### The calls of `preempt_youngest` -/

/-- A pass over several running sequences has batched none of them. -/
def Starves (s t : EngineState K G) : Prop :=
  E.assemble s.running s.pool.freeBlocks s = .ok [] t ∧ 1 < s.running.length

/-- The states in which a step from `s` calls `preempt_youngest`. -/
inductive Retries (s : EngineState K G) : EngineState K G → Prop
  | first {t : EngineState K G} : Starves E (E.admitWaiting s.waiting s) t → Retries s t
  | again {t u v : EngineState K G} :
    Retries s t → preemptYoungest t = .ok true u → Starves E u v → Retries s v

/-- Running and then waiting sequences stand in arrival order. -/
def Ordered (s : EngineState K G) : Prop := (s.running ++ s.waiting).Pairwise (· < ·)

/-- The last running sequence holds blocks if any does. -/
def LastHolds (s : EngineState K G) : Prop :=
  (∃ i ∈ s.running, (s.pool.seqs i).blockTable ≠ []) →
    ∃ older id, s.running = older ++ [id] ∧ (s.pool.seqs id).blockTable ≠ []

variable {E}

namespace Ordered

variable {s s' : EngineState K G}

omit [Field K] [LinearOrder K] in
theorem congr (h : Ordered s) (hrunning : s'.running = s.running) (hwaiting : s'.waiting = s.waiting) :
    Ordered s' := by
  unfold Ordered
  rw [hrunning, hwaiting]
  exact h

theorem enter {admitted : List Nat} (h : Ordered s) (ha : Admitted E admitted s s') : Ordered s' := by
  unfold Ordered at h ⊢
  rw [ha.waiting] at h
  rw [ha.running, List.append_assoc]
  exact h

theorem preempt {id : Nat} (h : Ordered s) (hlast : LastHolds s) (hp : Preempted E id s s') : Ordered s' := by
  obtain ⟨older, younger, hrunning, hrunning', hholds, hyounger⟩ := hp.youngest
  obtain ⟨before, last, hsplit, hlast'⟩ := hlast ⟨id, hp.mem_running, hholds⟩
  have hnil : younger = [] := by
    rcases List.eq_nil_or_concat younger with hnil | ⟨init, y, rfl⟩
    · exact hnil
    · rw [List.concat_eq_append] at hrunning hyounger
      rw [hrunning, ← List.cons_append, ← List.append_assoc] at hsplit
      have hy : y = last := by simpa using (List.append_inj' hsplit rfl).2
      exact absurd (hyounger y (by simp)) (hy ▸ hlast')
  unfold Ordered at h ⊢
  rw [hrunning, hnil, List.append_assoc] at h
  rw [hrunning', hp.waiting, hnil, List.append_nil]
  exact h

end Ordered

/-- Of running sequences in arrival order, the last that holds blocks is the youngest that does. -/
theorem Preempted.le_of_sorted {s s' : EngineState K G} {id : Nat} (hp : Preempted E id s s')
    (hsorted : s.running.Pairwise (· < ·)) :
    ∀ i ∈ s.running, (s.pool.seqs i).blockTable ≠ [] → i ≤ id := by
  obtain ⟨older, younger, hrunning, -, -, hyounger⟩ := hp.youngest
  intro i hi hholds
  rw [hrunning, List.pairwise_append] at hsorted
  rw [hrunning, List.mem_append, List.mem_cons] at hi
  obtain hi | rfl | hi := hi
  · exact (hsorted.2.2 i hi id List.mem_cons_self).le
  · exact le_rfl
  · exact absurd (hyounger i hi) hholds

/-! ### One step -/

theorem preempted_of_ok {s u : EngineState K G} (hs : Sane E s) (hok : preemptYoungest s = .ok true u) :
    ∃ id, Preempted E id s u := by
  have h := wp_ok (wp_preemptYoungest hs) hok
  rwa [if_pos rfl] at h

/-- A pass moves no sequence between the queues. -/
theorem Starves.frame {s t : EngineState K G} (hs : Sane E s) (h : Starves E s t) :
    Sane E t ∧ t.running = s.running ∧ t.waiting = s.waiting := by
  have hpass := wp_ok (wp_assemble hs.running_nodup hs (List.Subset.refl _) _) h.1
  refine ⟨hpass.prepares.sane hs, ?_, ?_⟩
  · rw [hpass.frame]
  · rw [hpass.frame]

/-- The retry loop keeps what its passes and the preemptions on the states `R` keep. -/
theorem wp_formBatch_keeps {X R : EngineState K G → Prop}
    (hpass : ∀ t u, X t → u.running = t.running → u.waiting = t.waiting → X u)
    (hpreempt : ∀ t u id, Sane E t → X t → R t → Preempted E id t u → X u)
    (hagain : ∀ t u v, R t → preemptYoungest t = .ok true u → Starves E u v → R v)
    (fuel : Nat) {s : EngineState K G} (hs : Sane E s) (hX : X s) (hR : ∀ t, Starves E s t → R t) :
    wp (E.formBatch fuel) (fun _ t => X t) (fun _ _ => True) s := by
  induction fuel generalizing s with
  | zero => exact hX
  | succ fuel ih =>
    simp only [formBatch, wp_bind, wp_get]
    rw [wp_iff]
    refine ⟨fun batch t hpassed => ?_, fun _ _ _ => trivial⟩
    have hpass' := wp_ok (wp_assemble hs.running_nodup hs (List.Subset.refl _) _) hpassed
    have hXt : X t := hpass s t hX (by rw [hpass'.frame]) (by rw [hpass'.frame])
    apply wp_ite
    · exact fun _ => hXt
    · intro hmore
      obtain ⟨hnil, hlen⟩ := not_or.mp hmore
      rw [not_not] at hnil
      subst hnil
      have hstarves : Starves E s t := ⟨hpassed, not_le.mp hlen⟩
      have ht := hpass'.prepares.sane hs
      simp only [wp_bind]
      rw [wp_iff]
      refine ⟨fun more u hu => ?_, fun _ _ _ => trivial⟩
      have hafter := wp_ok (wp_preemptYoungest ht) hu
      cases more with
      | false =>
        obtain ⟨rfl, -⟩ := hafter
        exact hXt
      | true =>
        obtain ⟨id, hp⟩ := preempted_of_ok ht hu
        have hXu := hpreempt t u id ht hXt (hR t hstarves) hp
        exact ih (hp.sane ht) hXu fun v hv => hagain t u v (hR t hstarves) hu hv

/-- A step keeps the order when none of its preemptions passes over a sequence. -/
theorem Ordered.step {s : EngineState K G} (hs : Inv E s) (h : Ordered s)
    (hlast : ∀ t, Retries E s t → LastHolds t) : Ordered (finalState E.step s) := by
  obtain ⟨admitted, ha⟩ := admitted_admitWaiting (E := E) s
  have hsane := (hs.enter ha).sane
  have hkeeps := wp_formBatch_keeps (E := E) (X := Ordered) (R := Retries E s)
    (fun _ _ hX hrunning hwaiting => hX.congr hrunning hwaiting)
    (fun t _ _ _ hX hR hp => hX.preempt (hlast t hR) hp) (fun _ _ _ hR hok hv => hR.again hok hv)
    ((E.admitWaiting s.waiting s).running.length + 1) hsane (h.enter ha) fun _ ht => .first ht
  apply wp_finalState
  simp only [Engine.step, wp_bind, wp_modify, wp_get]
  refine wp_mono (wp_and (wp_formBatch hsane (Nat.lt_succ_self _)) hkeeps) ?_ fun _ _ hf => hf.1.elim
  rintro batch t ⟨⟨chosen, hprep, hformed, rfl⟩, ht⟩
  apply wp_ite
  · exact fun _ => ht
  · intro hne
    rw [List.map_eq_nil_iff] at hne
    refine wp_mono (wp_runBatch (hprep.sane hsane) hformed.sublist hne) ?_ ?_
    · rintro _ s' ⟨logits, p, hran⟩
      have hsub : (s'.running ++ s'.waiting).Sublist (t.running ++ t.waiting) := by
        rw [hran.running, hran.waiting]
        exact List.Sublist.append_right List.filter_sublist _
      exact ht.sublist hsub
    · rintro e s' ⟨p, rfl, -⟩
      exact ht.congr rfl rfl

/-! ### Runs -/

variable (E)

/-- Requests are waiting in arrival order, and whatever the next step preempts is the youngest of the running
sequences that hold blocks. -/
structure InArrivalOrder (s : EngineState K G) : Prop where
  waiting : s.waiting.Pairwise (· < ·)
  youngest : ∀ t u, Retries E s t → preemptYoungest t = .ok true u →
    ∃ id, u.waiting = id :: t.waiting ∧ ∀ i ∈ t.running, (t.pool.seqs i).blockTable ≠ [] → i ≤ id

/-- Any request, and the steps that preempt, if at all, the last running sequence. -/
def PreemptsLast (s : EngineState K G) : Action K → Prop
  | .addRequest _ => True
  | .step => ∀ t, Retries E s t → LastHolds t

variable {E}

/-- Whatever a step does to the pool, running sequences keep their order. -/
theorem Retries.sorted {s t : EngineState K G} (hs : Sane E (E.admitWaiting s.waiting s))
    (h : Ordered (E.admitWaiting s.waiting s)) (ht : Retries E s t) :
    Sane E t ∧ t.running.Pairwise (· < ·) := by
  induction ht with
  | first hstarves =>
    obtain ⟨hsane, hrunning, -⟩ := hstarves.frame hs
    exact ⟨hsane, hrunning ▸ (List.pairwise_append.mp h).1⟩
  | again _ hok hstarves ih =>
    obtain ⟨id, hp⟩ := preempted_of_ok ih.1 hok
    obtain ⟨hsane, hrunning, -⟩ := hstarves.frame (hp.sane ih.1)
    exact ⟨hsane, hrunning ▸ ih.2.sublist hp.running_sublist⟩

theorem ordered_reachable {rng : G} {s : EngineState K G}
    (hs : (E.machine rng).Reachable E.PreemptsLast s) : Inv E s ∧ Ordered s := by
  refine ⟨inv_reachable hs, ?_⟩
  apply hs.invariant
  · exact List.Pairwise.nil
  · intro s a hs' h ha
    have hinv := inv_reachable hs'
    cases a with
    | addRequest request =>
      change Ordered (finalState (addRequest request) s)
      rw [finalState_addRequest]
      split
      · exact h
      · have hlt : ∀ i ∈ s.running ++ s.waiting, i < s.nextId := by
          intro i hi
          rcases List.mem_append.mp hi with hi | hi
          · exact hinv.running_lt hi
          · exact ((hinv.queues.mem_waiting i).mp hi).1
        change (s.running ++ (s.waiting ++ [s.nextId])).Pairwise (· < ·)
        rw [← List.append_assoc, List.pairwise_append]
        exact ⟨h, List.pairwise_singleton _ _, fun i hi j hj => List.mem_singleton.mp hj ▸ hlt i hi⟩
    | step => exact h.step hinv ha

/-- **Arrival order** lasts as long as no preemption passes over a younger sequence without blocks. -/
theorem inArrivalOrder {rng : G} {s : EngineState K G}
    (hs : (E.machine rng).Reachable E.PreemptsLast s) : InArrivalOrder E s := by
  obtain ⟨hinv, hordered⟩ := ordered_reachable hs
  refine ⟨(List.pairwise_append.mp hordered).2.1, fun t u ht hok => ?_⟩
  obtain ⟨admitted, ha⟩ := admitted_admitWaiting (E := E) s
  obtain ⟨hsane, hsorted⟩ := ht.sorted (hinv.enter ha).sane (hordered.enter ha)
  obtain ⟨id, hp⟩ := preempted_of_ok hsane hok
  exact ⟨id, hp.waiting, hp.le_of_sorted hsorted⟩

/-! ### A younger sequence passed over -/

/-- The small engine for batches of three. -/
def tinyThree : Engine Nat Unit ℚ Unit := { tiny false with maxBatch := 3 }

/-- Three requests that each fit the pool wait for it. -/
def threeWait : EngineState ℚ Unit :=
  let m := tinyThree.machine ()
  m.next (m.next (m.next m.start (.addRequest (greedyRequest [1] 9))) (.addRequest (greedyRequest [1] 9)))
    (.addRequest (greedyRequest [1] 9))

/-- Every one of them holds a block, and there is no other block. -/
def threeHold : EngineState ℚ Unit := (tinyThree.machine ()).next threeWait .step

theorem not_retries_threeWait (t : EngineState ℚ Unit) : ¬Retries tinyThree threeWait t := by
  intro ht
  induction ht with
  | first h => exact absurd (outcome_of_ok h.1) (by decide +kernel)
  | again _ _ _ ih => exact ih

/-- The pass that batches nothing is the first one; after it the last of the three is preempted. -/
theorem lastHolds_threeHold {t : EngineState ℚ Unit} (ht : Retries tinyThree threeHold t) : LastHolds t := by
  let s := tinyThree.admitWaiting threeHold.waiting threeHold
  let pass := finalState (tinyThree.assemble s.running s.pool.freeBlocks) s
  have heq : t = pass := by
    induction ht with
    | first h => exact (finalState_of_ok h.1).symm
    | again _ hok hstarves ih =>
      -- two are left, and one of them is batched
      rw [ih] at hok
      rw [← finalState_of_ok hok] at hstarves
      exact absurd (outcome_of_ok hstarves.1) (by decide +kernel)
  rw [heq]
  exact fun _ => ⟨[0, 1], 2, by decide +kernel, by decide +kernel⟩

theorem inArrivalOrder_threeHold :
    let s := (tinyThree.machine ()).next threeHold .step
    s.waiting = [2] ∧ InArrivalOrder tinyThree threeHold ∧ InArrivalOrder tinyThree s := by
  have hhold : (tinyThree.machine ()).Reachable tinyThree.PreemptsLast threeHold := by
    refine .next (.next (.next (.next .start trivial) trivial) trivial) ?_
    exact fun t ht => absurd ht (not_retries_threeWait t)
  refine ⟨by decide +kernel, inArrivalOrder hhold, inArrivalOrder (.next hhold ?_)⟩
  exact fun t ht => lastHolds_threeHold ht

/-- Sequence 1 has been passed over for sequence 0 and joins the running ones behind sequence 2. -/
def passedOver : EngineState ℚ Unit :=
  let m := tinyThree.machine ()
  let s := m.next (m.next (m.next m.start (.addRequest (greedyRequest [1, 1] 2)))
    (.addRequest (greedyRequest [1] 9))) (.addRequest (greedyRequest [1] 9))
  m.next (m.next (m.next s .step) .step) .step

theorem reachable_passedOver :
    (tinyThree.machine ()).Reachable (KnownTokens tinyThree) passedOver := by
  have hlong : ∀ s, KnownTokens tinyThree s (.addRequest (greedyRequest [1, 1] 2)) :=
    knownTokens_tiny false _ (by decide)
  have hshort : ∀ s, KnownTokens tinyThree s (.addRequest (greedyRequest [1] 9)) :=
    knownTokens_tiny false _ (by decide)
  exact .next (.next (.next (.next (.next (.next .start (hlong _)) (hshort _)) (hshort _)) trivial) trivial)
    trivial

/-- In a run of known tokens, a pass batches nothing and the sequence preempted is older than another that holds
blocks; in another run two requests wait in the wrong order. -/
theorem not_inArrivalOrder_passedOver :
    ((tinyThree.machine ()).Reachable (KnownTokens tinyThree) passedOver ∧
      ¬InArrivalOrder tinyThree passedOver) ∧
    let m := tinyThree.machine ()
    let s := m.next (m.next (m.next m.start (.addRequest (greedyRequest [1] 9)))
      (.addRequest (greedyRequest [1, 1] 9))) (.addRequest (greedyRequest [1] 9))
    (m.next (m.next (m.next s .step) .step) .step).waiting = [2, 1] := by
  refine ⟨⟨reachable_passedOver, fun h => ?_⟩, by decide +kernel⟩
  let s := tinyThree.admitWaiting passedOver.waiting passedOver
  let t := finalState (tinyThree.assemble s.running s.pool.freeBlocks) s
  have hpass : tinyThree.assemble s.running s.pool.freeBlocks s = .ok [] t := ok_of_outcome (by decide +kernel)
  have hpreempt : preemptYoungest t = .ok true (finalState preemptYoungest t) := ok_of_outcome (by decide +kernel)
  obtain ⟨id, hid, hle⟩ := h.youngest t _ (.first ⟨hpass, by decide +kernel⟩) hpreempt
  have hwaiting : (finalState preemptYoungest t).waiting = [1] := by decide +kernel
  rw [hwaiting] at hid
  have hid : id = 1 := (List.cons.inj hid).1.symm
  have := hle 2 (by decide +kernel) (by decide +kernel)
  omega

end Engine

end InferenceEngine
