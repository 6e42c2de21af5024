import InferenceEngine.Engine.Room
import Mathlib.Algebra.Order.BigOperators.Group.Finset

/-!
# Progress

A step appends a token exactly when, after admission, some running sequence has room. Without the prefix
cache that is always so while there is work, and the engine drains. With it, blocks that only the cache
holds count against admission and the batch budget, although a reservation would evict them: the engine
can starve.
-/

namespace InferenceEngine

open Exec

def Request.limit {K : Type} (request : Request K) : Nat := (max 1 request.maxTokens).toNat

namespace EngineSequence

variable {K : Type}

def left (seq : EngineSequence K) : Nat :=
  if seq.status = .finished then 0 else seq.request.limit - seq.output.length

end EngineSequence

namespace EngineState

variable {K G : Type}

/-- The tokens all unfinished requests may still get. -/
def work (s : EngineState K G) : Nat := ∑ id ∈ Finset.range s.nextId, (s.sequences id).left

/-- Some request has got a token. -/
def Appended (s s' : EngineState K G) : Prop :=
  ∃ id < s.nextId, ∃ token, (s'.sequences id).output = (s.sequences id).output ++ [token]

/-- No request has got all its tokens before it is finished. -/
def Short (s : EngineState K G) : Prop :=
  ∀ id < s.nextId, (s.sequences id).status ≠ .finished →
    (s.sequences id).output.length < (s.sequences id).request.limit

theorem Appended.ne {s s' : EngineState K G} (h : Appended s s') : s' ≠ s := by
  rintro rfl
  obtain ⟨id, -, token, happ⟩ := h
  simp at happ

theorem hasWork_iff {s : EngineState K G} : s.hasWork = true ↔ s.waiting ≠ [] ∨ s.running ≠ [] := by
  simp [hasWork]

/-- No token was sampled, and the same requests are finished. -/
structure Unsampled (s s' : EngineState K G) : Prop where
  nextId : s'.nextId = s.nextId
  request : ∀ i, (s'.sequences i).request = (s.sequences i).request
  output : ∀ i, (s'.sequences i).output = (s.sequences i).output
  finished : ∀ i, (s'.sequences i).status = .finished ↔ (s.sequences i).status = .finished

theorem Unsampled.refl (s : EngineState K G) : Unsampled s s :=
  ⟨rfl, fun _ => rfl, fun _ => rfl, fun _ => Iff.rfl⟩

theorem Unsampled.trans {s t u : EngineState K G} (h : Unsampled s t) (h' : Unsampled t u) :
    Unsampled s u where
  nextId := h'.nextId.trans h.nextId
  request i := (h'.request i).trans (h.request i)
  output i := (h'.output i).trans (h.output i)
  finished i := (h'.finished i).trans (h.finished i)

theorem Unsampled.left {s s' : EngineState K G} (h : Unsampled s s') (i : Nat) :
    (s'.sequences i).left = (s.sequences i).left := by
  simp only [EngineSequence.left, h.finished, h.request, h.output]

theorem Unsampled.work {s s' : EngineState K G} (h : Unsampled s s') : s'.work = s.work := by
  rw [EngineState.work, EngineState.work, h.nextId]
  exact Finset.sum_congr rfl fun i _ => h.left i

theorem Short.unsampled {s s' : EngineState K G} (h : Short s) (hu : Unsampled s s') : Short s' := by
  intro id hid hstatus
  rw [hu.request, hu.output]
  exact h id (hu.nextId ▸ hid) fun hfin => hstatus ((hu.finished id).mpr hfin)

end EngineState

namespace Engine

open EngineState

variable {W Q K G : Type} [Field K] [LinearOrder K] (E : Engine W Q K G)

/-- The prompt is made of known tokens, and the request fits the pool on its own. -/
def Admissible : Action K → Prop
  | .addRequest request => (∀ t ∈ request.prompt, E.model.InVocab t) ∧
    E.config.blocksFor (request.prompt.length + request.limit - 1) ≤ E.config.numBlocks
  | .step => True

/-- Every request fits the pool on its own, and has not got all its tokens before it is finished. -/
structure Within (s : EngineState K G) : Prop where
  fits : ∀ id < s.nextId, E.config.blocksFor
    ((s.sequences id).request.prompt.length + (s.sequences id).request.limit - 1) ≤ E.config.numBlocks
  short : ∀ id < s.nextId, (s.sequences id).status ≠ .finished →
    (s.sequences id).output.length < (s.sequences id).request.limit

/-- After admission some running sequence has room. -/
def CanProgress (s : EngineState K G) : Prop := E.SomeRoom (E.admitWaiting s.waiting s)

instance (s : EngineState K G) : Decidable (E.CanProgress s) := by
  unfold CanProgress
  infer_instance

variable {E} {s s' : EngineState K G}

/-! ### What changes in a step -/

theorem Admitted.unsampled {admitted : List Nat} (h : Admitted E admitted s s') (hs : Inv E s) :
    Unsampled s s' := by
  have hsame : ∀ i, (s'.sequences i).request = (s.sequences i).request ∧
      (s'.sequences i).output = (s.sequences i).output := by
    intro i
    rw [h.sequences]
    split <;> exact ⟨rfl, rfl⟩
  refine ⟨h.nextId, fun i => (hsame i).1, fun i => (hsame i).2, fun i => ?_⟩
  rw [h.sequences]
  by_cases hi : i ∈ admitted
  · have hwaiting := ((hs.queues.mem_waiting i).mp (by rw [h.waiting]; exact List.mem_append_left _ hi)).2
    simp [hi, hwaiting]
  · rw [if_neg hi]

theorem Shared.unsampled {id : Nat} (h : Shared E id s s') : Unsampled s s' :=
  ⟨h.nextId, fun i => by rw [h.sequences], fun i => by rw [h.sequences], fun i => by rw [h.sequences]⟩

theorem Preempted.unsampled {id : Nat} (h : Preempted E id s s') (hs : Sane E s) : Unsampled s s' := by
  have hstatus := hs.status id h.mem_running
  refine ⟨h.nextId, fun i => ?_, fun i => ?_, fun i => ?_⟩ <;>
  · rw [h.sequences]
    by_cases hi : i = id
    · subst hi
      simp [hstatus]
    · rw [Function.update_of_ne hi]

theorem Prepares.unsampled (h : Prepares E s s') (hs : Sane E s) : Unsampled s s' :=
  h.invariant (I := Unsampled s) hs (.refl s) (fun _ _ _ _ hI _ hsh => hI.trans hsh.unsampled)
    fun _ _ _ ht hI _ hp => hI.trans (hp.unsampled ht)

theorem Within.unsampled (h : Within E s) (hu : Unsampled s s') : Within E s' := by
  refine ⟨fun id hid => ?_, Short.unsampled h.short hu⟩
  rw [hu.request]
  exact h.fits id (hu.nextId ▸ hid)

section Ran

variable {chosen : List Nat} {logits : Rows K} {p : Pool K}

/-- A sequence of the batch gets one token, and comes closer to its end. -/
theorem Ran.advanced_left (h : Ran E chosen logits p s s') (hs : Inv E s) (hw : Short s)
    (hsub : chosen.Sublist s.running) {id : Nat} (hid : id ∈ chosen) :
    (s'.sequences id).left < (s.sequences id).left ∧
      (∃ token, (s'.sequences id).output = (s.sequences id).output ++ [token]) ∧
      ((s'.sequences id).status ≠ .finished →
        (s'.sequences id).output.length < (s'.sequences id).request.limit) := by
  obtain ⟨k, hk⟩ := List.getElem?_of_mem hid
  obtain ⟨token, hsampled⟩ := h.sampled hk
  have hmem := hsub.subset hid
  have hstatus := hs.running_status hmem
  have hshort := hw id (hs.running_lt hmem) (by rw [hstatus]; nofun)
  rw [hsampled.seq_eq]
  have hleft : (s.sequences id).left = (s.sequences id).request.limit - (s.sequences id).output.length := by
    rw [EngineSequence.left, hstatus, if_neg (by nofun)]
  refine ⟨?_, ⟨token, rfl⟩, fun hrun => ?_⟩
  · rw [hleft, EngineSequence.left]
    split
    · omega
    · simp only [EngineSequence.advance, List.length_append, List.length_singleton]
      omega
  · have hmore : ¬(s.sequences id).Completes token := fun hdone => hrun (if_pos hdone)
    simp only [EngineSequence.Completes, not_or, not_le] at hmore
    simp only [EngineSequence.advance, Request.limit]
    omega

theorem Ran.request (h : Ran E chosen logits p s s') (id : Nat) :
    (s'.sequences id).request = (s.sequences id).request := by
  by_cases hmem : id ∈ chosen
  · obtain ⟨k, hk⟩ := List.getElem?_of_mem hmem
    obtain ⟨token, hsampled⟩ := h.sampled hk
    rw [hsampled.seq_eq]
    rfl
  · rw [(h.others hmem).1]

theorem Ran.short (h : Ran E chosen logits p s s') (hs : Inv E s) (hw : Short s)
    (hsub : chosen.Sublist s.running) : Short s' := by
  intro id hid hstatus
  rw [h.nextId] at hid
  by_cases hmem : id ∈ chosen
  · exact (h.advanced_left hs hw hsub hmem).2.2 hstatus
  · rw [(h.others hmem).1] at hstatus ⊢
    exact hw id hid hstatus

theorem Within.ran (hw : Within E s) (hs : Inv E s) (hsub : chosen.Sublist s.running)
    (h : Ran E chosen logits p s s') : Within E s' := by
  refine ⟨fun id hid => ?_, h.short hs hw.short hsub⟩
  rw [h.nextId] at hid
  rw [h.request]
  exact hw.fits id hid

theorem Ran.work_lt (h : Ran E chosen logits p s s') (hs : Inv E s) (hw : Short s)
    (hsub : chosen.Sublist s.running) (hne : chosen ≠ []) : s'.work < s.work := by
  obtain ⟨first, rest, rfl⟩ := List.exists_cons_of_ne_nil hne
  rw [work, work, h.nextId]
  refine Finset.sum_lt_sum (fun i _ => ?_) ⟨first, ?_, ?_⟩
  · by_cases hmem : i ∈ first :: rest
    · exact (h.advanced_left hs hw hsub hmem).1.le
    · rw [(h.others hmem).1]
  · exact Finset.mem_range.mpr (hs.running_lt (hsub.subset List.mem_cons_self))
  · exact (h.advanced_left hs hw hsub List.mem_cons_self).1

end Ran

/-! ### One step -/

/-- What a step of a ready engine does for progress. -/
structure Stepped (E : Engine W Q K G) (s s' : EngineState K G) : Prop where
  inv : Inv E s'
  ready : Ready E s'
  within : Within E s'
  output : ∀ id, (s.sequences id).output <+: (s'.sequences id).output
  appended_iff : Appended s s' ↔ E.CanProgress s
  work_lt : E.CanProgress s → s'.work < s.work

/-- The two halves of a step of a ready engine: a batch is formed, and runs unless it is empty. -/
theorem exists_formed (hM : E.model.Complete) (hmatch : E.model.Matches) (hs : Inv E s) (hr : Ready E s) :
    ∃ t chosen, Unsampled s t ∧ Formed E chosen t ∧ Inv E t ∧ Ready E t ∧
      (E.CanProgress s ↔ chosen ≠ []) ∧ (chosen = [] ∧ finalState E.step s = t ∨
        chosen ≠ [] ∧ ∃ logits p, Ran E chosen logits p t (finalState E.step s)) := by
  apply wp_finalState (P := fun s' => ∃ t chosen, Unsampled s t ∧ Formed E chosen t ∧ Inv E t ∧
    Ready E t ∧ (E.CanProgress s ↔ chosen ≠ []) ∧
      (chosen = [] ∧ s' = t ∨ chosen ≠ [] ∧ ∃ logits p, Ran E chosen logits p t s'))
  apply wp_mono (wp_step_ready hM hmatch hs hr) ?_ fun _ _ hf => hf.elim
  rintro _ s' ⟨t, chosen, ht, hformed, hI, hX, hend⟩
  obtain ⟨admitted, ha⟩ := admitted_admitWaiting (E := E) s
  have hs₁ := hs.enter ha
  have hcan : E.CanProgress s ↔ chosen ≠ [] :=
    (ht.someRoom_iff hM hmatch hs₁ (hr.enter ha)).symm.trans (hformed.someRoom_iff hM hmatch hI hX)
  exact ⟨t, chosen, (ha.unsampled hs).trans (ht.unsampled hs₁.sane), hformed, hI, hX, hcan, hend⟩

theorem work_step_lt (hM : E.model.Complete) (hmatch : E.model.Matches) (hs : Inv E s) (hr : Ready E s)
    (hshort : Short s) (hcan : E.CanProgress s) : (finalState E.step s).work < s.work := by
  obtain ⟨t, chosen, hu, hformed, hI, -, hiff, ⟨hnil, -⟩ | ⟨hne, logits, p, hran⟩⟩ :=
    exists_formed hM hmatch hs hr
  · exact absurd hnil (hiff.mp hcan)
  · rw [← hu.work]
    exact hran.work_lt hI (hshort.unsampled hu) hformed.sublist hne

theorem stepped (hM : E.model.Complete) (hmatch : E.model.Matches) (hs : Inv E s) (hr : Ready E s)
    (hw : Within E s) : Stepped E s (finalState E.step s) := by
  obtain ⟨t, chosen, hu, hformed, hI, hX, hcan, hend⟩ := exists_formed hM hmatch hs hr
  have hlt := work_step_lt hM hmatch hs hr hw.short
  generalize finalState E.step s = s' at hend hlt
  have hwt := hw.unsampled hu
  rcases hend with ⟨hnil, rfl⟩ | ⟨hne, logits, p, hran⟩
  · refine ⟨hI, hX, hwt, fun id => ?_, ⟨?_, fun h => absurd hnil (hcan.mp h)⟩, hlt⟩
    · rw [hu.output]
    · rintro ⟨id, -, token, happ⟩
      rw [hu.output] at happ
      simp at happ
  · have hsub := hformed.sublist
    refine ⟨hI.ran hsub hne hran, hX.ran hmatch hI hsub hran, hwt.ran hI hsub hran, fun id => ?_,
      ⟨fun _ => hcan.mpr hne, fun _ => ?_⟩, hlt⟩
    · rw [← hu.output]
      by_cases hmem : id ∈ chosen
      · obtain ⟨token, htoken⟩ := (hran.advanced_left hI hwt.short hsub hmem).2.1
        rw [htoken]
        exact List.prefix_append _ _
      · rw [(hran.others hmem).1]
    · obtain ⟨first, rest, rfl⟩ := List.exists_cons_of_ne_nil hne
      obtain ⟨token, htoken⟩ := (hran.advanced_left hI hwt.short hsub List.mem_cons_self).2.1
      exact ⟨first, hu.nextId ▸ hI.running_lt (hsub.subset List.mem_cons_self), token,
        by rw [htoken, hu.output]⟩

/-- With nobody to run, a step only admits. -/
theorem step_of_not_running (h : (E.admitWaiting s.waiting s).running = []) :
    finalState E.step s = E.admitWaiting s.waiting s := by
  have hform : E.formBatch 1 (E.admitWaiting s.waiting s) = .ok [] (E.admitWaiting s.waiting s) := by
    have hempty : E.assemble [] (E.admitWaiting s.waiting s).pool.freeBlocks (E.admitWaiting s.waiting s) =
        .ok [] (E.admitWaiting s.waiting s) := rfl
    rw [formBatch, get_bind, h, bind_of_ok hempty, if_pos (.inr (Nat.zero_le 1))]
    rfl
  rw [finalState, step, modify_bind, get_bind, h, List.length_nil, Nat.zero_add, bind_of_ok hform, if_pos rfl]
  rfl

theorem step_of_not_hasWork (h : ¬s.hasWork = true) : finalState E.step s = s := by
  rw [hasWork_iff, not_or, not_not, not_not] at h
  have henter : E.admitWaiting s.waiting s = s := by rw [h.1, admitWaiting]
  rw [step_of_not_running (by rw [henter, h.2]), henter]

theorem work_pos (hs : Inv E s) (hw : Short s) (h : s.hasWork = true) : 0 < s.work := by
  obtain ⟨id, hid, hstatus⟩ : ∃ id < s.nextId, (s.sequences id).status ≠ .finished := by
    rw [hasWork_iff] at h
    rcases h with h | h
    · obtain ⟨id, hid⟩ := List.exists_mem_of_ne_nil _ h
      obtain ⟨hlt, hstatus⟩ := (hs.queues.mem_waiting id).mp hid
      exact ⟨id, hlt, by rw [hstatus]; nofun⟩
    · obtain ⟨id, hid⟩ := List.exists_mem_of_ne_nil _ h
      exact ⟨id, hs.running_lt hid, by rw [hs.running_status hid]; nofun⟩
  have hshort := hw id hid hstatus
  refine Finset.sum_pos' (fun _ _ => Nat.zero_le _) ⟨id, Finset.mem_range.mpr hid, ?_⟩
  rw [EngineSequence.left, if_neg hstatus]
  omega

theorem drained (hM : E.model.Complete) (hmatch : E.model.Matches) (hs : Inv E s) (hr : Ready E s)
    (hw : Within E s) {k : Nat} (hcan : ∀ j < k, ((finalState E.step)^[j] s).hasWork = true →
      E.CanProgress ((finalState E.step)^[j] s)) (hk : s.work ≤ k) :
    ((finalState E.step)^[k] s).hasWork = false := by
  rw [← Bool.not_eq_true]
  refine Machine.not_busy_iterate (I := fun s => Inv E s ∧ Ready E s ∧ Within E s)
    (B := fun s => s.hasWork = true) (C := E.CanProgress) (w := work) ?_ ?_ ?_ ?_
    ⟨hs, hr, hw⟩ hcan hk
  · exact fun s h => let hstep := stepped hM hmatch h.1 h.2.1 h.2.2
      ⟨hstep.inv, hstep.ready, hstep.within⟩
  · exact fun s _ hbusy => by rwa [step_of_not_hasWork hbusy]
  · exact fun s h hbusy => work_pos h.1 h.2.2.short hbusy
  · exact fun s h _ hgranted => (stepped hM hmatch h.1 h.2.1 h.2.2).work_lt hgranted

end Engine

end InferenceEngine
