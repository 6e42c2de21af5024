import InferenceEngine.Engine.Progress
import InferenceEngine.Server.Service

/-!
# The engine behind the service

The engine of this development is one the service can use: an output only grows, and a finished request
stays as it is.
-/

namespace InferenceEngine

open Exec

namespace EngineState

variable {K G : Type}

/-- Outputs have grown, those of finished requests excepted. -/
structure Grown (s s' : EngineState K G) : Prop where
  nextId : s'.nextId = s.nextId
  output : ∀ i, (s.sequences i).output <+: (s'.sequences i).output
  finished : ∀ i, (s.sequences i).status = .finished →
    (s'.sequences i).status = .finished ∧ (s'.sequences i).output = (s.sequences i).output

theorem Grown.refl (s : EngineState K G) : Grown s s :=
  ⟨rfl, fun _ => List.prefix_rfl, fun _ h => ⟨h, rfl⟩⟩

theorem Grown.unsampled {s t s' : EngineState K G} (h : Grown s t) (hu : Unsampled t s') : Grown s s' where
  nextId := hu.nextId.trans h.nextId
  output i := by
    rw [hu.output]
    exact h.output i
  finished i hi := by
    obtain ⟨hstatus, houtput⟩ := h.finished i hi
    exact ⟨(hu.finished i).mpr hstatus, (hu.output i).trans houtput⟩

end EngineState

namespace Engine

open EngineState

variable {W Q K G : Type} [Field K] [LinearOrder K] {E : Engine W Q K G} {s s' : EngineState K G}

theorem grown_ran {t : EngineState K G} {chosen : List Nat} {logits : Rows K} {p : Pool K} (h : Grown s t)
    (ht : Inv E t) (hsub : chosen.Sublist t.running) (hr : Ran E chosen logits p t s') : Grown s s' := by
  have hgrows : ∀ i, (t.sequences i).output <+: (s'.sequences i).output ∧
      ((t.sequences i).status = .finished → s'.sequences i = t.sequences i) := by
    intro i
    by_cases hi : i ∈ chosen
    · obtain ⟨k, hk⟩ := List.getElem?_of_mem hi
      obtain ⟨token, hsampled⟩ := hr.sampled hk
      have hrunning := ht.running_status (hsub.subset hi)
      refine ⟨?_, fun hfin => by simp [hrunning] at hfin⟩
      rw [hsampled.seq_eq]
      exact List.prefix_append _ _
    · rw [(hr.others hi).1]
      exact ⟨List.prefix_rfl, fun _ => rfl⟩
  refine ⟨hr.nextId.trans h.nextId, fun i => (h.output i).trans (hgrows i).1, fun i hi => ?_⟩
  obtain ⟨hstatus, houtput⟩ := h.finished i hi
  rw [(hgrows i).2 hstatus]
  exact ⟨hstatus, houtput⟩

theorem grown_step (h : Inv E s) : Inv E (finalState E.step s) ∧ Grown s (finalState E.step s) := by
  apply h.step (X := Grown s) (Grown.refl s)
  · intro t u admitted ht hg ha
    exact hg.unsampled (ha.unsampled ht)
  · intro t u id ht hg _ hs
    exact hg.unsampled ⟨hs.nextId, fun i => by rw [hs.sequences], fun i => by rw [hs.sequences],
      fun i => by rw [hs.sequences]⟩
  · intro t u id ht hg hp
    have hrunning := ht.running_status hp.mem_running
    refine hg.unsampled ⟨hp.nextId, ?_, ?_, ?_⟩
    all_goals
      intro i
      rw [hp.sequences]
      by_cases hi : i = id
      · simp [hi, hrunning]
      · rw [Function.update_of_ne hi]
  · intro t u chosen logits p ht hg hf _ hr
    exact grown_ran hg ht hf.sublist hr
  · intro t u chosen e _ hg _ _ hf
    obtain ⟨p, rfl, -⟩ := hf
    exact ⟨hg.nextId, hg.output, hg.finished⟩

omit [Field K] [LinearOrder K] in
theorem addRequest_eq_ok {request : Request K} {id : Nat} (h : addRequest request s = .ok id s') :
    request.prompt ≠ [] ∧ id = s.nextId ∧ s' = { s.setSequence s.nextId { request } with
      waiting := s.waiting ++ [s.nextId], nextId := s.nextId + 1 } := by
  have hfinal := finalState_addRequest request s
  rw [finalState, h] at hfinal
  by_cases hprompt : request.prompt = []
  · simp only [addRequest, hprompt, if_true] at h
    cases h
  · rw [if_neg hprompt] at hfinal
    simp only [addRequest, hprompt, if_false] at h
    cases h
    exact ⟨hprompt, rfl, hfinal⟩

omit [Field K] [LinearOrder K] in
/-- `add_request`, for a caller that learns the id or an exception. -/
def accept (s : EngineState K G) (request : Request K) : Option (Nat × EngineState K G) :=
  match addRequest request s with
  | .ok id s' => some (id, s')
  | .error _ _ => none

omit [Field K] [LinearOrder K] in
theorem accept_eq_some {request : Request K} {id : Nat} (h : accept s request = some (id, s')) :
    request.prompt ≠ [] ∧ id = s.nextId ∧ s' = { s.setSequence s.nextId { request } with
      waiting := s.waiting ++ [s.nextId], nextId := s.nextId + 1 } := by
  rw [accept] at h
  cases hadd : addRequest request s with
  | ok id' t =>
    rw [hadd] at h
    cases h
    exact addRequest_eq_ok hadd
  | error e t =>
    rw [hadd] at h
    cases h

variable (E) in
def served : ServedEngine (EngineState K G) (Request K) where
  valid := Inv E
  known s id := id < s.nextId
  hasWork := hasWork
  output s id := (s.sequences id).output
  finished s id := (s.sequences id).status = .finished
  addRequest := accept
  step s := (returns E.step s, finalState E.step s)
  valid_step s h := (grown_step h).1
  valid_addRequest s request id s' h hadd := by
    obtain ⟨hprompt, -, rfl⟩ := accept_eq_some hadd
    exact h.arrive hprompt
  known_step s id h hid := by
    rw [(grown_step h).2.nextId]
    exact hid
  output_step s id h _ := (grown_step h).2.output id
  finished_step s id h _ hfin := by
    have hgrown := (grown_step h).2.finished id (of_decide_eq_true hfin)
    exact ⟨decide_eq_true hgrown.1, hgrown.2⟩
  addRequest_new s request id s' _ hadd := by
    obtain ⟨-, rfl, rfl⟩ := accept_eq_some hadd
    exact ⟨Nat.lt_irrefl _, Nat.lt_succ_self _⟩
  addRequest_frame s request id s' _ hadd i hi := by
    obtain ⟨-, -, rfl⟩ := accept_eq_some hadd
    have hne : i ≠ s.nextId := Nat.ne_of_lt hi
    have hseq : Function.update s.sequences s.nextId { request } i = s.sequences i :=
      Function.update_of_ne hne _ _
    exact ⟨Nat.lt_succ_of_lt hi, congrArg EngineSequence.output hseq,
      congrArg (fun seq => decide (seq.status = .finished)) hseq⟩

end Engine

end InferenceEngine
