import InferenceEngine.Engine.Draining
import InferenceEngine.Engine.Stopping
import InferenceEngine.Engine.Transparency
import InferenceEngine.Library.Until

/-!
# Waiting for one request

`generate` adds a request and steps the engine until it is finished. The engine may have other work, which
goes on meanwhile.
-/

namespace InferenceEngine

open Exec

theorem EngineSequence.Stopping.length_le {K : Type} {seq : EngineSequence K} (h : seq.Stopping) :
    seq.output.length ≤ seq.request.limit := by
  have hopen : ∀ output, EngineSequence.Open seq.request output → output.length < seq.request.limit := by
    intro output ho
    rw [Request.limit]
    obtain rfl | hlt := ho.2
    · simp
    · omega
  by_cases hfinished : seq.status = .finished
  · obtain ⟨output, token, hout, ho, -⟩ := h.finished hfinished
    rw [hout, List.length_append, List.length_singleton]
    exact hopen output ho
  · exact (hopen _ (h.unfinished hfinished)).le

namespace Engine

open EngineState

variable {W Q K G : Type} [Field K] [LinearOrder K]

/-- `generate`, for so many turns of its loop at most. -/
def generate (E : Engine W Q K G) (request : Request K) (turns : Nat) :
    EStateM Error (EngineState K G) (Option (List Int)) := do
  let id ← addRequest request
  if ← untilDone (fun s => (s.sequences id).status = .finished) E.step turns then
    return some ((← get).sequences id).output
  else
    return none

variable {E : Engine W Q K G} {s s' : EngineState K G} {rng : G} {request : Request K}

theorem requests_step (h : Inv E s) : (finalState E.step s).nextId = s.nextId ∧
    ∀ i, ((finalState E.step s).sequences i).request = (s.sequences i).request := by
  refine (h.step (X := fun t => t.nextId = s.nextId ∧ ∀ i, (t.sequences i).request = (s.sequences i).request)
    ⟨rfl, fun _ => rfl⟩ ?_ ?_ ?_ ?_ ?_).2
  · intro t u admitted ht hX ha
    exact ⟨ha.nextId.trans hX.1, fun i => ((ha.unsampled ht).request i).trans (hX.2 i)⟩
  · intro t u id _ hX _ hs
    rw [hs.nextId, hs.sequences]
    exact hX
  · intro t u id _ hX hp
    refine ⟨hp.nextId.trans hX.1, fun i => ?_⟩
    rw [hp.sequences]
    by_cases hi : i = id
    · rw [hi, Function.update_self]
      exact hX.2 id
    · rw [Function.update_of_ne hi]
      exact hX.2 i
  · intro t u chosen logits p _ hX _ _ hr
    refine ⟨hr.nextId.trans hX.1, fun i => ?_⟩
    by_cases hi : i ∈ chosen
    · obtain ⟨k, hk⟩ := List.getElem?_of_mem hi
      obtain ⟨token, hsampled⟩ := hr.sampled hk
      rw [hsampled.seq_eq]
      exact hX.2 i
    · rw [(hr.others hi).1]
      exact hX.2 i
  · intro t u chosen e _ hX _ _ hf
    obtain ⟨p, rfl, -⟩ := hf
    exact hX

theorem requests_steps (hs : (E.machine rng).Reachable (fun _ a => E.Admissible a) s) (k : Nat) :
    ((finalState E.step)^[k] s).nextId = s.nextId ∧
      ∀ i, (((finalState E.step)^[k] s).sequences i).request = (s.sequences i).request := by
  induction k with
  | zero => exact ⟨rfl, fun _ => rfl⟩
  | succ k ih =>
    rw [Function.iterate_succ_apply']
    obtain ⟨hnextId, hrequest⟩ := requests_step (inv_reachable (reachable_steps hs k))
    exact ⟨hnextId.trans ih.1, fun i => (hrequest i).trans (ih.2 i)⟩

theorem finished_of_idle (h : Inv E s) (hidle : s.hasWork = false) {id : Nat} (hid : id < s.nextId) :
    (s.sequences id).status = .finished := by
  have hempty := mt hasWork_iff.mpr (Bool.not_eq_true _ ▸ hidle)
  rw [not_or, not_not, not_not] at hempty
  cases hstatus : (s.sequences id).status with
  | waiting =>
    have hmem := (h.queues.mem_waiting id).mpr ⟨hid, hstatus⟩
    rw [hempty.1] at hmem
    exact absurd hmem List.not_mem_nil
  | running =>
    have hmem := (h.queues.mem_running id).mpr ⟨hid, hstatus⟩
    rw [hempty.2] at hmem
    exact absurd hmem List.not_mem_nil
  | finished => rfl

omit [Field K] [LinearOrder K] in
theorem addRequest_of_ne_nil (hprompt : request.prompt ≠ []) (s : EngineState K G) :
    addRequest request s = .ok s.nextId { s.setSequence s.nextId { request } with
      waiting := s.waiting ++ [s.nextId], nextId := s.nextId + 1 } := by
  rw [addRequest, if_neg hprompt]
  rfl

/-- What holds of a request that a caller waits for. -/
structure Awaited (E : Engine W Q K G) (rng : G) (id : Nat) (request : Request K) (s : EngineState K G) :
    Prop where
  reachable : (E.machine rng).Reachable (fun _ a => E.Admissible a) s
  lt : id < s.nextId
  request_eq : (s.sequences id).request = request

theorem Awaited.new (hs : (E.machine rng).Reachable (fun _ a => E.Admissible a) s) (hprompt : request.prompt ≠ [])
    (hrequest : E.Admissible (.addRequest request)) :
    ∃ t, addRequest request s = .ok s.nextId t ∧ Awaited E rng s.nextId request t ∧
      t.work = s.work + request.limit := by
  let t : EngineState K G := { s.setSequence s.nextId { request } with
    waiting := s.waiting ++ [s.nextId], nextId := s.nextId + 1 }
  have hadd : addRequest request s = .ok s.nextId t := addRequest_of_ne_nil hprompt s
  have hself : t.sequences s.nextId = { request } := Function.update_self _ _ _
  have hreach : (E.machine rng).Reachable (fun _ a => E.Admissible a) t := by
    have hnext := Machine.Reachable.next hs hrequest
    have heq : (E.machine rng).next s (.addRequest request) = t := by
      change finalState (addRequest request) s = t
      rw [finalState, hadd]
    rwa [heq] at hnext
  refine ⟨t, hadd, ⟨hreach, Nat.lt_succ_self _, by rw [hself]⟩, ?_⟩
  rw [work, work, Finset.sum_range_succ, hself]
  congr 1
  refine Finset.sum_congr rfl fun i hi => congrArg EngineSequence.left ?_
  exact Function.update_of_ne (Nat.ne_of_lt (Finset.mem_range.mp hi)) _ _

section Steps

variable (hM : E.model.Complete) (hmatch : E.model.Matches)
include hM hmatch

theorem returns_step (hs : Inv E s) (hr : Ready E s) : returns E.step s = true := by
  obtain ⟨_, _, hstep, -⟩ := wp_returns (wp_step_ready hM hmatch hs hr)
  rw [returns, hstep]

theorem Awaited.step {id : Nat} (h : Awaited E rng id request s) :
    ∃ s', E.step s = .ok () s' ∧ Awaited E rng id request s' ∧ Stepped E s s' := by
  obtain ⟨hI, hR, hW⟩ := admissible_reachable hM hmatch h.reachable
  obtain ⟨_, s', hrun, -⟩ := wp_returns (wp_step_ready hM hmatch hI hR)
  have hfinal : finalState E.step s = s' := by rw [finalState, hrun]
  have hstepped := stepped hM hmatch hI hR hW
  have hadmissible : E.Admissible .step := trivial
  have hreach := Machine.Reachable.next h.reachable hadmissible
  change (E.machine rng).Reachable _ (finalState E.step s) at hreach
  have hnextId := (requests_step hI).1
  have hrequest := (requests_step hI).2 id
  rw [hfinal] at hstepped hreach hrequest hnextId
  exact ⟨s', hrun, ⟨hreach, hnextId.symm ▸ h.lt, hrequest.trans h.request_eq⟩, hstepped⟩

/-- `generate` does not throw. What it returns for a greedy request is what plain greedy decoding gives. -/
theorem returns_generate (hs : (E.machine rng).Reachable (fun _ a => E.Admissible a) s)
    (hprompt : request.prompt ≠ []) (hrequest : E.Admissible (.addRequest request)) (turns : Nat) :
    ∃ result s', E.generate request turns s = .ok result s' ∧ ∀ out, result = some out →
      (E.machine rng).Reachable (fun _ a => E.Admissible a) s' ∧ out.length ≤ request.limit ∧
        (request.params.temperature ≤ 0 → E.Apart s' → out = request.greedyOutput E.model.forward) := by
  obtain ⟨t, hadd, ht, -⟩ := Awaited.new hs hprompt hrequest
  let done : EngineState K G → Bool := fun u => (u.sequences s.nextId).status = .finished
  have hsteps : ∀ u, Awaited E rng s.nextId request u → done u = false →
      wp E.step (fun _ => Awaited E rng s.nextId request) (fun _ _ => False) u := by
    intro u hu _
    obtain ⟨u', hrun, hu', -⟩ := hu.step hM hmatch
    rw [wp, hrun]
    exact hu'
  obtain ⟨ended, u, hloop, hu, hdone⟩ := wp_returns (wp_untilDone hsteps ht turns)
  rw [generate, bind_of_ok hadd, bind_of_ok hloop]
  cases ended with
  | false =>
    refine ⟨none, u, rfl, fun out hout => ?_⟩
    cases hout
  | true =>
    refine ⟨some (u.sequences s.nextId).output, u, rfl, fun out hout => ?_⟩
    obtain rfl := Option.some.inj hout
    refine ⟨hu.reachable, ?_, fun hgreedy hapart => ?_⟩
    · have hlength := (stopping_reachable hu.reachable s.nextId hu.lt).length_le
      rwa [hu.request_eq] at hlength
    · have hknown : (E.machine rng).Reachable (KnownTokens E) u := hu.reachable.mono fun _ _ ha => ha.known
      have hout := (seqGreedy_reachable hmatch hknown hapart hu.lt (by rw [hu.request_eq]; exact hgreedy)).2
        (of_decide_eq_true (hdone rfl))
      rwa [hu.request_eq] at hout

theorem generate_ends (hcache : E.prefixCache = false) (hmax : 1 ≤ E.maxBatch)
    (hs : (E.machine rng).Reachable (fun _ a => E.Admissible a) s) (hprompt : request.prompt ≠ [])
    (hrequest : E.Admissible (.addRequest request)) :
    ∃ out s', ∀ turns, s.work + request.limit < turns → E.generate request turns s = .ok (some out) s' := by
  obtain ⟨t, hadd, ht, hwork⟩ := Awaited.new hs hprompt hrequest
  let done : EngineState K G → Bool := fun u => (u.sequences s.nextId).status = .finished
  have hless : ∀ u, Awaited E rng s.nextId request u → done u = false →
      wp E.step (fun _ u' => Awaited E rng s.nextId request u' ∧ u'.work < u.work) (fun _ _ => False) u := by
    intro u hu hdone
    have hbusy : u.hasWork = true := by
      by_contra hidle
      exact of_decide_eq_false hdone (finished_of_idle (inv_reachable hu.reachable) (by simpa using hidle) hu.lt)
    have hcan := (drained_uncached hM hmatch hcache hmax hu.reachable).1 hbusy
    obtain ⟨u', hrun, hu', hstepped⟩ := hu.step hM hmatch
    rw [wp, hrun]
    exact ⟨hu', hstepped.work_lt hcan⟩
  obtain ⟨ended, s', hloop, rfl, -, -⟩ := wp_returns (wp_untilDone_total hless ht (Nat.lt_succ_self _))
  refine ⟨(s'.sequences s.nextId).output, s', fun turns hturns => ?_⟩
  rw [generate, bind_of_ok hadd, bind_of_ok (untilDone_of_le (by omega) hloop), if_pos rfl]
  rfl

/-- Without the prefix cache every request is finished after as many steps as there are tokens to come. -/
theorem finished_of_steps (hcache : E.prefixCache = false) (hmax : 1 ≤ E.maxBatch)
    (hs : (E.machine rng).Reachable (fun _ a => E.Admissible a) s) {k : Nat} (hk : s.work ≤ k) {id : Nat}
    (hid : id < s.nextId) : (((finalState E.step)^[k] s).sequences id).status = .finished := by
  apply finished_of_idle (inv_reachable (reachable_steps hs k)) ((drained_uncached hM hmatch hcache hmax hs).2 k hk)
  rw [(requests_steps hs k).1]
  exact hid

/-- **Waiting for one request.** Whatever else the engine has to do, and with the prefix cache: when `generate`
returns, it returns for a greedy request what plain greedy decoding gives, never more tokens than asked for.
Without the prefix cache it returns, after no more turns than there are tokens to come. -/
theorem generate_greedy (hs : (E.machine rng).Reachable (fun _ a => E.Admissible a) s)
    (hprompt : request.prompt ≠ []) (hrequest : E.Admissible (.addRequest request)) :
    (∀ turns out s', E.generate request turns s = .ok (some out) s' →
      (E.machine rng).Reachable (fun _ a => E.Admissible a) s' ∧ out.length ≤ request.limit ∧
        (request.params.temperature ≤ 0 → E.Apart s' → out = request.greedyOutput E.model.forward)) ∧
    (E.prefixCache = false → 1 ≤ E.maxBatch → ∃ out s', ∀ turns, s.work + request.limit < turns →
      E.generate request turns s = .ok (some out) s') := by
  refine ⟨fun turns out s' hgenerate => ?_, fun hcache hmax => generate_ends hM hmatch hcache hmax hs hprompt hrequest⟩
  obtain ⟨result, t, hrun, hout⟩ := returns_generate hM hmatch hs hprompt hrequest turns
  rw [hgenerate] at hrun
  cases hrun
  exact hout out rfl

end Steps

theorem generate_greedy_preempted :
    ∃ out s', (tiny false).generate (greedyRequest [1, 2] 2) 5 (preempted false) = .ok (some out) s' ∧
      out.length ≤ 2 ∧ out = (greedyRequest [1, 2] 2).greedyOutput (tiny false).model.forward := by
  have hrequest : (tiny false).Admissible (.addRequest (greedyRequest [1, 2] 2)) :=
    admissible_tiny false (by decide) (by decide)
  obtain ⟨hgreedy, hreturns⟩ :=
    generate_greedy Model.tiny_complete Model.tiny_matches (preempted_reachable false) (by decide) hrequest
  obtain ⟨out, s', hends⟩ := hreturns rfl (by decide)
  -- two tokens of the others, and two of its own
  have hrun := hends 5 (by decide +kernel)
  obtain ⟨-, hlength, hout⟩ := hgreedy 5 out s' hrun
  exact ⟨out, s', hrun, hlength, hout le_rfl (.inl rfl)⟩

end Engine

end InferenceEngine
