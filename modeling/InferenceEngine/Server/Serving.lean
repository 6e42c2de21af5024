import InferenceEngine.Engine.Generate
import InferenceEngine.Engine.Transparency
import InferenceEngine.Server.Delivery
import InferenceEngine.Server.Handlers

/-!
# Serving

The service over the engine of this development. Its background task and its handlers call the engine as
some caller would, so that what holds of every run of the engine holds of the engine behind every
interleaving. A client of a greedy request gets what plain greedy decoding of its prompt gives, whatever
the other clients do, and without the prefix cache every stream that is read comes to its end.
-/

namespace InferenceEngine

open Exec

namespace Server

/-! ### The engine behind the service -/

section Engine

variable {E R : Type} {M : ServedEngine E R} {s : Service E} {engine : E}

theorem engine_iterate (h : Inv M s) : (iterate M s).engine = s.engine ∨
    (iterate M s).engine = (M.step s.engine).2 := by
  by_cases hrun : Runnable s
  · cases iterated h.streams hrun with
    | blocked _ heq =>
      left
      rw [heq]
    | raised _ _ heq =>
      right
      rw [heq]
    | stepped _ _ hengine => exact .inr hengine
  · have hstay : ¬(s.loop = .ready ∨ (s.loop = .blocked ∧ s.wakeup = true)) := hrun
    rw [Server.iterate, if_neg hstay]
    exact .inl rfl

/-- What holds of the engine is kept by an action when a step and an accepted request keep it. -/
theorem engine_next {I : E → Prop} (h : Inv M s) (hI : I s.engine) (a : ServiceAction R)
    (hstep : I (M.step s.engine).2)
    (hadd : ∀ r id e, a = .submit r → M.addRequest s.engine r = some (id, e) → I e) :
    I ((machine M engine).next s a).engine := by
  cases a with
  | submit r =>
    change I (submit M s r).engine
    rw [submit]
    split
    · exact hI
    · exact hadd r _ _ rfl ‹_›
  | iterate =>
    change I (iterate M s).engine
    obtain hsame | hstepped := engine_iterate h
    · rwa [hsame]
    · rwa [hstepped]
  | take id =>
    change I (take s id).engine
    rwa [(touched_take id s).engine]
  | cancel id =>
    change I (cancel s id).engine
    rwa [(touched_cancel id s).engine]

/-- What a consumer has received, cancelled ones included, comes from the output of its request. -/
def Received (M : ServedEngine E R) (s : Service E) (id : Nat) : Prop :=
  (s.consumers id).received = [] ∨
    M.known s.engine id ∧ (s.consumers id).received <+: M.output s.engine id

theorem Received.touched {id i : Nat} {s' : Service E} (h : Received M s i) (ht : Touched id s s')
    (hi : i ≠ id) : Received M s' i := by
  rw [Received, (ht.others i hi).1, ht.engine]
  exact h

theorem At.received {id : Nat} (h : At M s id) (habsent : (s.consumers id).phase ≠ .absent)
    (hcancelled : (s.consumers id).phase ≠ .cancelled) : Received M s id :=
  .inr ⟨Stream.known h habsent, (h.delivered habsent hcancelled).received⟩

theorem phase_take (s : Service E) (id : Nat) : (take s id).consumers id = s.consumers id ∨
    ((take s id).consumers id).phase ≠ .absent ∧ ((take s id).consumers id).phase ≠ .cancelled := by
  rw [take]
  split
  · right
    split <;> simp [setConsumer]
  · exact .inl rfl

theorem received_cancel (s : Service E) (id : Nat) :
    ((cancel s id).consumers id).received = (s.consumers id).received := by
  rw [cancel]
  split
  · simp [setConsumer]
  split
  · simp [setConsumer]
  · rfl

theorem consumers_iterate (h : Inv M s) : (iterate M s).consumers = s.consumers := by
  by_cases hrun : Runnable s
  · cases iterated h.streams hrun with
    | blocked _ heq => rw [heq]
    | raised _ _ heq => rw [heq]
    | stepped _ _ _ _ _ hconsumers => exact hconsumers
  · have hstay : ¬(s.loop = .ready ∨ (s.loop = .blocked ∧ s.wakeup = true)) := hrun
    rw [Server.iterate, if_neg hstay]

theorem received_next (h : Inv M s) (hr : ∀ id, Received M s id) (a : ServiceAction R) (id : Nat) :
    Received M ((machine M engine).next s a) id := by
  cases a with
  | submit r =>
    change Received M (submit M s r) id
    rw [submit]
    split
    · exact hr id
    rename_i new e hadd
    by_cases hid : id = new
    · subst hid
      left
      simp
    · simp only [Received, Function.update_of_ne hid]
      refine (hr id).imp_right fun hkeeps => ?_
      obtain ⟨hknown, hout, -⟩ := M.addRequest_frame s.engine r new e h.valid hadd id hkeeps.1
      rw [hout]
      exact ⟨hknown, hkeeps.2⟩
  | iterate =>
    change Received M (iterate M s) id
    rw [Received, consumers_iterate h]
    obtain hsame | hstepped := engine_iterate h
    · rw [hsame]
      exact hr id
    · rw [hstepped]
      refine (hr id).imp_right fun hkeeps => ?_
      exact ⟨M.known_step _ id h.valid hkeeps.1,
        hkeeps.2.trans (M.output_step _ id h.valid hkeeps.1)⟩
  | take i =>
    change Received M (take s i) id
    by_cases hid : id = i
    · subst hid
      obtain hsame | ⟨habsent, hcancelled⟩ := phase_take s id
      · rw [Received, hsame, (touched_take id s).engine]
        exact hr id
      · exact (at_take (h.streams id)).received habsent hcancelled
    · exact (hr id).touched (touched_take i s) hid
  | cancel i =>
    change Received M (cancel s i) id
    by_cases hid : id = i
    · subst hid
      rw [Received, received_cancel, (touched_cancel id s).engine]
      exact hr id
    · exact (hr id).touched (touched_cancel i s) hid

theorem received_run (h : M.valid engine) (actions : List (ServiceAction R)) :
    Inv M ((machine M engine).run actions) ∧ ∀ id, Received M ((machine M engine).run actions) id :=
  Machine.run_invariant (I := fun s => Inv M s ∧ ∀ id, Received M s id) _
    ⟨Inv.start h, fun _ => .inl rfl⟩ (fun _ a hs => ⟨hs.1.next a, received_next hs.1 hs.2 a⟩) actions

/-- The stream of a finished request changes with its own consumer only. -/
theorem stream_frame (engine : E) (h : Inv M s) {id : Nat} (hknown : M.known s.engine id)
    (hemitted : s.emitted.get id = none) {a : ServiceAction R} (ha : ofConsumer id a = false) :
    ((machine M engine).next s a).consumers id = s.consumers id ∧
      ((machine M engine).next s a).queues.get id = s.queues.get id ∧
      ((machine M engine).next s a).emitted.get id = s.emitted.get id := by
  cases a with
  | submit r =>
    change (submit M s r).consumers id = _ ∧ (submit M s r).queues.get id = _ ∧
      (submit M s r).emitted.get id = _
    rw [submit]
    split
    · exact ⟨rfl, rfl, rfl⟩
    rename_i new e hadd
    have hne : id ≠ new := by
      rintro rfl
      exact (M.addRequest_new s.engine r id e h.valid hadd).1 hknown
    exact ⟨Function.update_of_ne hne _ _, Dict.get_set_of_ne _ _ hne, Dict.get_set_of_ne _ _ hne⟩
  | iterate =>
    refine ⟨congrFun (consumers_iterate h) id, ?_⟩
    change (iterate M s).queues.get id = _ ∧ (iterate M s).emitted.get id = _
    by_cases hrun : Runnable s
    · cases iterated h.streams hrun with
      | blocked _ heq =>
        rw [heq]
        exact ⟨rfl, rfl⟩
      | raised _ _ heq =>
        rw [heq]
        exact ⟨rfl, rfl⟩
      | stepped _ _ _ _ _ _ hstreams =>
        have hpair := hstreams id
        rw [hemitted, fanned_none] at hpair
        exact ⟨congrArg Prod.fst hpair, (congrArg Prod.snd hpair).trans hemitted.symm⟩
    · have hstay : ¬(s.loop = .ready ∨ (s.loop = .blocked ∧ s.wakeup = true)) := hrun
      rw [Server.iterate, if_neg hstay]
      exact ⟨rfl, rfl⟩
  | take i => exact (touched_take i s).others id (by simpa [ofConsumer, eq_comm] using ha)
  | cancel i => exact (touched_cancel i s).others id (by simpa [ofConsumer, eq_comm] using ha)

theorem ended_next (h : Inv M s) {id : Nat} (hended : (s.consumers id).phase = .ended) (a : ServiceAction R) :
    (((machine M engine).next s a).consumers id).phase = .ended := by
  have hat := h.streams id
  have hknown : M.known s.engine id := Stream.known hat (by rw [hended]; decide)
  by_cases ha : ofConsumer id a = true
  · cases a with
    | submit r => cases ha
    | iterate => cases ha
    | take i =>
      obtain rfl : i = id := of_decide_eq_true ha
      change ((take s i).consumers i).phase = .ended
      rw [take, if_neg (by simp [hended])]
      exact hended
    | cancel i =>
      obtain rfl : i = id := of_decide_eq_true ha
      change ((cancel s i).consumers i).phase = .ended
      rw [cancel, if_neg (by simp [hended]), if_neg (by simp [hended])]
      exact hended
  · have hemitted : s.emitted.get id = none := by
      rw [At] at hat
      generalize s.queues.get id = queue at hat
      generalize s.emitted.get id = start at hat ⊢
      cases hat with
      | absent hphase => simp [hphase] at hended
      | running _ hphase => simp [hended] at hphase
      | complete _ hphase => simp [hended] at hphase
      | ended _ _ _ _ _ => rfl
      | dropped _ hphase => simp [hphase] at hended
      | abandoned _ hphase => simp [hphase] at hended
    rw [(stream_frame engine h hknown hemitted (by simpa using ha)).1]
    exact hended

theorem ended_foldl (h : Inv M s) {id : Nat} (hended : (s.consumers id).phase = .ended)
    (actions : List (ServiceAction R)) :
    ((actions.foldl (machine M engine).next s).consumers id).phase = .ended := by
  induction actions generalizing s with
  | nil => exact hended
  | cons a actions ih => exact ih (h.next a) (ended_next h hended a)

/-- Whether an action takes an item of the stream `id`. -/
def isTake (id : Nat) : ServiceAction R → Bool
  | .take i => i = id
  | .submit _ | .iterate | .cancel _ => false

/-- A complete stream ends with its queue, whatever happens in between. -/
theorem ended_of_reads (h : Inv M s) {id : Nat} {queue : List Item}
    (hphase : (s.consumers id).phase = .idle ∨ (s.consumers id).phase = .reading)
    (hqueue : s.queues.get id = some queue) (hemitted : s.emitted.get id = none)
    {actions : List (ServiceAction R)} (hstays : .cancel id ∉ actions)
    (hreads : queue.length ≤ actions.countP (isTake id)) :
    ((actions.foldl (machine M engine).next s).consumers id).phase = .ended := by
  induction actions generalizing s queue with
  | nil =>
    have hnil : queue = [] := List.eq_nil_of_length_eq_zero (Nat.le_zero.mp hreads)
    have hended := ended_of_takes (h.streams id) hphase hqueue hemitted
    rw [hnil] at hended
    exact hended
  | cons a actions ih =>
    have hstays' : .cancel id ∉ actions := fun hmem => hstays (List.mem_cons_of_mem a hmem)
    have hnext : Inv M ((machine M engine).next s a) := h.next a
    rw [List.foldl_cons]
    by_cases ha : ofConsumer id a = true
    · cases a with
      | submit r => cases ha
      | iterate => cases ha
      | cancel i =>
        obtain rfl : i = id := of_decide_eq_true ha
        exact absurd List.mem_cons_self hstays
      | take i =>
        obtain rfl : i = id := of_decide_eq_true ha
        have htake : isTake i (ServiceAction.take i : ServiceAction R) = true := decide_eq_true rfl
        rw [List.countP_cons_of_pos htake] at hreads
        cases queue with
        | nil =>
          have hended := ended_of_takes (h.streams i) hphase hqueue hemitted
          exact ended_foldl hnext (ended_next h hended (.take i)) actions
        | cons item queue =>
          cases item with
          | token token =>
            have heq : (machine M engine).next s (.take i) =
                setConsumer { s with queues := s.queues.set i queue } i
                  { s.consumers i with
                    phase := .reading
                    received := (s.consumers i).received ++ [token] } := by
              change take s i = _
              rw [take, if_pos hphase, hqueue]
            rw [heq] at hnext ⊢
            refine ih hnext (.inr ?_) (Dict.get_set_self _ _ _) hemitted hstays' (by simpa using hreads)
            simp [setConsumer]
          | done =>
            apply ended_foldl hnext
            change ((take s i).consumers i).phase = .ended
            rw [take, if_pos hphase, hqueue]
            simp [setConsumer]
    · have hknown : M.known s.engine id := by
        refine Stream.known (h.streams id) ?_
        obtain hphase | hphase := hphase <;> rw [hphase] <;> decide
      have hother : ofConsumer id a = false := by simpa using ha
      obtain ⟨hc, hq, he⟩ := stream_frame engine h hknown hemitted hother
      have hcount : (a :: actions).countP (isTake id) = actions.countP (isTake id) := by
        apply List.countP_cons_of_neg
        cases a with
        | take i => exact ha
        | submit r => exact Bool.false_ne_true
        | iterate => exact Bool.false_ne_true
        | cancel i => exact Bool.false_ne_true
      rw [hcount] at hreads
      exact ih hnext (by rw [hc]; exact hphase) (hq.trans hqueue) (he.trans hemitted) hstays' hreads

end Engine

/-! ### Requests -/

section Requests

open EngineState

variable {W Q K G : Type} [Field K] [LinearOrder K] {E : Engine W Q K G} {rng : G}

/-- The requests that `submit` has accepted, in the order of their ids. -/
def accepted : List (ServiceAction (Request K)) → List (Request K)
  | [] => []
  | .submit request :: actions =>
    if request.prompt = [] then accepted actions else request :: accepted actions
  | .iterate :: actions => accepted actions
  | .take _ :: actions => accepted actions
  | .cancel _ :: actions => accepted actions

omit [Field K] [LinearOrder K] in
theorem accepted_append (actions actions' : List (ServiceAction (Request K))) :
    accepted (actions ++ actions') = accepted actions ++ accepted actions' := by
  induction actions with
  | nil => rfl
  | cons a actions ih =>
    cases a with
    | submit request =>
      simp only [List.cons_append, accepted, ih]
      split <;> rfl
    | iterate => exact ih
    | take id => exact ih
    | cancel id => exact ih

variable (E rng) in
/-- The service, from the start of its task over a new engine. -/
abbrev serving : Machine (Service (EngineState K G)) (ServiceAction (Request K)) :=
  machine E.served (E.create rng)

variable (E rng) in
/-- The engine behind the service is in a state that calls from one caller lead to. -/
theorem reachable_engine (allowed : EngineState K G → Engine.Action K → Prop)
    {actions : List (ServiceAction (Request K))} (hstep : ∀ s, allowed s .step)
    (hsubmit : ∀ request, .submit request ∈ actions → ∀ s, allowed s (.addRequest request)) :
    (E.machine rng).Reachable allowed ((serving E rng).run actions).engine := by
  induction actions using List.reverseRecOn with
  | nil => exact .start
  | append_singleton actions a ih =>
    have hreach := ih fun request hmem => hsubmit request (List.mem_append_left _ hmem)
    rw [Machine.run_concat]
    apply engine_next (inv_run (Engine.Inv.create rng) actions) hreach
    · exact .next hreach (hstep _)
    · intro request id e ha hadd
      subst ha
      have hnext := Machine.Reachable.next hreach (hsubmit request (by simp) _)
      have hfinal : (E.machine rng).next ((serving E rng).run actions).engine (.addRequest request) = e := by
        obtain ⟨hprompt, -, rfl⟩ := Engine.accept_eq_some hadd
        change finalState (Engine.addRequest request) _ = _
        rw [Engine.finalState_addRequest, if_neg hprompt]
      rwa [hfinal] at hnext

omit [Field K] [LinearOrder K] in
theorem accept_nil {s : EngineState K G} {request : Request K} (h : request.prompt = []) :
    Engine.accept s request = none := by
  cases hadd : Engine.accept s request with
  | none => rfl
  | some added =>
    obtain ⟨id, s'⟩ := added
    exact absurd h (Engine.accept_eq_some hadd).1

omit [Field K] [LinearOrder K] in
theorem accept_ne_nil {s : EngineState K G} {request : Request K} (h : request.prompt ≠ []) :
    Engine.accept s request = some (s.nextId, { s.setSequence s.nextId { request } with
      waiting := s.waiting ++ [s.nextId], nextId := s.nextId + 1 }) := by
  rw [Engine.accept, Engine.addRequest, if_neg h]
  rfl

/-- The engine has the accepted requests, in the order of their ids, and each of them has its stream. -/
structure Holds (s : Service (EngineState K G)) (requests : List (Request K)) : Prop where
  nextId : s.engine.nextId = requests.length
  request : ∀ id request, requests[id]? = some request → (s.engine.sequences id).request = request
  present : ∀ id < requests.length, (s.consumers id).phase ≠ .absent

namespace Holds

variable {s s' : Service (EngineState K G)} {requests : List (Request K)}

theorem submit (h : Holds s requests) (request : Request K) :
    Holds (submit E.served s request) (requests ++ accepted [.submit request]) := by
  by_cases hprompt : request.prompt = []
  · have hrejected : E.served.addRequest s.engine request = none := accept_nil hprompt
    rw [Server.submit, hrejected, accepted, if_pos hprompt, accepted, List.append_nil]
    exact h
  · have hadded : E.served.addRequest s.engine request = some (s.engine.nextId,
        { s.engine.setSequence s.engine.nextId { request } with
          waiting := s.engine.waiting ++ [s.engine.nextId], nextId := s.engine.nextId + 1 }) :=
      accept_ne_nil hprompt
    rw [Server.submit, hadded, accepted, if_neg hprompt, accepted]
    refine ⟨?_, fun id r hr => ?_, fun id hid => ?_⟩
    · rw [List.length_append, List.length_singleton, ← h.nextId]
    · change (Function.update s.engine.sequences s.engine.nextId { request } id).request = r
      have hlt := (List.getElem?_eq_some_iff.mp hr).1
      rw [List.length_append, List.length_singleton] at hlt
      obtain hid | hid := (Nat.le_of_lt_succ hlt).lt_or_eq
      · rw [List.getElem?_append_left hid] at hr
        rw [Function.update_of_ne (by rw [h.nextId]; exact hid.ne)]
        exact h.request id r hr
      · rw [hid, List.getElem?_concat_length, Option.some.injEq] at hr
        rw [hid, ← h.nextId, Function.update_self, hr]
    · change (Function.update s.consumers s.engine.nextId { phase := .idle } id).phase ≠ .absent
      by_cases hnew : id = s.engine.nextId
      · rw [hnew, Function.update_self]
        decide
      · rw [Function.update_of_ne hnew]
        rw [List.length_append, List.length_singleton, ← h.nextId] at hid
        exact h.present id (by rw [← h.nextId]; omega)

theorem iterate (h : Holds s requests) (hs : Inv E.served s) : Holds (iterate E.served s) requests := by
  obtain hengine | hengine := engine_iterate hs
  · refine ⟨by rw [hengine]; exact h.nextId, fun id r hr => ?_, fun id hid => ?_⟩
    · rw [hengine]
      exact h.request id r hr
    · rw [consumers_iterate hs]
      exact h.present id hid
  · refine ⟨?_, fun id r hr => ?_, fun id hid => ?_⟩
    · rw [hengine]
      exact (Engine.requests_step hs.valid).1.trans h.nextId
    · rw [hengine]
      exact ((Engine.requests_step hs.valid).2 id).trans (h.request id r hr)
    · rw [consumers_iterate hs]
      exact h.present id hid

omit [Field K] [LinearOrder K] in
theorem touched {id : Nat} (h : Holds s requests) (ht : Touched id s s')
    (hid : (s.consumers id).phase ≠ .absent → (s'.consumers id).phase ≠ .absent) : Holds s' requests := by
  refine ⟨by rw [ht.engine]; exact h.nextId, by rw [ht.engine]; exact h.request, fun i hi => ?_⟩
  by_cases hne : i = id
  · subst hne
    exact hid (h.present i hi)
  · rw [(ht.others i hne).1]
    exact h.present i hi

end Holds

theorem phase_cancel {S : Type} (s : Service S) (id : Nat) : (cancel s id).consumers id = s.consumers id ∨
    ((cancel s id).consumers id).phase = .cancelled := by
  rw [cancel]
  split
  · simp [setConsumer]
  split
  · simp [setConsumer]
  · exact .inl rfl

variable (E rng) in
theorem holds_run (actions : List (ServiceAction (Request K))) :
    Holds ((serving E rng).run actions) (accepted actions) := by
  induction actions using List.reverseRecOn with
  | nil => exact ⟨rfl, fun _ _ h => by simp [accepted] at h, fun _ h => absurd h (Nat.not_lt_zero _)⟩
  | append_singleton actions a ih =>
    have hinv := inv_run (M := E.served) (Engine.Inv.create rng) actions
    rw [Machine.run_concat, accepted_append]
    cases a with
    | submit request => exact ih.submit request
    | iterate =>
      rw [accepted, accepted, List.append_nil]
      exact ih.iterate hinv
    | take id =>
      rw [accepted, accepted, List.append_nil]
      refine ih.touched (touched_take id _) fun hphase => ?_
      obtain hsame | hopen := phase_take ((serving E rng).run actions) id
      · change ((take _ id).consumers id).phase ≠ .absent
        rw [hsame]
        exact hphase
      · exact hopen.1
    | cancel id =>
      rw [accepted, accepted, List.append_nil]
      refine ih.touched (touched_cancel id _) fun hphase => ?_
      obtain hsame | hopen := phase_cancel ((serving E rng).run actions) id
      · change ((cancel _ id).consumers id).phase ≠ .absent
        rw [hsame]
        exact hphase
      · change ((cancel _ id).consumers id).phase ≠ .absent
        rw [hopen]
        decide

theorem received_greedy (hmatch : E.model.Matches) {actions : List (ServiceAction (Request K))}
    (hknown : ∀ request, .submit request ∈ actions → ∀ t ∈ request.prompt, E.model.InVocab t)
    (hapart : E.Apart ((serving E rng).run actions).engine) {id : Nat} {request : Request K}
    (hid : (accepted actions)[id]? = some request) (hgreedy : request.params.temperature ≤ 0) :
    (((serving E rng).run actions).consumers id).received <+: request.greedyOutput E.model.forward ∧
      ((((serving E rng).run actions).consumers id).phase = .ended →
        (((serving E rng).run actions).consumers id).received = request.greedyOutput E.model.forward) := by
  have hholds := holds_run E rng actions
  have hrequest := hholds.request id request hid
  have hlt : id < ((serving E rng).run actions).engine.nextId := by
    rw [hholds.nextId]
    exact (List.getElem?_eq_some_iff.mp hid).1
  have hreach := reachable_engine E rng (Engine.KnownTokens E) (fun _ => trivial) (fun r hr _ => hknown r hr)
  have hout := Engine.seqGreedy_reachable hmatch hreach hapart hlt (by rw [hrequest]; exact hgreedy)
  rw [hrequest] at hout
  obtain ⟨hinv, hreceived⟩ := received_run (M := E.served) (Engine.Inv.create rng) actions
  refine ⟨?_, fun hended => ?_⟩
  · obtain hnone | ⟨-, hpart⟩ := hreceived id
    · rw [hnone]
      exact List.nil_prefix
    · exact hpart.trans hout.1
  · have hd := ((hinv.streams id).delivered (by rw [hended]; decide) (by rw [hended]; decide)).ended hended
    exact hd.2.trans (hout.2 (of_decide_eq_true hd.1))

/-- **A client gets what greedy decoding gives**, whatever the other clients do: what has been received and
what has been streamed are the first part of it, also when the client has gone away, and a stream that has
ended is all of it. The prefix cache may be on when the chain hash tells the chains of blocks apart. -/
theorem serves_greedily (hmatch : E.model.Matches) {actions : List (ServiceAction (Request K))}
    (hknown : ∀ request, .submit request ∈ actions → ∀ t ∈ request.prompt, E.model.InVocab t)
    (hapart : E.Apart ((serving E rng).run actions).engine) {id : Nat} {request : Request K}
    (hid : (accepted actions)[id]? = some request) (hgreedy : request.params.temperature ≤ 0) (llm : LLM) :
    (((serving E rng).run actions).consumers id).received <+: request.greedyOutput E.model.forward ∧
      (∀ chat, streamed llm chat (((serving E rng).run actions).consumers id).received <+:
        streamed llm chat (request.greedyOutput E.model.forward)) ∧
      ((((serving E rng).run actions).consumers id).phase = .ended →
        respond llm request.prompt (((serving E rng).run actions).consumers id).received =
          { text := llm.tokenizer.decode (request.greedyOutput E.model.forward)
            usage :=
              { promptTokens := request.prompt.length
                completionTokens := (request.greedyOutput E.model.forward).length
                totalTokens := request.prompt.length + (request.greedyOutput E.model.forward).length } }) := by
  obtain ⟨hpart, hended⟩ := received_greedy hmatch hknown hapart hid hgreedy
  refine ⟨hpart, fun chat => streamed_mono llm chat hpart, fun hphase => ?_⟩
  rw [hended hphase]
  rfl

def twoTokens : Request ℚ :=
  completions ⟨halves, fun _ => [1, 2], -1⟩ { prompt := "", maxTokens := 2, temperature := 0, topP := 1 }

def oneReply : Except Nat (Request ℚ) :=
  chatCompletions ⟨halves, fun _ => [2], -1⟩ (some ⟨fun _ => "", "assistant"⟩)
    { messages := [⟨"user", ""⟩], maxTokens := 1, temperature := 0, topP := 1 }

/-- The client of the chat goes away, and the other one gets its answer. -/
def twoClients : List (ServiceAction (Request ℚ)) :=
  [.submit twoTokens, .iterate] ++ oneReply.toOption.toList.map .submit ++
    [.take 0, .iterate, .cancel 1, .take 0, .take 0]

theorem submits_twoClients {r : Request ℚ} (hr : .submit r ∈ twoClients) :
    ∀ t ∈ r.prompt, (Engine.tiny false).model.InVocab t := by
  simp only [twoClients, oneReply, chatCompletions, Except.toOption, Option.toList_some, List.map_cons, List.map_nil,
    List.cons_append, List.nil_append, List.mem_cons, ServiceAction.submit.injEq, reduceCtorEq, List.not_mem_nil,
    or_false, false_or] at hr
  obtain rfl | rfl := hr
  · exact fun t ht => Model.tiny_inVocab ((by decide : ∀ t ∈ [1, 2], (0 : Int) ≤ t ∧ t < 3) t ht)
  · exact fun t ht => Model.tiny_inVocab ((by decide : ∀ t ∈ [2], (0 : Int) ≤ t ∧ t < 3) t ht)

theorem serves_greedily_twoClients :
    (respond ⟨halves, fun _ => [1, 2], -1⟩ twoTokens.prompt
        (((serving (Engine.tiny false) ()).run twoClients).consumers 0).received).text =
      halves.decode (twoTokens.greedyOutput (Engine.tiny false).model.forward) := by
  have hended : (((serving (Engine.tiny false) ()).run twoClients).consumers 0).phase = .ended := by
    decide +kernel
  have hid : (accepted twoClients)[0]? = some twoTokens := rfl
  have hgreedy : twoTokens.params.temperature ≤ 0 := le_rfl
  exact congrArg Response.text ((serves_greedily Model.tiny_matches (fun _ => submits_twoClients) (.inl rfl)
    hid hgreedy ⟨halves, fun _ => [1, 2], -1⟩).2.2 hended)

/-! ### Every stream comes to its end -/

/-- Whether an action is an iteration of the background task. -/
def isIterate : ServiceAction (Request K) → Bool
  | .iterate => true
  | .submit _ | .take _ | .cancel _ => false

/-- The background task has not ended, and it has completed the streams of the finished requests. -/
structure Healthy (s : Service (EngineState K G)) : Prop where
  loop : s.loop ≠ .engineError
  settled : ∀ id, (s.engine.sequences id).status = .finished → s.emitted.get id = none

namespace Healthy

variable {s s' : Service (EngineState K G)}

theorem submit (h : Healthy s) (request : Request K) : Healthy (submit E.served s request) := by
  by_cases hprompt : request.prompt = []
  · have hrejected : E.served.addRequest s.engine request = none := accept_nil hprompt
    rw [Server.submit, hrejected]
    exact h
  · have hadded : E.served.addRequest s.engine request = some (s.engine.nextId,
        { s.engine.setSequence s.engine.nextId { request } with
          waiting := s.engine.waiting ++ [s.engine.nextId], nextId := s.engine.nextId + 1 }) :=
      accept_ne_nil hprompt
    rw [Server.submit, hadded]
    refine ⟨h.loop, fun id hfinished => ?_⟩
    change (Function.update s.engine.sequences s.engine.nextId { request } id).status = .finished at hfinished
    have hne : id ≠ s.engine.nextId := by
      rintro rfl
      rw [Function.update_self] at hfinished
      cases hfinished
    rw [Function.update_of_ne hne] at hfinished
    exact (Dict.get_set_of_ne _ _ hne).trans (h.settled id hfinished)

theorem iterate (h : Healthy s) (hs : Inv E.served s)
    (hreturns : s.engine.hasWork = true → returns E.step s.engine = true) :
    Healthy (iterate E.served s) := by
  by_cases hrun : Runnable s
  · cases iterated hs.streams hrun with
    | blocked _ heq =>
      rw [heq]
      exact ⟨nofun, h.settled⟩
    | raised hwork hstep => simp [Engine.served, hreturns hwork] at hstep
    | stepped hwork hstep _ _ hloop =>
      refine ⟨by rw [hloop]; decide, fun id hfinished => ?_⟩
      exact emitted_of_finished hs hrun hwork hstep (decide_eq_true hfinished)
  · have hstay : ¬(s.loop = .ready ∨ (s.loop = .blocked ∧ s.wakeup = true)) := hrun
    rw [Server.iterate, if_neg hstay]
    exact h

omit [Field K] [LinearOrder K] in
theorem touched {id : Nat} (h : Healthy s) (ht : Touched id s s')
    (hid : s.emitted.get id = none → s'.emitted.get id = none) : Healthy s' := by
  refine ⟨by rw [ht.loop]; exact h.loop, fun i hfinished => ?_⟩
  rw [ht.engine] at hfinished
  by_cases hi : i = id
  · subst hi
    exact hid (h.settled i hfinished)
  · rw [(ht.others i hi).2.2]
    exact h.settled i hfinished

end Healthy

theorem emitted_take {S : Type} {s : Service S} {id : Nat} (h : s.emitted.get id = none) :
    (take s id).emitted.get id = none := by
  rw [take]
  split
  · split
    · exact h
    · exact h
    · exact h
    · exact Dict.get_pop_self _ _
  · exact h

theorem emitted_cancel {S : Type} {s : Service S} {id : Nat} (h : s.emitted.get id = none) :
    (cancel s id).emitted.get id = none := by
  rw [cancel]
  split
  · exact h
  split
  · exact Dict.get_pop_self _ _
  · exact h

/-- The submissions of `actions` are requests that fit the pool on their own. -/
def Submits (E : Engine W Q K G) (actions : List (ServiceAction (Request K))) : Prop :=
  ∀ request, .submit request ∈ actions → E.Admissible (.addRequest request)

theorem Submits.left {actions actions' : List (ServiceAction (Request K))} (h : Submits E (actions ++ actions')) :
    Submits E actions := fun request hmem => h request (List.mem_append_left _ hmem)

/-- The background task goes on: no exception has ended it, and it sleeps, with nobody about to wake it, only
when there is no work. -/
structure Alive (s : Service (EngineState K G)) : Prop where
  engineError : s.loop ≠ .engineError
  keyError : ∀ id, s.loop ≠ .keyError id
  idle : s.loop = .blocked → s.wakeup = false → s.engine.hasWork = false

theorem Healthy.alive {s : Service (EngineState K G)} (h : Healthy s) (hs : Inv E.served s) : Alive s :=
  ⟨h.loop, hs.no_keyError, hs.idle⟩

omit [Field K] [LinearOrder K] in
theorem work_le {s : Service (EngineState K G)} {requests : List (Request K)} (h : Holds s requests) :
    s.engine.work ≤ (requests.map Request.limit).sum := by
  have hsum : ∀ (requests : List (Request K)) (left : Nat → Nat),
      (∀ id request, requests[id]? = some request → left id ≤ request.limit) →
        ∑ id ∈ Finset.range requests.length, left id ≤ (requests.map Request.limit).sum := by
    intro requests left hle
    induction requests using List.reverseRecOn with
    | nil => exact Nat.le_refl 0
    | append_singleton requests request ih =>
      have hlast := hle requests.length request List.getElem?_concat_length
      have hinit := ih fun id r hr =>
        hle id r ((List.getElem?_append_left (List.getElem?_eq_some_iff.mp hr).1).trans hr)
      rw [List.length_append, List.length_singleton, Finset.sum_range_succ, List.map_append, List.sum_append,
        List.map_singleton, List.sum_singleton]
      exact Nat.add_le_add hinit hlast
  rw [EngineState.work, h.nextId]
  refine hsum requests _ fun id request hid => ?_
  rw [EngineSequence.left, h.request id request hid]
  split
  · exact Nat.zero_le _
  · exact Nat.sub_le _ _

variable (E rng) in
/-- Only a cancellation cancels a consumer. -/
theorem not_cancelled {actions : List (ServiceAction (Request K))} {id : Nat} (h : .cancel id ∉ actions) :
    (((serving E rng).run actions).consumers id).phase ≠ .cancelled := by
  induction actions using List.reverseRecOn with
  | nil => exact nofun
  | append_singleton actions a ih =>
    have hprev := ih fun hmem => h (List.mem_append_left _ hmem)
    have hs := inv_run (M := E.served) (Engine.Inv.create rng) actions
    rw [Machine.run_concat]
    cases a with
    | submit request =>
      change ((submit E.served _ request).consumers id).phase ≠ .cancelled
      rw [submit]
      split
      · exact hprev
      · rename_i new e _
        by_cases hnew : id = new
        · simp [hnew]
        · simp only [Function.update_of_ne hnew]
          exact hprev
    | iterate =>
      change ((iterate E.served _).consumers id).phase ≠ .cancelled
      rw [consumers_iterate hs]
      exact hprev
    | take i =>
      change ((take _ i).consumers id).phase ≠ .cancelled
      by_cases hi : id = i
      · subst hi
        obtain hsame | hopen := phase_take ((serving E rng).run actions) id
        · rw [hsame]
          exact hprev
        · exact hopen.2
      · rw [((touched_take i _).others id hi).1]
        exact hprev
    | cancel i =>
      change ((cancel _ i).consumers id).phase ≠ .cancelled
      have hi : id ≠ i := by
        rintro rfl
        exact h (List.mem_append_right _ List.mem_cons_self)
      rw [((touched_cancel i _).others id hi).1]
      exact hprev

section Live

variable (rng)
variable (hM : E.model.Complete) (hmatch : E.model.Matches)
include hM hmatch

theorem admissible_run {actions : List (ServiceAction (Request K))} (hadm : Submits E actions) :
    Engine.Inv E ((serving E rng).run actions).engine ∧ Engine.Ready E ((serving E rng).run actions).engine ∧
      Engine.Within E ((serving E rng).run actions).engine :=
  Engine.admissible_reachable hM hmatch (reachable_engine E rng (fun _ a => E.Admissible a)
    (fun _ => trivial) (fun request hmem _ => hadm request hmem))

theorem healthy_run {actions : List (ServiceAction (Request K))} (hadm : Submits E actions) :
    Healthy ((serving E rng).run actions) := by
  induction actions using List.reverseRecOn with
  | nil => exact ⟨nofun, fun id h => by cases h⟩
  | append_singleton actions a ih =>
    have h := ih hadm.left
    rw [Machine.run_concat]
    cases a with
    | submit request => exact h.submit request
    | iterate =>
      obtain ⟨hI, hR, -⟩ := admissible_run rng hM hmatch hadm.left
      exact h.iterate (inv_run (M := E.served) (Engine.Inv.create rng) actions)
        fun _ => Engine.returns_step hM hmatch hI hR
    | take id => exact h.touched (touched_take id _) emitted_take
    | cancel id => exact h.touched (touched_cancel id _) emitted_cancel

omit hM hmatch in
/-- While there is work the background task goes on. -/
theorem engine_iterate_of_hasWork {s : Service (EngineState K G)} (hs : Inv E.served s) (h : Healthy s)
    (hwork : s.engine.hasWork = true) : (iterate E.served s).engine = finalState E.step s.engine := by
  have hrun : Runnable s := by
    cases hloop : s.loop with
    | ready => exact .inl hloop
    | blocked =>
      refine .inr ⟨hloop, ?_⟩
      by_contra hwakeup
      have hidle : s.engine.hasWork = false := hs.idle hloop (by simpa using hwakeup)
      rw [hwork] at hidle
      cases hidle
    | engineError => exact absurd hloop h.loop
    | keyError id => exact absurd hloop (hs.no_keyError id)
  cases iterated hs.streams hrun with
  | blocked hidle =>
    have hidle : s.engine.hasWork = false := hidle
    rw [hwork] at hidle
    cases hidle
  | raised _ _ heq => rw [heq]; rfl
  | stepped _ _ hengine => exact hengine

/-- Without submissions every iteration takes work off, until there is none. -/
theorem less_next (hcache : E.prefixCache = false) (hmax : 1 ≤ E.maxBatch) {s : Service (EngineState K G)}
    (hs : Inv E.served s) (hhealthy : Healthy s) (hI : Engine.Inv E s.engine) (hR : Engine.Ready E s.engine)
    (hW : Engine.Within E s.engine) {a : ServiceAction (Request K)} (ha : ∀ request, a ≠ .submit request)
    {n bound : Nat} (h : s.engine.hasWork = false ∨ s.engine.work + n ≤ bound) :
    ((serving E rng).next s a).engine.hasWork = false ∨
      ((serving E rng).next s a).engine.work + (n + if isIterate a then 1 else 0) ≤ bound := by
  cases a with
  | submit request => exact absurd rfl (ha request)
  | iterate =>
    change (iterate E.served s).engine.hasWork = false ∨ (iterate E.served s).engine.work + (n + 1) ≤ bound
    cases hwork : s.engine.hasWork with
    | true =>
      have hless := h.resolve_left (by rw [hwork]; decide)
      have hcan := (Engine.canProgress_iff hI).mpr
        (Engine.progress_of_uncached hmax hI hW (hR.uncached hcache) hwork)
      have hlt := (Engine.stepped hM hmatch hI hR hW).work_lt hcan
      rw [engine_iterate_of_hasWork hs hhealthy hwork]
      right
      omega
    | false =>
      left
      obtain hsame | hstep := engine_iterate hs
      · rw [hsame]
        exact hwork
      · have hrest : (E.served.step s.engine).2 = finalState E.step s.engine := rfl
        rw [hstep, hrest, Engine.step_of_not_hasWork (by rw [hwork]; decide)]
        exact hwork
  | take id =>
    change (take s id).engine.hasWork = false ∨ (take s id).engine.work + (n + 0) ≤ bound
    rw [(touched_take id s).engine]
    exact h
  | cancel id =>
    change (cancel s id).engine.hasWork = false ∨ (cancel s id).engine.work + (n + 0) ≤ bound
    rw [(touched_cancel id s).engine]
    exact h

theorem idle_or_less (hcache : E.prefixCache = false) (hmax : 1 ≤ E.maxBatch)
    {actions more : List (ServiceAction (Request K))} (hadm : Submits E actions)
    (hquiet : ∀ request, .submit request ∉ more) :
    ((serving E rng).run (actions ++ more)).engine.hasWork = false ∨
      ((serving E rng).run (actions ++ more)).engine.work + more.countP isIterate ≤
        ((serving E rng).run actions).engine.work := by
  induction more using List.reverseRecOn with
  | nil =>
    right
    rw [List.append_nil, List.countP_nil, Nat.add_zero]
  | append_singleton more a ih =>
    have hprev := ih fun request hmem => hquiet request (List.mem_append_left _ hmem)
    have hadm' : Submits E (actions ++ more) := by
      intro request hmem
      obtain hmem | hmem := List.mem_append.mp hmem
      · exact hadm request hmem
      · exact absurd (List.mem_append_left _ hmem) (hquiet request)
    have ha : ∀ request, a ≠ .submit request := by
      rintro request rfl
      exact hquiet request (List.mem_append_right _ List.mem_cons_self)
    obtain ⟨hI, hR, hW⟩ := admissible_run rng hM hmatch hadm'
    rw [← List.append_assoc, Machine.run_concat, List.countP_append, List.countP_singleton]
    exact less_next rng hM hmatch hcache hmax (inv_run (M := E.served) (Engine.Inv.create rng) _)
      (healthy_run rng hM hmatch hadm') hI hR hW ha hprev

/-- As many iterations as there are tokens to come, and there is no work left. -/
theorem idle_run (hcache : E.prefixCache = false) (hmax : 1 ≤ E.maxBatch)
    {actions more : List (ServiceAction (Request K))} (hadm : Submits E actions)
    (hquiet : ∀ request, .submit request ∉ more)
    (hsteps : ((accepted actions).map Request.limit).sum ≤ more.countP isIterate) :
    ((serving E rng).run (actions ++ more)).engine.hasWork = false := by
  obtain hidle | hless := idle_or_less rng hM hmatch hcache hmax hadm hquiet
  · exact hidle
  have hwork := work_le (holds_run E rng actions)
  have hadm' : Submits E (actions ++ more) := by
    intro request hmem
    obtain hmem | hmem := List.mem_append.mp hmem
    · exact hadm request hmem
    · exact absurd hmem (hquiet request)
  obtain ⟨hI, -, hW⟩ := admissible_run rng hM hmatch hadm'
  rw [← Bool.not_eq_true]
  intro hbusy
  have := Engine.work_pos hI hW.short hbusy
  omega

/-- **Every stream comes to its end.** Without the prefix cache, once the background task has gone round as
often as the accepted requests ask for tokens, a consumer that takes more items than its request has tokens
has ended, whatever happens in between, with the whole output: for a greedy request the one of plain greedy
decoding. -/
theorem every_stream_ends (hcache : E.prefixCache = false) (hmax : 1 ≤ E.maxBatch)
    {actions quiet more : List (ServiceAction (Request K))} (hadm : Submits E (actions ++ quiet ++ more))
    (hquiet : ∀ request, .submit request ∉ quiet)
    (hsteps : ((accepted actions).map Request.limit).sum ≤ quiet.countP isIterate)
    {id : Nat} {request : Request K} (hid : (accepted actions)[id]? = some request)
    (hstays : .cancel id ∉ actions ++ quiet ++ more) (hreads : request.limit < more.countP (isTake id)) :
    (∀ done, done <+: actions ++ quiet ++ more → Alive ((serving E rng).run done)) ∧
      (((serving E rng).run (actions ++ quiet ++ more)).consumers id).phase = .ended ∧
      (((serving E rng).run (actions ++ quiet ++ more)).consumers id).received =
        (((serving E rng).run (actions ++ quiet ++ more)).engine.sequences id).output ∧
      (request.params.temperature ≤ 0 →
        (((serving E rng).run (actions ++ quiet ++ more)).consumers id).received =
          request.greedyOutput E.model.forward) := by
  have hlt := (List.getElem?_eq_some_iff.mp hid).1
  have hidAll : ∀ actions', (accepted (actions ++ actions'))[id]? = some request := by
    intro actions'
    rw [accepted_append, List.getElem?_append_left hlt]
    exact hid
  have hended : (((serving E rng).run (actions ++ quiet ++ more)).consumers id).phase = .ended := by
    have hs := inv_run (M := E.served) (Engine.Inv.create rng) (actions ++ quiet)
    have hidle := idle_run rng hM hmatch hcache hmax hadm.left.left hquiet hsteps
    have hholds := holds_run E rng (actions ++ quiet)
    have hreach := reachable_engine E rng (fun _ a => E.Admissible a)
      (fun _ => trivial) (fun request hmem _ => hadm.left request hmem)
    have hknown : id < ((serving E rng).run (actions ++ quiet)).engine.nextId := by
      rw [hholds.nextId, accepted_append, List.length_append]
      omega
    have hfinished := Engine.finished_of_idle hs.valid hidle hknown
    have hemitted := (healthy_run rng hM hmatch hadm.left).settled id hfinished
    have hlength : (((serving E rng).run (actions ++ quiet)).engine.sequences id).output.length ≤
        request.limit := by
      rw [← hholds.request id request (hidAll quiet)]
      exact EngineSequence.Stopping.length_le (Engine.stopping_reachable hreach id hknown)
    have hpresent := hholds.present id (List.getElem?_eq_some_iff.mp (hidAll quiet)).1
    have hopen := not_cancelled E rng fun hmem => hstays (List.mem_append_left more hmem)
    have hfold : (serving E rng).run (actions ++ quiet ++ more) =
        more.foldl (serving E rng).next ((serving E rng).run (actions ++ quiet)) := List.foldl_append
    rw [hfold]
    have hat := hs.streams id
    rw [At, hemitted] at hat
    generalize hq : ((serving E rng).run (actions ++ quiet)).queues.get id = queue at hat
    cases hat with
    | absent hphase => exact absurd hphase hpresent
    | dropped _ hphase => exact absurd hphase hopen
    | abandoned _ hphase => exact absurd hphase hopen
    | ended _ hphase _ _ _ => exact ended_foldl hs hphase more
    | @complete queue _ hphase _ _ hitems =>
      have hqueue : queue.length ≤ request.limit + 1 := by
        have hlen := congrArg List.length hitems
        rw [List.length_append, List.length_append, List.length_map, List.length_map, List.length_singleton]
          at hlen
        exact (Nat.le_add_left _ _).trans (hlen.trans_le (Nat.succ_le_succ hlength))
      exact ended_of_reads hs hphase hq hemitted (fun hmem => hstays (List.mem_append_right _ hmem))
        (hqueue.trans hreads)
  have hs := inv_run (M := E.served) (Engine.Inv.create rng) (actions ++ quiet ++ more)
  have hdelivered := ((hs.streams id).delivered (by rw [hended]; decide) (by rw [hended]; decide)).ended hended
  have halive : ∀ done, done <+: actions ++ quiet ++ more → Alive ((serving E rng).run done) := by
    intro done hdone
    obtain ⟨rest, hrest⟩ := hdone
    have hsubmits : Submits E done := (hrest ▸ hadm).left
    exact (healthy_run rng hM hmatch hsubmits).alive (inv_run (M := E.served) (Engine.Inv.create rng) done)
  refine ⟨halive, hended, hdelivered.2, fun hgreedy => ?_⟩
  rw [List.append_assoc] at hended ⊢
  refine (received_greedy hmatch (fun r hr => ?_) (.inl hcache) (hidAll _) hgreedy).2 hended
  rw [← List.append_assoc] at hr
  exact (hadm r hr).1

end Live

/-- Two requests, one of which is given up, and turns enough for both. -/
def twoStreams : List (ServiceAction (Request ℚ)) × List (ServiceAction (Request ℚ)) ×
    List (ServiceAction (Request ℚ)) :=
  ([.submit (Engine.greedyRequest [2] 1), .submit (Engine.greedyRequest [1, 2] 2), .iterate],
    [.cancel 0, .take 1, .iterate, .iterate, .iterate], [.take 1, .iterate, .take 1, .take 1])

theorem every_stream_ends_twoStreams :
    (∀ done, done <+: twoStreams.1 ++ twoStreams.2.1 ++ twoStreams.2.2 →
      Alive ((serving (Engine.tiny false) ()).run done)) ∧
      (((serving (Engine.tiny false) ()).run (twoStreams.1 ++ twoStreams.2.1 ++ twoStreams.2.2)).consumers 1).phase =
        .ended := by
  have hadm : Submits (Engine.tiny false) (twoStreams.1 ++ twoStreams.2.1 ++ twoStreams.2.2) := by
    intro r hr
    simp only [twoStreams, List.cons_append, List.nil_append, List.mem_cons, ServiceAction.submit.injEq, reduceCtorEq,
      List.not_mem_nil, or_false] at hr
    obtain rfl | rfl := hr
    · exact Engine.admissible_tiny false (by decide) (by decide)
    · exact Engine.admissible_tiny false (by decide) (by decide)
  have hquiet : ∀ request, .submit request ∉ twoStreams.2.1 := by simp [twoStreams]
  have hsteps : ((accepted twoStreams.1).map Request.limit).sum ≤ twoStreams.2.1.countP isIterate := by decide
  have hid : (accepted twoStreams.1)[1]? = some (Engine.greedyRequest [1, 2] 2) := rfl
  have hstays : .cancel 1 ∉ twoStreams.1 ++ twoStreams.2.1 ++ twoStreams.2.2 := by simp [twoStreams]
  have hreads : (Engine.greedyRequest [1, 2] 2).limit < twoStreams.2.2.countP (isTake 1) := by decide
  obtain ⟨halive, hended, -⟩ := every_stream_ends () Model.tiny_complete Model.tiny_matches rfl (by decide) hadm hquiet
    hsteps hid hstays hreads
  exact ⟨halive, hended⟩

end Requests

end Server

end InferenceEngine
