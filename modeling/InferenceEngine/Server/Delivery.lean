import InferenceEngine.Server.Served

/-!
# Exactly-once delivery

What a consumer has received and what its queue holds are together the output of its request up to the
number emitted, and once the request is finished the whole output and one `done`. The actions are described
stream by stream, so that every interleaving keeps this, and a consumer that goes away leaves the other
streams as they are.
-/

namespace InferenceEngine

open Exec

namespace Server

variable {E R : Type} (M : ServedEngine E R)

/-! ### Fanning out -/

/-- The queue and the counter of a request after `_run` has put its new tokens into the queue. -/
def fanned (e : E) (id : Nat) : Option (List Item) → Option Nat → Option (List Item) × Option Nat
  | some queue, some start =>
    (some (queue ++ ((M.output e id).drop start).map .token ++
        if M.finished e id then [.done] else []),
      if M.finished e id then none else some (M.output e id).length)
  | queue, start => (queue, start)

/-- The requests `ids` have been fanned out. -/
structure Fanned (ids : List Nat) (s s' : Service E) : Prop where
  engine : s'.engine = s.engine
  wakeup : s'.wakeup = s.wakeup
  loop : s'.loop = s.loop
  consumers : s'.consumers = s.consumers
  mem : ∀ id ∈ ids, (s'.queues.get id, s'.emitted.get id) =
    fanned M s.engine id (s.queues.get id) (s.emitted.get id)
  others : ∀ id, id ∉ ids → s'.queues.get id = s.queues.get id ∧ s'.emitted.get id = s.emitted.get id

/-- Only the queue of `id` has changed. -/
structure QueueSet (id : Nat) (queue : List Item) (s s' : Service E) : Prop where
  engine : s'.engine = s.engine
  wakeup : s'.wakeup = s.wakeup
  loop : s'.loop = s.loop
  consumers : s'.consumers = s.consumers
  emitted : s'.emitted = s.emitted
  get_self : s'.queues.get id = some queue
  get_of_ne : ∀ i, i ≠ id → s'.queues.get i = s.queues.get i

theorem wp_putItem {s : Service E} {id : Nat} {queue : List Item} (h : s.queues.get id = some queue)
    (item : Item) : wp (putItem id item) (fun _ s' => QueueSet id (queue ++ [item]) s s')
      (fun _ _ => False) s := by
  simp only [putItem, wp_bind, wp_get, h, wp_modify]
  exact ⟨rfl, rfl, rfl, rfl, rfl, Dict.get_set_self _ _ _, fun i hi => Dict.get_set_of_ne _ _ hi⟩

theorem wp_putItems {s : Service E} {id : Nat} (tokens : List Int) {queue : List Item}
    (h : s.queues.get id = some queue) :
    wp (forM tokens fun token => putItem id (.token token))
      (fun _ s' => QueueSet id (queue ++ tokens.map .token) s s') (fun _ _ => False) s := by
  induction tokens generalizing s queue with
  | nil =>
    simp only [List.forM_nil, wp_pure, List.map_nil, List.append_nil]
    exact ⟨rfl, rfl, rfl, rfl, rfl, h, fun _ _ => rfl⟩
  | cons token tokens ih =>
    rw [List.forM_cons, wp_bind]
    apply wp_mono (wp_putItem h (.token token)) _ (fun _ _ h => h)
    intro _ t ht
    apply wp_mono (ih ht.get_self) _ (fun _ _ h => h)
    intro _ u hu
    refine ⟨hu.engine.trans ht.engine, hu.wakeup.trans ht.wakeup, hu.loop.trans ht.loop,
      hu.consumers.trans ht.consumers, hu.emitted.trans ht.emitted, ?_, ?_⟩
    · rw [hu.get_self, List.append_assoc]
      rfl
    · intro i hi
      rw [hu.get_of_ne i hi, ht.get_of_ne i hi]

theorem wp_fanOut {s : Service E} {id start : Nat} {queue : List Item}
    (hqueue : s.queues.get id = some queue) (hstart : s.emitted.get id = some start) :
    wp (fanOut M id) (fun _ s' => Fanned M [id] s s') (fun _ _ => False) s := by
  simp only [fanOut, wp_bind, wp_get, hstart]
  apply wp_mono (wp_putItems ((M.output s.engine id).drop start) hqueue) _ (fun _ _ h => h)
  intro _ t ht
  have hframe : ∀ i, i ∉ [id] → i ≠ id := fun i hi => by simpa using hi
  rw [wp_modify]
  by_cases hfin : M.finished s.engine id = true
  · rw [if_pos hfin, wp_bind]
    apply wp_mono (wp_putItem (s := { t with emitted := t.emitted.set id (M.output s.engine id).length })
      ht.get_self .done) _ (fun _ _ h => h)
    intro _ u hu
    rw [wp_modify]
    refine ⟨hu.engine.trans ht.engine, hu.wakeup.trans ht.wakeup, hu.loop.trans ht.loop,
      hu.consumers.trans ht.consumers, ?_, ?_⟩
    · intro i hi
      rw [List.mem_singleton.mp hi]
      simp only [hu.get_self, Dict.get_pop_self, fanned, hqueue, hstart, if_pos hfin]
    · intro i hi
      have hne := hframe i hi
      refine ⟨(hu.get_of_ne i hne).trans (ht.get_of_ne i hne), ?_⟩
      change (u.emitted.pop id).get i = _
      rw [Dict.get_pop_of_ne _ hne, hu.emitted]
      change (t.emitted.set id _).get i = _
      rw [Dict.get_set_of_ne _ _ hne, ht.emitted]
  · rw [if_neg hfin, wp_pure]
    refine ⟨ht.engine, ht.wakeup, ht.loop, ht.consumers, ?_, ?_⟩
    · intro i hi
      rw [List.mem_singleton.mp hi]
      simp only [ht.get_self, Dict.get_set_self, fanned, hqueue, hstart, if_neg hfin, List.append_nil]
    · intro i hi
      have hne := hframe i hi
      refine ⟨ht.get_of_ne i hne, ?_⟩
      change (t.emitted.set id _).get i = _
      rw [Dict.get_set_of_ne _ _ hne, ht.emitted]

theorem wp_fanOuts {ids : List Nat} (hnodup : ids.Nodup) {s : Service E}
    (h : ∀ id ∈ ids, (s.queues.get id).isSome ∧ (s.emitted.get id).isSome) :
    wp (forM ids (fanOut M)) (fun _ s' => Fanned M ids s s') (fun _ _ => False) s := by
  induction ids generalizing s with
  | nil =>
    rw [List.forM_nil, wp_pure]
    exact ⟨rfl, rfl, rfl, rfl, fun _ hi => absurd hi List.not_mem_nil, fun _ _ => ⟨rfl, rfl⟩⟩
  | cons id ids ih =>
    obtain ⟨hnew, hnodup⟩ := List.nodup_cons.mp hnodup
    obtain ⟨⟨queue, hqueue⟩, start, hstart⟩ := (h id List.mem_cons_self).imp Option.isSome_iff_exists.mp
      Option.isSome_iff_exists.mp
    rw [List.forM_cons, wp_bind]
    apply wp_mono (wp_fanOut M hqueue hstart) _ (fun _ _ h => h)
    intro _ t ht
    have hrest : ∀ i ∈ ids, t.queues.get i = s.queues.get i ∧ t.emitted.get i = s.emitted.get i :=
      fun i hi => ht.others i (by simpa using fun heq : i = id => hnew (heq ▸ hi))
    apply wp_mono (ih hnodup fun i hi => ?_) _ (fun _ _ h => h)
    · intro _ u hu
      refine ⟨hu.engine.trans ht.engine, hu.wakeup.trans ht.wakeup, hu.loop.trans ht.loop,
        hu.consumers.trans ht.consumers, ?_, ?_⟩
      · intro i hi
        obtain rfl | hi := List.mem_cons.mp hi
        · obtain ⟨hq, he⟩ := hu.others i hnew
          rw [hq, he, ht.mem i (List.mem_singleton_self i)]
        · rw [hu.mem i hi, ht.engine, (hrest i hi).1, (hrest i hi).2]
      · intro i hi
        obtain ⟨hne, hi⟩ := not_or.mp (mt List.mem_cons.mpr hi)
        obtain ⟨hq, he⟩ := hu.others i hi
        obtain ⟨hq', he'⟩ := ht.others i (by simpa using hne)
        exact ⟨hq.trans hq', he.trans he'⟩
    · rw [(hrest i hi).1, (hrest i hi).2]
      exact h i (List.mem_cons_of_mem id hi)

/-! ### One stream -/

/-- Where the stream `id` stands: its consumer, its queue and its counter. -/
inductive Stream (e : E) (id : Nat) : Consumer → Option (List Item) → Option Nat → Prop
  | absent {c : Consumer} (hphase : c.phase = .absent) : Stream e id c none none
  | running {c : Consumer} {queue : List Item} {n : Nat} (hknown : M.known e id)
    (hphase : c.phase = .idle ∨ c.phase = .reading) (hdones : c.dones = 0) (hle : n ≤ (M.output e id).length)
    (hitems : c.received.map .token ++ queue = ((M.output e id).take n).map .token) :
    Stream e id c (some queue) (some n)
  | complete {c : Consumer} {queue : List Item} (hknown : M.known e id)
    (hphase : c.phase = .idle ∨ c.phase = .reading) (hdones : c.dones = 0)
    (hfinished : M.finished e id = true)
    (hitems : c.received.map .token ++ queue = (M.output e id).map .token ++ [.done]) :
    Stream e id c (some queue) none
  | ended {c : Consumer} (hknown : M.known e id) (hphase : c.phase = .ended) (hdones : c.dones = 1)
    (hfinished : M.finished e id = true) (hreceived : c.received = M.output e id) :
    Stream e id c none none
  | dropped {c : Consumer} (hknown : M.known e id) (hphase : c.phase = .cancelled) :
    Stream e id c none none
  | abandoned {c : Consumer} {queue : List Item} {start : Option Nat} (hknown : M.known e id)
    (hphase : c.phase = .cancelled) : Stream e id c (some queue) start

namespace Stream

variable {M} {e : E} {id : Nat} {c : Consumer} {queue : Option (List Item)} {start : Option Nat}

/-- The step of the engine: an output grows, and a finished one stays. -/
theorem step (hvalid : M.valid e) (h : Stream M e id c queue start) :
    Stream M (M.step e).2 id c queue start := by
  cases h with
  | absent hphase => exact .absent hphase
  | running hknown hphase hdones hle hitems =>
    have hgrows := M.output_step e id hvalid hknown
    refine .running (M.known_step e id hvalid hknown) hphase hdones
      (Nat.le_trans hle hgrows.length_le) ?_
    obtain ⟨more, hmore⟩ := hgrows
    rw [hitems, ← hmore, List.take_append_of_le_length hle]
  | complete hknown hphase hdones hfinished hitems =>
    obtain ⟨hfin, hout⟩ := M.finished_step e id hvalid hknown hfinished
    exact .complete (M.known_step e id hvalid hknown) hphase hdones hfin (by rw [hout]; exact hitems)
  | ended hknown hphase hdones hfinished hreceived =>
    obtain ⟨hfin, hout⟩ := M.finished_step e id hvalid hknown hfinished
    exact .ended (M.known_step e id hvalid hknown) hphase hdones hfin (by rw [hout]; exact hreceived)
  | dropped hknown hphase => exact .dropped (M.known_step e id hvalid hknown) hphase
  | abandoned hknown hphase => exact .abandoned (M.known_step e id hvalid hknown) hphase

theorem add {r : R} {new : Nat} {e' : E} (hvalid : M.valid e) (hadd : M.addRequest e r = some (new, e'))
    (h : Stream M e id c queue start) : Stream M e' id c queue start := by
  have hframe := M.addRequest_frame e r new e' hvalid hadd id
  cases h with
  | absent hphase => exact .absent hphase
  | running hknown hphase hdones hle hitems =>
    obtain ⟨hknown', hout, -⟩ := hframe hknown
    rw [← hout] at hle hitems
    exact .running hknown' hphase hdones hle hitems
  | complete hknown hphase hdones hfinished hitems =>
    obtain ⟨hknown', hout, hfin⟩ := hframe hknown
    rw [← hout] at hitems
    exact .complete hknown' hphase hdones (hfin.trans hfinished) hitems
  | ended hknown hphase hdones hfinished hreceived =>
    obtain ⟨hknown', hout, hfin⟩ := hframe hknown
    exact .ended hknown' hphase hdones (hfin.trans hfinished) (hreceived.trans hout.symm)
  | dropped hknown hphase => exact .dropped (hframe hknown).1 hphase
  | abandoned hknown hphase => exact .abandoned (hframe hknown).1 hphase

/-- Fanning out puts the tokens from the counter on into the queue, and `done` after the last one. -/
theorem fanned (h : Stream M e id c queue start) :
    Stream M e id c (Server.fanned M e id queue start).1 (Server.fanned M e id queue start).2 := by
  cases h with
  | absent hphase => exact .absent hphase
  | @running queue n hknown hphase hdones hle hitems =>
    have hall : c.received.map Item.token ++ (queue ++ ((M.output e id).drop n).map .token) =
        (M.output e id).map .token := by
      rw [← List.append_assoc, hitems, ← List.map_append, List.take_append_drop]
    by_cases hfin : M.finished e id = true
    · simp only [Server.fanned, if_pos hfin]
      refine .complete hknown hphase hdones hfin ?_
      rw [← List.append_assoc, hall]
    · simp only [Server.fanned, if_neg hfin, List.append_nil]
      refine .running hknown hphase hdones (Nat.le_refl _) ?_
      rw [hall, List.take_length]
  | complete hknown hphase hdones hfinished hitems => exact .complete hknown hphase hdones hfinished hitems
  | ended hknown hphase hdones hfinished hreceived => exact .ended hknown hphase hdones hfinished hreceived
  | dropped hknown hphase => exact .dropped hknown hphase
  | @abandoned queue start hknown hphase =>
    cases start with
    | none => exact .abandoned hknown hphase
    | some n => exact .abandoned hknown hphase

theorem isSome_queue (h : Stream M e id c queue start) (hstart : start.isSome) : queue.isSome := by
  cases h <;> simp_all

theorem known (h : Stream M e id c queue start) (hphase : c.phase ≠ .absent) : M.known e id := by
  cases h <;> first | assumption | exact absurd ‹_› hphase

end Stream

/-! ### Every interleaving -/

/-- The stream `id` of a service. -/
def At (s : Service E) (id : Nat) : Prop :=
  Stream M s.engine id (s.consumers id) (s.queues.get id) (s.emitted.get id)

/-- What one iteration of `_run` does. -/
inductive Iterated (s s' : Service E) : Prop
  | blocked (hwork : M.hasWork s.engine = false) (h : s' = { s with wakeup := false, loop := .blocked })
  | raised (hwork : M.hasWork s.engine = true) (hstep : (M.step s.engine).1 = false)
    (h : s' = { s with engine := (M.step s.engine).2, loop := .engineError })
  | stepped (hwork : M.hasWork s.engine = true) (hstep : (M.step s.engine).1 = true)
    (hengine : s'.engine = (M.step s.engine).2) (hwakeup : s'.wakeup = s.wakeup) (hloop : s'.loop = .ready)
    (hconsumers : s'.consumers = s.consumers)
    (hstreams : ∀ id, (s'.queues.get id, s'.emitted.get id) =
      fanned M s'.engine id (s.queues.get id) (s.emitted.get id))

/-- Whether the background task can go on. -/
def Runnable (s : Service E) : Prop := s.loop = .ready ∨ (s.loop = .blocked ∧ s.wakeup = true)

variable {M}

theorem fanned_none (e : E) (id : Nat) (queue : Option (List Item)) :
    fanned M e id queue none = (queue, none) := by
  cases queue <;> rfl

theorem iterated {s : Service E} (h : ∀ id, At M s id) (hrun : Runnable s) :
    Iterated M s (iterate M s) := by
  have hwp : wp (iteration M) (fun _ s' => Iterated M s s')
      (fun loop s' => Iterated M s { s' with loop }) { s with loop := .ready } := by
    simp only [iteration, wp_bind, wp_get]
    by_cases hwork : M.hasWork s.engine = true
    · rw [if_pos hwork, wp_bind, wp_set]
      by_cases hstep : (M.step s.engine).1 = true
      · rw [if_pos hstep]
        have hsome : ∀ id ∈ s.emitted.keys, (s.queues.get id).isSome ∧ (s.emitted.get id).isSome :=
          fun id hid => ⟨(h id).isSome_queue (Dict.mem_keys.mp hid), Dict.mem_keys.mp hid⟩
        apply wp_mono (wp_fanOuts M (s := { s with engine := (M.step s.engine).2, loop := .ready })
          s.emitted.nodup hsome) _ (fun _ _ h => h.elim)
        intro _ s' hs'
        refine .stepped hwork hstep hs'.engine hs'.wakeup hs'.loop hs'.consumers ?_
        intro id
        rw [hs'.engine]
        by_cases hid : id ∈ s.emitted.keys
        · exact hs'.mem id hid
        · obtain ⟨hqueue, hemitted⟩ := hs'.others id hid
          rw [hqueue, hemitted]
          change (s.queues.get id, s.emitted.get id) = _
          rw [Dict.get_eq_none hid, fanned_none]
      · rw [if_neg hstep, wp_throw]
        exact .raised hwork (by simpa using hstep) rfl
    · rw [if_neg hwork, wp_set]
      exact .blocked (by simpa using hwork) rfl
  have hgo : s.loop = .ready ∨ (s.loop = .blocked ∧ s.wakeup = true) := hrun
  rw [iterate, if_pos hgo]
  rw [wp_iff] at hwp
  split
  · exact hwp.1 _ _ ‹_›
  · exact hwp.2 _ _ ‹_›

/-- The stream `id` alone has changed. -/
structure Touched (id : Nat) (s s' : Service E) : Prop where
  engine : s'.engine = s.engine
  wakeup : s'.wakeup = s.wakeup
  loop : s'.loop = s.loop
  others : ∀ i, i ≠ id → s'.consumers i = s.consumers i ∧ s'.queues.get i = s.queues.get i ∧
    s'.emitted.get i = s.emitted.get i

theorem Touched.refl (id : Nat) (s : Service E) : Touched id s s :=
  ⟨rfl, rfl, rfl, fun _ _ => ⟨rfl, rfl, rfl⟩⟩

theorem Touched.setConsumer {id : Nat} {s s' : Service E} (h : Touched id s s') (c : Consumer) :
    Touched id s (setConsumer s' id c) :=
  ⟨h.engine, h.wakeup, h.loop, fun i hi =>
    ⟨(Function.update_of_ne hi _ _).trans (h.others i hi).1, (h.others i hi).2⟩⟩

theorem touched_cleanup (id : Nat) (s : Service E) : Touched id s (cleanup s id) :=
  ⟨rfl, rfl, rfl, fun _ hi => ⟨rfl, Dict.get_pop_of_ne _ hi, Dict.get_pop_of_ne _ hi⟩⟩

theorem touched_setQueue (id : Nat) (s : Service E) (queue : List Item) :
    Touched id s { s with queues := s.queues.set id queue } :=
  ⟨rfl, rfl, rfl, fun _ hi => ⟨rfl, Dict.get_set_of_ne _ _ hi, rfl⟩⟩

theorem touched_take (id : Nat) (s : Service E) : Touched id s (take s id) := by
  rw [take]
  split
  · split
    · exact (Touched.refl id s).setConsumer _
    · exact (Touched.refl id s).setConsumer _
    · exact (touched_setQueue id s _).setConsumer _
    · exact (touched_cleanup id s).setConsumer _
  · exact Touched.refl id s

theorem touched_cancel (id : Nat) (s : Service E) : Touched id s (cancel s id) := by
  rw [cancel]
  split
  · exact (Touched.refl id s).setConsumer _
  split
  · exact (touched_cleanup id s).setConsumer _
  · exact Touched.refl id s

theorem At.touched {id i : Nat} {s s' : Service E} (h : At M s i) (ht : Touched id s s') (hi : i ≠ id) :
    At M s' i := by
  obtain ⟨hc, hq, he⟩ := ht.others i hi
  rw [At, ht.engine, hc, hq, he]
  exact h

/-- Tokens up to the first `done` are told apart from it. -/
theorem eq_of_map_token_append_done {xs ys : List Int} {rest : List Item}
    (h : xs.map Item.token ++ .done :: rest = ys.map .token ++ [.done]) : xs = ys := by
  induction xs generalizing ys with
  | nil =>
    cases ys with
    | nil => rfl
    | cons y ys => cases (List.cons.inj h).1
  | cons x xs ih =>
    cases ys with
    | nil => cases (List.cons.inj h).1
    | cons y ys =>
      obtain ⟨hhead, htail⟩ := List.cons.inj h
      rw [Item.token.inj hhead, ih htail]

theorem done_not_mem {xs : List Int} : Item.done ∉ xs.map Item.token := by simp

theorem at_setConsumer {id : Nat} {s : Service E} {c : Consumer}
    (h : Stream M s.engine id c (s.queues.get id) (s.emitted.get id)) : At M (setConsumer s id c) id := by
  change Stream M s.engine id (Function.update s.consumers id c id) (s.queues.get id) (s.emitted.get id)
  rw [Function.update_self]
  exact h

theorem at_setQueue {id : Nat} {s : Service E} {c : Consumer} {queue : List Item}
    (h : Stream M s.engine id c (some queue) (s.emitted.get id)) :
    At M (setConsumer { s with queues := s.queues.set id queue } id c) id := by
  apply at_setConsumer
  rw [Dict.get_set_self]
  exact h

theorem at_cleanup {id : Nat} {s : Service E} {c : Consumer} (h : Stream M s.engine id c none none) :
    At M (setConsumer (cleanup s id) id c) id := by
  apply at_setConsumer
  change Stream M s.engine id c ((s.queues.pop id).get id) ((s.emitted.pop id).get id)
  rw [Dict.get_pop_self, Dict.get_pop_self]
  exact h

/-- Taking an item moves it from the queue to what has been received, and `done` ends the stream. -/
theorem at_take {id : Nat} {s : Service E} (h : At M s id) : At M (take s id) id := by
  have hstream := h
  rw [At] at hstream
  rw [take]
  by_cases hopen : (s.consumers id).phase = .idle ∨ (s.consumers id).phase = .reading
  · rw [if_pos hopen]
    generalize hq : s.queues.get id = queue at hstream
    generalize he : s.emitted.get id = start at hstream
    cases hstream with
    | @running queue n hknown hphase hdones hle hitems =>
      match queue, hq, hitems with
      | [], hq, hitems =>
        apply at_setConsumer
        rw [hq, he]
        exact .running hknown (.inr rfl) hdones hle hitems
      | .token token :: queue, hq, hitems =>
        apply at_setQueue
        rw [he]
        refine .running hknown (.inr rfl) hdones hle ?_
        rw [List.map_append, List.append_assoc]
        exact hitems
      | .done :: queue, hq, hitems =>
        have hmem : Item.done ∈ ((M.output s.engine id).take n).map Item.token := by
          rw [← hitems]
          simp
        exact absurd hmem done_not_mem
    | @complete queue hknown hphase hdones hfinished hitems =>
      match queue, hq, hitems with
      | [], hq, hitems =>
        apply at_setConsumer
        rw [hq, he]
        exact .complete hknown (.inr rfl) hdones hfinished hitems
      | .token token :: queue, hq, hitems =>
        apply at_setQueue
        rw [he]
        refine .complete hknown (.inr rfl) hdones hfinished ?_
        rw [List.map_append, List.append_assoc]
        exact hitems
      | .done :: queue, hq, hitems =>
        apply at_cleanup
        exact .ended hknown rfl (congrArg Nat.succ hdones) hfinished (eq_of_map_token_append_done hitems)
    | absent hphase => simp [hphase] at hopen
    | ended hknown hphase => simp [hphase] at hopen
    | dropped hknown hphase => simp [hphase] at hopen
    | abandoned hknown hphase => simp [hphase] at hopen
  · rw [if_neg hopen]
    exact h

theorem at_cancel {id : Nat} {s : Service E} (h : At M s id) : At M (cancel s id) id := by
  rw [cancel]
  by_cases hidle : (s.consumers id).phase = .idle
  · rw [if_pos hidle]
    apply at_setConsumer
    have hknown : M.known s.engine id := Stream.known h (by rw [hidle]; decide)
    rw [At] at h
    generalize s.queues.get id = queue at h ⊢
    cases queue with
    | some queue => exact .abandoned hknown rfl
    | none =>
      cases hemitted : s.emitted.get id with
      | none => exact .dropped hknown rfl
      | some n =>
        rw [hemitted] at h
        exact absurd (h.isSome_queue rfl) (by simp)
  rw [if_neg hidle]
  by_cases hreading : (s.consumers id).phase = .reading
  · rw [if_pos hreading]
    exact at_cleanup (.dropped (Stream.known h (by rw [hreading]; decide)) rfl)
  · rw [if_neg hreading]
    exact h

/-- The invariant of the service. -/
structure Inv (M : ServedEngine E R) (s : Service E) : Prop where
  valid : M.valid s.engine
  streams : ∀ id, At M s id
  no_keyError : ∀ id, s.loop ≠ .keyError id
  idle : s.loop = .blocked → s.wakeup = false → M.hasWork s.engine = false

namespace Inv

variable {s s' : Service E}

theorem start {engine : E} (h : M.valid engine) : Inv M { engine } :=
  ⟨h, fun _ => .absent rfl, fun _ => by simp, fun hblocked => by cases hblocked⟩

theorem touched {id : Nat} (h : Inv M s) (ht : Touched id s s') (hid : At M s' id) : Inv M s' where
  valid := ht.engine ▸ h.valid
  streams i := by
    by_cases hi : i = id
    · rw [hi]
      exact hid
    · exact (h.streams i).touched ht hi
  no_keyError := ht.loop ▸ h.no_keyError
  idle := by
    rw [ht.loop, ht.wakeup, ht.engine]
    exact h.idle

theorem submit (h : Inv M s) (r : R) : Inv M (submit M s r) := by
  rw [Server.submit]
  split
  · exact h
  rename_i new engine hadd
  have hnew := M.addRequest_new s.engine r new engine h.valid hadd
  refine ⟨M.valid_addRequest s.engine r new engine h.valid hadd, ?_, h.no_keyError, fun _ hw => by cases hw⟩
  intro i
  by_cases hi : i = new
  · subst hi
    simp only [At, Function.update_self, Dict.get_set_self]
    exact .running hnew.2 (.inl rfl) rfl (Nat.zero_le _) rfl
  · simp only [At, Function.update_of_ne hi, Dict.get_set_of_ne _ _ hi]
    exact (h.streams i).add h.valid hadd

theorem iterate (h : Inv M s) : Inv M (iterate M s) := by
  by_cases hrun : Runnable s
  · cases iterated h.streams hrun with
    | blocked hwork heq =>
      rw [heq]
      exact ⟨h.valid, h.streams, fun _ => by simp, fun _ _ => hwork⟩
    | raised hwork hstep heq =>
      rw [heq]
      exact ⟨M.valid_step _ h.valid, fun id => (h.streams id).step h.valid, fun _ => by simp,
        fun hblocked => by cases hblocked⟩
    | stepped hwork hstep hengine hwakeup hloop hconsumers hstreams =>
      refine ⟨hengine ▸ M.valid_step _ h.valid, ?_, fun _ => by simp [hloop], ?_⟩
      · intro id
        have hfanned := ((h.streams id).step h.valid).fanned
        rw [← hengine, ← hstreams id] at hfanned
        rw [At, hconsumers]
        exact hfanned
      · rw [hloop]
        intro hblocked
        cases hblocked
  · have hstay : ¬(s.loop = .ready ∨ (s.loop = .blocked ∧ s.wakeup = true)) := hrun
    rw [Server.iterate, if_neg hstay]
    exact h

theorem next {engine : E} (h : Inv M s) (a : ServiceAction R) : Inv M ((machine M engine).next s a) := by
  cases a with
  | submit r => exact h.submit r
  | iterate => exact h.iterate
  | take id => exact h.touched (touched_take id s) (at_take (h.streams id))
  | cancel id => exact h.touched (touched_cancel id s) (at_cancel (h.streams id))

end Inv

theorem inv_run {engine : E} (h : M.valid engine) (actions : List (ServiceAction R)) :
    Inv M ((machine M engine).run actions) :=
  Machine.run_invariant _ (Inv.start h) (fun _ a hs => hs.next a) actions

/-! ### What a consumer gets -/

/-- What the consumer of a stream has received, and what is on its way. -/
structure Delivered (M : ServedEngine E R) (s : Service E) (id : Nat) : Prop where
  phase : (s.consumers id).phase = .idle ∨ (s.consumers id).phase = .reading ∨
    (s.consumers id).phase = .ended
  received : (s.consumers id).received <+: M.output s.engine id
  dones : (s.consumers id).dones = if (s.consumers id).phase = .ended then 1 else 0
  ended : (s.consumers id).phase = .ended →
    M.finished s.engine id = true ∧ (s.consumers id).received = M.output s.engine id
  queued : (s.consumers id).phase ≠ .ended → ∃ queue, s.queues.get id = some queue ∧
    match s.emitted.get id with
    | some n => n ≤ (M.output s.engine id).length ∧
        (s.consumers id).received.map Item.token ++ queue = ((M.output s.engine id).take n).map .token
    | none => M.finished s.engine id = true ∧
        (s.consumers id).received.map Item.token ++ queue = (M.output s.engine id).map .token ++ [.done]

theorem prefix_of_map_token {xs ys : List Int} {queue : List Item}
    (h : xs.map Item.token ++ queue = ys.map .token ∨ xs.map Item.token ++ queue = ys.map .token ++ [.done]) :
    xs <+: ys := by
  induction xs generalizing ys with
  | nil => exact List.nil_prefix
  | cons x xs ih =>
    cases ys with
    | nil => simp at h
    | cons y ys =>
      simp only [List.map_cons, List.cons_append, List.cons.injEq, Item.token.injEq] at h
      obtain ⟨rfl, h⟩ | ⟨rfl, h⟩ := h
      · exact List.cons_prefix_cons.mpr ⟨rfl, ih (.inl h)⟩
      · exact List.cons_prefix_cons.mpr ⟨rfl, ih (.inr h)⟩

theorem At.delivered {s : Service E} {id : Nat} (h : At M s id) (habsent : (s.consumers id).phase ≠ .absent)
    (hcancelled : (s.consumers id).phase ≠ .cancelled) : Delivered M s id := by
  rw [At] at h
  generalize hc : s.consumers id = c at h habsent hcancelled
  generalize hq : s.queues.get id = queue at h
  generalize he : s.emitted.get id = start at h
  cases h with
  | absent hphase => exact absurd hphase habsent
  | dropped _ hphase => exact absurd hphase hcancelled
  | abandoned _ hphase => exact absurd hphase hcancelled
  | ended hknown hphase hdones hfinished hreceived =>
    subst hc
    refine ⟨.inr (.inr hphase), ?_, ?_, fun _ => ⟨hfinished, hreceived⟩, fun hne => absurd hphase hne⟩
    · rw [hreceived]
    · rw [hdones, if_pos hphase]
  | @running queue n hknown hphase hdones hle hitems =>
    subst hc
    have hne : (s.consumers id).phase ≠ .ended := by
      obtain hphase | hphase := hphase <;> rw [hphase] <;> decide
    refine ⟨hphase.imp_right .inl, ?_, ?_, fun hended => absurd hended hne, fun _ => ⟨queue, hq, ?_⟩⟩
    · exact (prefix_of_map_token (.inl hitems)).trans (List.take_prefix n _)
    · rw [hdones, if_neg hne]
    · rw [he]
      exact ⟨hle, hitems⟩
  | @complete queue hknown hphase hdones hfinished hitems =>
    subst hc
    have hne : (s.consumers id).phase ≠ .ended := by
      obtain hphase | hphase := hphase <;> rw [hphase] <;> decide
    refine ⟨hphase.imp_right .inl, ?_, ?_, fun hended => absurd hended hne, fun _ => ⟨queue, hq, ?_⟩⟩
    · exact prefix_of_map_token (.inr hitems)
    · rw [hdones, if_neg hne]
    · rw [he]
      exact ⟨hfinished, hitems⟩

/-- A consumer whose stream is complete gets `done` with the last item of its queue. -/
theorem ended_of_takes {s : Service E} {id : Nat} {queue : List Item} (h : At M s id)
    (hphase : (s.consumers id).phase = .idle ∨ (s.consumers id).phase = .reading)
    (hqueue : s.queues.get id = some queue) (hemitted : s.emitted.get id = none) :
    (((fun s => take s id)^[queue.length] s).consumers id).phase = .ended := by
  induction queue generalizing s with
  | nil =>
    rw [At, hqueue, hemitted] at h
    cases h with
    | complete _ _ _ _ hitems =>
      have hmem : Item.done ∈ (s.consumers id).received.map Item.token ++ [] := by
        rw [hitems]
        simp
      rw [List.append_nil] at hmem
      exact absurd hmem done_not_mem
    | abandoned _ hcancelled => simp [hcancelled] at hphase
  | cons item queue ih =>
    rw [List.length_cons, Function.iterate_succ_apply]
    have htake := at_take h
    cases item with
    | token token =>
      have heq : take s id = setConsumer { s with queues := s.queues.set id queue } id
          { s.consumers id with
            phase := .reading
            received := (s.consumers id).received ++ [token] } := by
        rw [take, if_pos hphase, hqueue]
      rw [heq] at htake ⊢
      refine ih htake (.inr ?_) (Dict.get_set_self _ _ _) hemitted
      simp [setConsumer]
    | done =>
      rw [At, hqueue, hemitted] at h
      cases h with
      | complete _ _ _ _ hitems =>
        have hreceived := eq_of_map_token_append_done hitems
        rw [hreceived, List.append_cancel_left_eq] at hitems
        rw [(List.cons.inj hitems).2]
        change ((take s id).consumers id).phase = .ended
        rw [take, if_pos hphase, hqueue]
        simp [setConsumer]
      | abandoned _ hcancelled => simp [hcancelled] at hphase

/-- After a step of the engine no finished request is left to fan out. -/
theorem emitted_of_finished {s : Service E} (h : Inv M s) (hrun : Runnable s)
    (hwork : M.hasWork s.engine = true) (hstep : (M.step s.engine).1 = true) {id : Nat}
    (hfinished : M.finished (iterate M s).engine id = true) : (iterate M s).emitted.get id = none := by
  cases iterated h.streams hrun with
  | blocked hidle => simp [hwork] at hidle
  | raised _ hraised => simp [hstep] at hraised
  | stepped _ _ _ _ _ _ hstreams =>
    have hemitted := congrArg Prod.snd (hstreams id)
    dsimp only at hemitted
    rw [hemitted]
    cases hstart : s.emitted.get id with
    | none => rw [fanned_none]
    | some n =>
      obtain ⟨queue, hqueue⟩ := Option.isSome_iff_exists.mp ((h.streams id).isSome_queue (by simp [hstart]))
      rw [hqueue]
      simp only [fanned, if_pos hfinished]

/-! ### Streams do not interfere -/

/-- The actions of the consumer of `id`. -/
def ofConsumer (id : Nat) : ServiceAction R → Bool
  | .take i => i = id
  | .cancel i => i = id
  | .submit _ => false
  | .iterate => false

namespace Touched

variable {id : Nat} {s s' t : Service E}

theorem symm (h : Touched id s s') : Touched id s' s :=
  ⟨h.engine.symm, h.wakeup.symm, h.loop.symm, fun i hi =>
    ⟨(h.others i hi).1.symm, (h.others i hi).2.1.symm, (h.others i hi).2.2.symm⟩⟩

theorem trans (h : Touched id s s') (h' : Touched id s' t) : Touched id s t :=
  ⟨h'.engine.trans h.engine, h'.wakeup.trans h.wakeup, h'.loop.trans h.loop, fun i hi =>
    ⟨(h'.others i hi).1.trans (h.others i hi).1, (h'.others i hi).2.1.trans (h.others i hi).2.1,
      (h'.others i hi).2.2.trans (h.others i hi).2.2⟩⟩

/-- Two services that agree but for `id` still do when one stream of both changes alike. -/
theorem both {j : Nat} {u u' : Service E} (h : Touched id s s') (hu : Touched j s u) (hu' : Touched j s' u')
    (hj : u'.consumers j = u.consumers j ∧ u'.queues.get j = u.queues.get j ∧
      u'.emitted.get j = u.emitted.get j) : Touched id u u' := by
  refine ⟨?_, ?_, ?_, ?_⟩
  · rw [hu.engine, hu'.engine, h.engine]
  · rw [hu.wakeup, hu'.wakeup, h.wakeup]
  · rw [hu.loop, hu'.loop, h.loop]
  intro i hi
  by_cases hij : i = j
  · rw [hij]
    exact hj
  · obtain ⟨hc, hq, he⟩ := h.others i hi
    obtain ⟨hc₁, hq₁, he₁⟩ := hu.others i hij
    obtain ⟨hc₂, hq₂, he₂⟩ := hu'.others i hij
    rw [hc₂, hc₁, hq₂, hq₁, he₂, he₁]
    exact ⟨hc, hq, he⟩

theorem take {j : Nat} (h : Touched id s s') (hj : j ≠ id) :
    Touched id (Server.take s j) (Server.take s' j) := by
  apply h.both (touched_take j s) (touched_take j s')
  obtain ⟨hc, hq, he⟩ := h.others j hj
  rw [Server.take, Server.take, hc, hq]
  split
  · split
    · simp [Server.setConsumer, hq, he]
    · simp [Server.setConsumer, hq, he]
    · simp [Server.setConsumer, he]
    · simp [Server.setConsumer, cleanup]
  · exact ⟨hc, hq, he⟩

theorem cancel {j : Nat} (h : Touched id s s') (hj : j ≠ id) :
    Touched id (Server.cancel s j) (Server.cancel s' j) := by
  apply h.both (touched_cancel j s) (touched_cancel j s')
  obtain ⟨hc, hq, he⟩ := h.others j hj
  rw [Server.cancel, Server.cancel, hc]
  split
  · simp [Server.setConsumer, hq, he]
  split
  · simp [Server.setConsumer, cleanup]
  · exact ⟨hc, hq, he⟩

theorem submit (h : Touched id s s') (r : R) : Touched id (submit M s r) (submit M s' r) := by
  rw [Server.submit, Server.submit, h.engine]
  split
  · exact h
  rename_i new engine hadd
  refine ⟨rfl, rfl, h.loop, ?_⟩
  intro i hi
  obtain ⟨hc, hq, he⟩ := h.others i hi
  by_cases hnew : i = new
  · simp [hnew]
  · simp only [Function.update_of_ne hnew, Dict.get_set_of_ne _ _ hnew]
    exact ⟨hc, hq, he⟩

theorem iterate (h : Touched id s s') (hs : Inv M s) (hs' : Inv M s') :
    Touched id (iterate M s) (iterate M s') := by
  by_cases hrun : Runnable s
  · have hrun' : Runnable s' := by
      rw [Runnable, h.loop, h.wakeup]
      exact hrun
    cases iterated hs.streams hrun with
    | blocked hwork heq =>
      cases iterated hs'.streams hrun' with
      | blocked _ heq' =>
        rw [heq, heq']
        exact ⟨h.engine, rfl, rfl, h.others⟩
      | raised hwork' => simp [h.engine, hwork] at hwork'
      | stepped hwork' => simp [h.engine, hwork] at hwork'
    | raised hwork hstep heq =>
      cases iterated hs'.streams hrun' with
      | blocked hwork' => simp [h.engine, hwork] at hwork'
      | raised _ _ heq' =>
        rw [heq, heq']
        exact ⟨congrArg (fun e => (M.step e).2) h.engine, h.wakeup, rfl, h.others⟩
      | stepped _ hstep' => simp [h.engine, hstep] at hstep'
    | stepped hwork hstep hengine hwakeup hloop hconsumers hstreams =>
      cases iterated hs'.streams hrun' with
      | blocked hwork' => simp [h.engine, hwork] at hwork'
      | raised _ hstep' => simp [h.engine, hstep] at hstep'
      | stepped _ _ hengine' hwakeup' hloop' hconsumers' hstreams' =>
        have heng : (Server.iterate M s').engine = (Server.iterate M s).engine := by
          rw [hengine, hengine', h.engine]
        refine ⟨heng, ?_, hloop'.trans hloop.symm, ?_⟩
        · rw [hwakeup, hwakeup', h.wakeup]
        intro i hi
        obtain ⟨hc, hq, he⟩ := h.others i hi
        have hpair := hstreams' i
        rw [heng, hq, he, ← hstreams i] at hpair
        rw [hconsumers, hconsumers']
        exact ⟨hc, congrArg Prod.fst hpair, congrArg Prod.snd hpair⟩
  · have hstay : ∀ u : Service E, u.loop = s.loop → u.wakeup = s.wakeup → Server.iterate M u = u := by
      intro u hl hw
      rw [Server.iterate, if_neg]
      rw [hl, hw]
      exact hrun
    rw [hstay s rfl rfl, hstay s' h.loop h.wakeup]
    exact h

end Touched

/-- Without the actions of one consumer a run comes to the same state, but for its stream. -/
theorem touched_foldl (engine : E) (id : Nat) (actions : List (ServiceAction R)) {s s' : Service E}
    (h : Touched id s s') (hs : Inv M s) (hs' : Inv M s') :
    Touched id (actions.foldl (machine M engine).next s)
      ((actions.filter fun a => !ofConsumer id a).foldl (machine M engine).next s') := by
  induction actions generalizing s s' with
  | nil => exact h
  | cons a actions ih =>
    rw [List.foldl_cons]
    cases a with
    | submit r => exact ih (h.submit r) (hs.submit r) (hs'.submit r)
    | iterate => exact ih (h.iterate hs hs') hs.iterate hs'.iterate
    | take i =>
      by_cases hi : i = id
      · rw [List.filter_cons_of_neg (by simp [ofConsumer, hi])]
        rw [hi]
        exact ih ((touched_take id s).symm.trans h) (hs.next (.take id)) hs'
      · rw [List.filter_cons_of_pos (by simp [ofConsumer, hi])]
        exact ih (h.take hi) (hs.next (.take i)) (hs'.next (.take i))
    | cancel i =>
      by_cases hi : i = id
      · rw [List.filter_cons_of_neg (by simp [ofConsumer, hi])]
        rw [hi]
        exact ih ((touched_cancel id s).symm.trans h) (hs.next (.cancel id)) hs'
      · rw [List.filter_cons_of_pos (by simp [ofConsumer, hi])]
        exact ih (h.cancel hi) (hs.next (.cancel i)) (hs'.next (.cancel i))

/-- **Exactly-once delivery**, after any sequence of actions. Every stream that has not been cancelled is
delivered; a complete one ends with its queue, and a step of the engine completes the finished ones; what the
consumer of one stream does, cancellation included, makes no difference to the others; the background task
never misses a key, and it waits without being woken only for an engine without work. -/
theorem delivered_exactly_once {engine : E} (hvalid : M.valid engine) (actions : List (ServiceAction R)) :
    (∀ id, (((machine M engine).run actions).consumers id).phase ≠ .absent →
      (((machine M engine).run actions).consumers id).phase ≠ .cancelled →
        Delivered M ((machine M engine).run actions) id) ∧
    (∀ id queue, (((machine M engine).run actions).consumers id).phase ≠ .absent →
      (((machine M engine).run actions).consumers id).phase ≠ .cancelled →
      ((machine M engine).run actions).queues.get id = some queue →
      ((machine M engine).run actions).emitted.get id = none →
        (((fun s => take s id)^[queue.length] ((machine M engine).run actions)).consumers id).phase =
          .ended) ∧
    (Runnable ((machine M engine).run actions) →
      M.hasWork ((machine M engine).run actions).engine = true →
      (M.step ((machine M engine).run actions).engine).1 = true →
      ∀ id, M.finished ((machine M engine).run (actions ++ [.iterate])).engine id = true →
        ((machine M engine).run (actions ++ [.iterate])).emitted.get id = none) ∧
    (∀ id (actions' : List (ServiceAction R)),
      (actions'.filter fun a => !ofConsumer id a) = (actions.filter fun a => !ofConsumer id a) →
        Touched id ((machine M engine).run actions) ((machine M engine).run actions')) ∧
    (∀ id, ((machine M engine).run actions).loop ≠ .keyError id) ∧
    (((machine M engine).run actions).loop = .blocked → ((machine M engine).run actions).wakeup = false →
      M.hasWork ((machine M engine).run actions).engine = false) := by
  have hinv := inv_run hvalid actions
  refine ⟨fun id => (hinv.streams id).delivered, ?_, ?_, ?_, hinv.no_keyError, hinv.idle⟩
  · intro id queue habsent hcancelled hqueue hemitted
    have hd := (hinv.streams id).delivered habsent hcancelled
    refine ended_of_takes (hinv.streams id) ?_ hqueue hemitted
    obtain hphase | hphase | hphase := hd.phase
    · exact .inl hphase
    · exact .inr hphase
    · have hat := hinv.streams id
      rw [At, hqueue, hemitted] at hat
      cases hat with
      | complete _ hopen => exact hopen
      | abandoned _ hcancel => exact absurd hcancel hcancelled
  · intro hrun hwork hstep id hfinished
    rw [Machine.run_concat] at hfinished ⊢
    exact emitted_of_finished hinv hrun hwork hstep hfinished
  · intro id actions' hfilter
    have hstart := Inv.start (M := M) hvalid
    have hone := touched_foldl engine id actions (Touched.refl id _) hstart hstart
    have htwo := touched_foldl engine id actions' (Touched.refl id _) hstart hstart
    rw [hfilter] at htwo
    exact hone.trans htwo.symm

theorem delivered_exactly_once_tiny :
    let m := machine (Engine.tiny false).served ((Engine.tiny false).create ())
    Delivered (Engine.tiny false).served
      (m.run [.submit (Engine.greedyRequest [1, 2] 2), .iterate, .take 0, .iterate, .cancel 3, .take 0]) 0 :=
  (delivered_exactly_once (M := (Engine.tiny false).served) (Engine.Inv.create ()) _).1 0
    (by decide +kernel) (by decide +kernel)

end Server

end InferenceEngine
