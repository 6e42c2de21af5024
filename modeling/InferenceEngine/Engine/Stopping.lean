import InferenceEngine.Engine.Consistency

/-!
# Stop conditions

The stop test runs after a token was pushed. So a request for at least one token stops exactly at its limit
or at its stop token, in every run, and a request for none still gets one.
-/

namespace InferenceEngine

open Exec

namespace EngineSequence

variable {K : Type}

/-- `output` does not have the stop token, and another token may follow it. -/
def Open (request : Request K) (output : List Int) : Prop :=
  (0 ≤ request.eosId → request.eosId ∉ output) ∧ (output = [] ∨ (output.length : Int) < request.maxTokens)

/-- An unfinished output may go on; a finished one went on until a token completed it. -/
structure Stopping (seq : EngineSequence K) : Prop where
  known : ∀ t ∈ seq.output, 0 ≤ t
  unfinished : seq.status ≠ .finished → Open seq.request seq.output
  finished : seq.status = .finished → ∃ (output : List Int) (token : Int),
    seq.output = output ++ [token] ∧ Open seq.request output ∧
      { seq with output }.Completes token

namespace Stopping

variable {seq : EngineSequence K}

theorem new (request : Request K) : Stopping { request } where
  known := by simp
  unfinished _ := ⟨fun _ => by simp, .inl rfl⟩
  finished := nofun

theorem reschedule (h : Stopping seq) {seq' : EngineSequence K} (hrequest : seq'.request = seq.request)
    (houtput : seq'.output = seq.output) (hstatus : seq.status ≠ .finished) (hstatus' : seq'.status ≠ .finished) :
    Stopping seq' where
  known := houtput ▸ h.known
  unfinished _ := by
    rw [hrequest, houtput]
    exact h.unfinished hstatus
  finished hfinished := absurd hfinished hstatus'

theorem advance (h : Stopping seq) (hstatus : seq.status = .running) (token : Nat) :
    Stopping (seq.advance token) := by
  have hopen := h.unfinished (by rw [hstatus]; nofun)
  constructor
  · intro t ht
    rcases List.mem_append.mp ht with ht | ht
    · exact h.known t ht
    · rw [List.mem_singleton.mp ht]
      exact Int.natCast_nonneg token
  · intro hunfinished
    have hmore : ¬seq.Completes token := by
      intro hdone
      rw [EngineSequence.advance, if_pos hdone] at hunfinished
      exact hunfinished rfl
    rw [Completes, not_or, not_and, not_le] at hmore
    refine ⟨fun heos hmem => ?_, .inr hmore.2⟩
    rcases List.mem_append.mp hmem with hmem | hmem
    · exact hopen.1 heos hmem
    · exact hmore.1 heos (List.mem_singleton.mp hmem).symm
  · intro hfinished
    refine ⟨seq.output, token, rfl, hopen, ?_⟩
    by_contra hmore
    have hmore : ¬seq.Completes token := hmore
    rw [EngineSequence.advance, if_neg hmore, hstatus] at hfinished
    cases hfinished

end Stopping

/-- The output respects the limit and the stop token, and the sequence is finished exactly when it has reached
one of them. -/
structure StopsRight (seq : EngineSequence K) : Prop where
  length_le : (seq.output.length : Int) ≤ seq.request.maxTokens
  eos_last : 0 ≤ seq.request.eosId → seq.request.eosId ∉ seq.output.dropLast
  finished_iff : seq.status = .finished ↔
    seq.output.getLast? = some seq.request.eosId ∨ (seq.output.length : Int) = seq.request.maxTokens

theorem Stopping.stopsRight_iff {seq : EngineSequence K} (h : Stopping seq) (hmax : 0 ≤ seq.request.maxTokens) :
    StopsRight seq ↔ 1 ≤ seq.request.maxTokens := by
  constructor
  · intro hright
    by_contra hzero
    have hlen := hright.length_le
    have hnil : seq.output = [] := List.length_eq_zero_iff.mp (by omega)
    have hfinished := hright.finished_iff.mpr (.inr (by rw [hnil, List.length_nil]; omega))
    obtain ⟨output, token, hout, -⟩ := h.finished hfinished
    simp [hnil] at hout
  · intro hone
    by_cases hfinished : seq.status = .finished
    · obtain ⟨output, token, hout, hopen, hdone⟩ := h.finished hfinished
      have hlt : (output.length : Int) < seq.request.maxTokens := by
        obtain rfl | hlt := hopen.2
        · simpa [Int.lt_iff_add_one_le] using hone
        · exact hlt
      constructor
      · rw [hout, List.length_append, List.length_singleton]
        omega
      · rw [hout, List.dropLast_concat]
        exact hopen.1
      · refine ⟨fun _ => ?_, fun _ => hfinished⟩
        rw [hout, List.getLast?_concat, List.length_append, List.length_singleton]
        obtain ⟨-, rfl⟩ | hfull := hdone
        · exact .inl rfl
        · right
          simp only [List.length_append, List.length_singleton] at hfull
          omega
    · obtain ⟨heos, hopen⟩ := h.unfinished hfinished
      have hlt : (seq.output.length : Int) < seq.request.maxTokens := by
        obtain hnil | hlt := hopen
        · simpa [hnil, Int.lt_iff_add_one_le] using hone
        · exact hlt
      refine ⟨hlt.le, fun hpos hmem => heos hpos (List.mem_of_mem_dropLast hmem), fun hf => absurd hf hfinished,
        fun hreached => ?_⟩
      obtain hlast | hfull := hreached
      · have hmem := List.mem_of_getLast? hlast
        exact absurd hmem (heos (h.known _ hmem))
      · omega

end EngineSequence

namespace Engine

open EngineState EngineSequence

variable {W Q K G : Type} [Field K] [LinearOrder K] {E : Engine W Q K G}

theorem Inv.stopping_step {s : EngineState K G} (h : Inv E s)
    (hX : ∀ id < s.nextId, Stopping (s.sequences id)) :
    ∀ id < (finalState E.step s).nextId, Stopping ((finalState E.step s).sequences id) := by
  apply (h.step (X := fun s => ∀ id < s.nextId, Stopping (s.sequences id)) hX ?_ ?_ ?_ ?_ ?_).2
  · intro t u admitted hI hX ha id hid
    rw [ha.nextId] at hid
    rw [ha.sequences]
    split
    · rename_i hmem
      have hwaiting := ((hI.queues.mem_waiting id).mp (by
        rw [ha.waiting]
        exact List.mem_append_left _ hmem)).2
      exact (hX id hid).reschedule rfl rfl (by rw [hwaiting]; nofun) nofun
    · exact hX id hid
  · intro t u id hI hX hid hsh i hi
    rw [hsh.nextId] at hi
    rw [hsh.sequences]
    exact hX i hi
  · intro t u id hI hX hp i hi
    rw [hp.nextId] at hi
    by_cases hii : i = id
    · subst hii
      rw [hp.sequences, Function.update_self]
      exact (hX i hi).reschedule rfl rfl (by rw [hI.running_status hp.mem_running]; nofun) nofun
    · rw [hp.sequences_of_ne hii]
      exact hX i hi
  · intro t u chosen logits p hI hX hf hne hr id hid
    rw [hr.nextId] at hid
    by_cases hmem : id ∈ chosen
    · obtain ⟨k, hk⟩ := List.getElem?_of_mem hmem
      obtain ⟨token, hsampled⟩ := hr.sampled hk
      rw [hsampled.seq_eq]
      exact (hX id hid).advance (hI.running_status (hf.sublist.subset hmem)) token
    · rw [(hr.others hmem).1]
      exact hX id hid
  · intro t u chosen e hI hX hf hne hfailed
    obtain ⟨p, rfl, -⟩ := hfailed
    exact hX

theorem stopping_reachable {rng : G} {allowed : EngineState K G → Action K → Prop} {s : EngineState K G}
    (hs : (E.machine rng).Reachable allowed s) : ∀ id < s.nextId, Stopping (s.sequences id) := by
  apply hs.invariant
  · exact fun id hid => absurd hid (Nat.not_lt_zero id)
  · intro s a hs' h _
    cases a with
    | addRequest request =>
      change ∀ id < (finalState (addRequest request) s).nextId,
        Stopping ((finalState (addRequest request) s).sequences id)
      rw [finalState_addRequest]
      split
      · exact h
      · intro id hid
        by_cases hnew : id = s.nextId
        · subst hnew
          simp only [setSequence, Function.update_self]
          exact .new request
        · simp only [setSequence, Function.update_of_ne hnew]
          exact h id (lt_of_le_of_ne (Nat.le_of_lt_succ hid) hnew)
    | step => exact (inv_reachable hs').stopping_step h

/-- Sequence `id` is finished with this output. -/
structure Finished (id : Nat) (output : List Int) (s : EngineState K G) : Prop where
  lt : id < s.nextId
  status : (s.sequences id).status = .finished
  output : (s.sequences id).output = output
  blockTable : (s.pool.seqs id).blockTable = []

theorem Finished.step {s : EngineState K G} (h : Inv E s) {id : Nat} {output : List Int}
    (hf : Finished id output s) : Finished id output (finalState E.step s) := by
  apply (h.step hf ?_ ?_ ?_ ?_ ?_).2
  · intro t u admitted hI hX ha
    have hnot : id ∉ admitted := by
      intro hmem
      have hwaiting := ((hI.queues.mem_waiting id).mp (by
        rw [ha.waiting]
        exact List.mem_append_left _ hmem)).2
      rw [hX.status] at hwaiting
      cases hwaiting
    have hsame : u.sequences id = t.sequences id := by rw [ha.sequences, if_neg hnot]
    exact ⟨ha.nextId ▸ hX.lt, hsame ▸ hX.status, hsame ▸ hX.output, ha.pool ▸ hX.blockTable⟩
  · intro t u i hI hX hi hsh
    have hne : id ≠ i := by
      rintro rfl
      exact absurd ((hI.running_status hi).symm.trans hX.status) nofun
    exact ⟨hsh.nextId ▸ hX.lt, hsh.sequences ▸ hX.status, hsh.sequences ▸ hX.output,
      hsh.acquired.others id hne ▸ hX.blockTable⟩
  · intro t u i hI hX hp
    have hne : id ≠ i := by
      rintro rfl
      exact absurd ((hI.running_status hp.mem_running).symm.trans hX.status) nofun
    have hsame := hp.sequences_of_ne hne
    exact ⟨hp.nextId ▸ hX.lt, hsame ▸ hX.status, hsame ▸ hX.output, hp.freed.others id hne ▸ hX.blockTable⟩
  · intro t u chosen logits p hI hX hf hne hr
    have hnot : id ∉ chosen := fun hmem =>
      absurd ((hI.running_status (hf.sublist.subset hmem)).symm.trans hX.status) nofun
    obtain ⟨-, hfed, -⟩ := wp_ok (wp_forwardChosen hI.sane hf.sublist) hr.forward
    obtain ⟨hsame, hpool⟩ := hr.others hnot
    rw [hfed.others id (by rwa [map_fst_feeds])] at hpool
    exact ⟨hr.nextId ▸ hX.lt, hsame ▸ hX.status, hsame ▸ hX.output, hpool ▸ hX.blockTable⟩
  · intro t u chosen e hI hX hf hne hfailed
    have hidle := ((hI.failed hf.sublist hfailed).seq id)
    obtain ⟨p, rfl, -⟩ := hfailed
    refine ⟨hX.lt, hX.status, hX.output, ?_⟩
    have hempty := (hidle hX.lt).idle (by
      intro hrun
      exact absurd (hrun.symm.trans hX.status) nofun)
    rw [hempty]

theorem Finished.next {rng : G} {s : EngineState K G} (h : Inv E s) {id : Nat} {output : List Int}
    (hf : Finished id output s) (a : Action K) : Finished id output ((E.machine rng).next s a) := by
  cases a with
  | addRequest request =>
    change Finished id output (finalState (addRequest request) s)
    rw [finalState_addRequest]
    split
    · exact hf
    · have hne : id ≠ s.nextId := Nat.ne_of_lt hf.lt
      refine ⟨Nat.lt_succ_of_lt hf.lt, ?_, ?_, hf.blockTable⟩
      · simpa [setSequence, hne] using hf.status
      · simpa [setSequence, hne] using hf.output
  | step => exact hf.step h

variable (E) in
/-- Sequence `id` stops right, and for good. -/
structure Stops (rng : G) (s : EngineState K G) (id : Nat) : Prop where
  right : StopsRight (s.sequences id)
  forever : (s.sequences id).status = .finished →
    ∀ actions : List (Action K), Finished id (s.sequences id).output (actions.foldl (E.machine rng).next s)

/-- **Stop conditions** hold in every run for the requests of at least one token, and for no others. -/
theorem stops_iff {rng : G} {s : EngineState K G} (hs : (E.machine rng).Reachable (fun _ _ => True) s)
    {id : Nat} (hid : id < s.nextId) (hmax : 0 ≤ (s.sequences id).request.maxTokens) :
    Stops E rng s id ↔ 1 ≤ (s.sequences id).request.maxTokens := by
  rw [← (stopping_reachable hs id hid).stopsRight_iff hmax]
  refine ⟨fun h => h.right, fun hright => ⟨hright, fun hfinished actions => ?_⟩⟩
  have hI := inv_reachable hs
  have hidle := (hI.seq id hid).idle (by rw [hfinished]; nofun)
  have hf : Finished id (s.sequences id).output s := ⟨hid, hfinished, rfl, by rw [hidle]⟩
  clear hidle
  generalize (s.sequences id).output = output at hf
  clear hright hfinished hmax
  induction actions generalizing s with
  | nil => exact hf
  | cons a actions ih =>
    have hs' := Machine.Reachable.next (a := a) hs trivial
    exact ih hs' (hf.next hI a).lt (inv_reachable hs') (hf.next hI a)

theorem stops_iff_tiny :
    let m := (tiny false).machine ()
    let s := m.next (m.next m.start (.addRequest (greedyRequest [1] 1))) .step
    Stops (tiny false) () s 0 ↔ 1 ≤ (s.sequences 0).request.maxTokens :=
  stops_iff (.next (.next .start trivial) trivial) (by decide +kernel) (by decide +kernel)

/-- A request for no token gets one. -/
theorem not_stops_of_zero :
    let m := (tiny false).machine ()
    let s := m.next (m.next m.start (.addRequest (greedyRequest [1] 0))) .step
    (s.sequences 0).request.maxTokens = 0 ∧ (s.sequences 0).output.length = 1 ∧ ¬Stops (tiny false) () s 0 := by
  refine ⟨by decide +kernel, by decide +kernel, fun h => ?_⟩
  have hlen := h.right.length_le
  revert hlen
  decide +kernel

end Engine

end InferenceEngine
