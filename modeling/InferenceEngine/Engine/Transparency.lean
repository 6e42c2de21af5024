import InferenceEngine.Engine.Contents
import InferenceEngine.Engine.Greedy

/-!
# The scheduler is transparent

The token a step samples for a greedy request is the argmax of the last logits of its context, whatever
the batch and whatever was shared. So the output of a greedy request is what plain greedy decoding gives.
-/

namespace InferenceEngine

open Exec Decoding Speculative

namespace Engine

open EngineState

variable {W Q K G : Type} [Field K] [LinearOrder K] (E : Engine W Q K G)

/-- The output of a greedy sequence: all of what plain greedy decoding gives once it is finished. -/
structure SeqGreedy (seq : EngineSequence K) : Prop where
  decodes : seq.status ≠ .finished → seq.request.Decodes E.model.forward seq.output
  finished : seq.status = .finished → seq.output = seq.request.greedyOutput E.model.forward

/-- Every greedy output is the one of plain greedy decoding. -/
def AllGreedy (s : EngineState K G) : Prop :=
  ∀ id < s.nextId, (s.sequences id).request.params.temperature ≤ 0 → SeqGreedy E (s.sequences id)

variable {E}

theorem SeqGreedy.isPrefix {seq : EngineSequence K} (h : SeqGreedy E seq) :
    seq.output <+: seq.request.greedyOutput E.model.forward := by
  by_cases hdone : seq.status = .finished
  · rw [h.finished hdone]
  · exact (h.decodes hdone).isPrefix

theorem SeqGreedy.new (request : Request K) : SeqGreedy E { request } :=
  ⟨fun _ => Request.decodes_nil, nofun⟩

/-- A status that is not about being finished does not matter. -/
theorem SeqGreedy.congr {seq seq' : EngineSequence K} (h : SeqGreedy E seq)
    (hrequest : seq'.request = seq.request) (houtput : seq'.output = seq.output)
    (hstatus : seq'.status = .finished ↔ seq.status = .finished) : SeqGreedy E seq' := by
  refine ⟨fun hmore => ?_, fun hdone => ?_⟩
  · rw [hrequest, houtput]
    exact h.decodes (mt hstatus.mpr hmore)
  · rw [hrequest, houtput]
    exact h.finished (hstatus.mp hdone)

theorem SeqGreedy.advance {seq : EngineSequence K} {token : Int} (h : SeqGreedy E seq)
    (hrunning : seq.status = .running) (hnext : greedyNext E.model.forward seq.context = some token) :
    SeqGreedy E (seq.advance token) := by
  have hdecodes := h.decodes (by rw [hrunning]; decide)
  by_cases hlast : seq.Completes token
  · have hstatus : (seq.advance token).status = .finished := if_pos hlast
    exact ⟨fun hmore => absurd hstatus hmore, fun _ => (hdecodes.last hnext hlast).symm⟩
  · have hstatus : (seq.advance token).status = seq.status := if_neg hlast
    obtain ⟨heos, hlen⟩ := not_or.mp hlast
    refine ⟨fun _ => hdecodes.snoc hnext heos hlen, fun hdone => ?_⟩
    rw [hstatus, hrunning] at hdone
    cases hdone

namespace AllGreedy

variable {s s' : EngineState K G}

theorem create (rng : G) : AllGreedy E (E.create rng) := fun id hid => absurd hid (Nat.not_lt_zero id)

theorem arrive (h : AllGreedy E s) (request : Request K) :
    AllGreedy E { s.setSequence s.nextId { request } with
      waiting := s.waiting ++ [s.nextId], nextId := s.nextId + 1 } := by
  intro id hid hgreedy
  simp only [setSequence] at hgreedy ⊢
  obtain rfl | hlt := (Nat.le_of_lt_succ hid).eq_or_lt
  · rw [Function.update_self]
    exact .new request
  · rw [Function.update_of_ne hlt.ne] at hgreedy ⊢
    exact h id hlt hgreedy

theorem enter {admitted : List Nat} (h : AllGreedy E s) (hs : Inv E s) (ha : Admitted E admitted s s') :
    AllGreedy E s' := by
  intro id hid hgreedy
  rw [ha.nextId] at hid
  rw [ha.sequences] at hgreedy ⊢
  by_cases hmem : id ∈ admitted
  · rw [if_pos hmem] at hgreedy ⊢
    have hwaiting := ((hs.queues.mem_waiting id).mp (ha.waiting ▸ List.mem_append_left _ hmem)).2
    refine (h id hid hgreedy).congr rfl rfl ?_
    rw [hwaiting]
    exact iff_of_false nofun nofun
  · rw [if_neg hmem] at hgreedy ⊢
    exact h id hid hgreedy

theorem share {id : Nat} (h : AllGreedy E s) (hsh : Shared E id s s') : AllGreedy E s' := by
  intro i hi
  rw [hsh.nextId] at hi
  rw [hsh.sequences]
  exact h i hi

theorem preempt {id : Nat} (h : AllGreedy E s) (hs : Inv E s) (hp : Preempted E id s s') :
    AllGreedy E s' := by
  intro i hi hgreedy
  rw [hp.nextId] at hi
  by_cases hii : i = id
  · subst hii
    rw [hp.sequences, Function.update_self] at hgreedy ⊢
    obtain ⟨older, younger, hrunning, -⟩ := hp.youngest
    have hstatus : (s.sequences i).status = .running := hs.running_status (by simp [hrunning])
    refine (h i hi hgreedy).congr rfl rfl ?_
    rw [hstatus]
    exact iff_of_false nofun nofun
  · rw [hp.sequences_of_ne hii] at hgreedy ⊢
    exact h i hi hgreedy

end AllGreedy

/-! ### A batch -/

section Batch

variable {s s' : EngineState K G} {chosen : List Nat} {logits : Rows K} {p : Pool K}

/-- **The token sampled for a greedy sequence** is the next one of plain greedy decoding. -/
theorem greedyNext_of_sampled (hmatch : E.model.Matches) (hs : Inv E s) (hready : Ready E s)
    (hcontents : Contents E s) (hf : Formed E chosen s) (hne : chosen ≠ [])
    (hr : Ran E chosen logits p s s') {k id : Nat} (hk : chosen[k]? = some id) {token : Nat}
    (hsampled : Sampled E logits k (s.sequences id) (p.seqs id) (s'.sequences id) (s'.pool.seqs id) token)
    (hgreedy : (s.sequences id).request.params.temperature ≤ 0) :
    greedyNext E.model.forward (s.sequences id).context = some (token : Int) := by
  have hserves := hr.serves hs.sane hf.sublist hne
  obtain ⟨-, hlogits, -⟩ := wp_ok (hcontents.wp_forward hs hready hserves hf hne) hr.forward
  have hid := hs.running_lt (hf.sublist.subset (List.mem_of_getElem? hk))
  have hlength : ∀ row ∈ logits, row.length = E.model.config.vocabSize := by
    intro row hrow
    rw [hlogits] at hrow
    obtain ⟨i, hi, rfl⟩ := List.mem_map.mp hrow
    have hctx := (hs.seq i (hs.running_lt (hf.sublist.subset hi))).context
    exact Model.length_lastLogits hserves.1 hmatch hctx
  have hrow : logits[k]? = some ((E.model.logits (s.sequences id).context).getLastD []) := by
    rw [hlogits, List.getElem?_map, hk]
    rfl
  have hctx := (hs.seq id hid).context
  rw [(exactCausal_forward hserves.1 hmatch).greedyNext_eq hctx (hready.seq id hid).vocab, choice,
    Model.length_lastLogits hserves.1 hmatch hctx, hsampled.greedy hgreedy, logitsAt,
    sliceRows_flatten hlength hrow]

theorem AllGreedy.ran (h : AllGreedy E s) (hmatch : E.model.Matches) (hs : Inv E s) (hready : Ready E s)
    (hcontents : Contents E s) (hf : Formed E chosen s) (hne : chosen ≠ [])
    (hr : Ran E chosen logits p s s') : AllGreedy E s' := by
  intro id hid hgreedy
  rw [hr.nextId] at hid
  by_cases hmem : id ∈ chosen
  · obtain ⟨k, hk⟩ := List.getElem?_of_mem hmem
    obtain ⟨token, hsampled⟩ := hr.sampled hk
    rw [hsampled.seq_eq] at hgreedy ⊢
    exact (h id hid hgreedy).advance (hs.running_status (hf.sublist.subset hmem))
      (greedyNext_of_sampled hmatch hs hready hcontents hf hne hr hk hsampled hgreedy)
  · rw [(hr.others hmem).1] at hgreedy ⊢
    exact h id hid hgreedy

end Batch

/-! ### Runs -/

variable (E) in
/-- What holds between two calls. Sharing is only sound when the chain hash is. -/
structure Transparent (s : EngineState K G) : Prop where
  ready : Ready E s
  contents : E.Apart s → Contents E s ∧ AllGreedy E s

def KnownTokens (E : Engine W Q K G) (_ : EngineState K G) : Action K → Prop
  | .addRequest request => ∀ t ∈ request.prompt, E.model.InVocab t
  | .step => True

theorem Admissible.known {E : Engine W Q K G} {s : EngineState K G} {a : Action K} (h : E.Admissible a) :
    KnownTokens E s a := by
  cases a with
  | addRequest request => exact h.1
  | step => trivial

theorem Transparent.next (hM : E.model.Complete) (hmatch : E.model.Matches) {s : EngineState K G}
    (hs : Inv E s) (h : Transparent E s) :
    Inv E (finalState E.step s) ∧ Transparent E (finalState E.step s) := by
  apply hs.step h
  · intro t u admitted hI hX ha
    refine ⟨hX.ready.enter ha, fun hapart => ?_⟩
    have hcontext : ∀ id, (u.sequences id).context = (t.sequences id).context := by
      intro id
      rw [ha.sequences]
      split <;> rfl
    obtain ⟨hcontents, hgreedy⟩ := hX.contents (hapart.anti ⟨ha.nextId.ge, fun id _ => by rw [hcontext]⟩)
    exact ⟨hcontents.enter ha, hgreedy.enter hI ha⟩
  · intro t u id hI hX hid hsh
    refine ⟨hX.ready.share hI hsh, fun hapart => ?_⟩
    have hapart := hapart.anti ⟨hsh.nextId.ge, fun id _ => by rw [hsh.sequences]⟩
    obtain ⟨hcontents, hgreedy⟩ := hX.contents hapart
    exact ⟨hcontents.share hI (hI.running_lt hid) hapart hsh, hgreedy.share hsh⟩
  · intro t u id hI hX hp
    refine ⟨hX.ready.preempt hp, fun hapart => ?_⟩
    have hcontext : ∀ i, (u.sequences i).context = (t.sequences i).context := by
      intro i
      rw [hp.sequences]
      by_cases hi : i = id
      · rw [hi, Function.update_self]
        rfl
      · rw [Function.update_of_ne hi]
    obtain ⟨hcontents, hgreedy⟩ := hX.contents (hapart.anti ⟨hp.nextId.ge, fun id _ => by rw [hcontext]⟩)
    exact ⟨hcontents.preempt hp, hgreedy.preempt hI hp⟩
  · intro t u chosen logits p hI hX hf hne hr
    refine ⟨hX.ready.ran hmatch hI hf.sublist hr, fun hapart => ?_⟩
    obtain ⟨hcontents, hgreedy⟩ := hX.contents (hapart.anti hr.grows)
    exact ⟨hcontents.ran hI hX.ready hf hne hr, hgreedy.ran hmatch hI hX.ready hcontents hf hne hr⟩
  · intro t u chosen e hI hX hf hne hfailed
    exact absurd hfailed (hX.ready.not_failed hM hmatch hI hf hne)

theorem transparent_reachable (hM : E.model.Complete) (hmatch : E.model.Matches) {rng : G}
    {s : EngineState K G} (hs : (E.machine rng).Reachable (KnownTokens E) s) :
    Inv E s ∧ Transparent E s := by
  apply hs.invariant (I := fun s => Inv E s ∧ Transparent E s)
  · exact ⟨Inv.create rng, Ready.create rng, fun _ => ⟨Contents.create rng, AllGreedy.create rng⟩⟩
  · intro s a _ h ha
    cases a with
    | step => exact h.2.next hM hmatch h.1
    | addRequest request =>
      change Inv E (finalState (addRequest request) s) ∧ Transparent E (finalState (addRequest request) s)
      rw [finalState_addRequest]
      split
      · exact h
      · refine ⟨h.1.arrive ‹_›, h.2.ready.arrive h.1 ha, fun hapart => ?_⟩
        have hgrows : Grows s { s.setSequence s.nextId { request } with
            waiting := s.waiting ++ [s.nextId], nextId := s.nextId + 1 } := by
          refine ⟨Nat.le_succ _, fun id hid => ?_⟩
          rw [show ({ s.setSequence s.nextId { request } with
            waiting := s.waiting ++ [s.nextId], nextId := s.nextId + 1 } : EngineState K G).sequences id =
              s.sequences id from Function.update_of_ne hid.ne _ _]
        obtain ⟨hcontents, hgreedy⟩ := h.2.contents (hapart.anti hgrows)
        exact ⟨hcontents.arrive h.1 request, hgreedy.arrive request⟩

def Silent (s : EngineState K G) : Prop :=
  ∀ id < s.nextId, (s.sequences id).output = [] ∧ (s.sequences id).status ≠ .finished

/-- An engine whose model lacks a tensor generates nothing. -/
theorem silent_reachable (hM : ¬E.model.Complete) {rng : G} {allowed : EngineState K G → Action K → Prop}
    {s : EngineState K G} (hs : (E.machine rng).Reachable allowed s) : Inv E s ∧ Silent s := by
  apply hs.invariant (I := fun s => Inv E s ∧ Silent s)
  · exact ⟨Inv.create rng, fun id hid => absurd hid (Nat.not_lt_zero id)⟩
  · intro s a _ hs _
    obtain ⟨hI, h⟩ := hs
    cases a with
    | addRequest request =>
      change Inv E (finalState (addRequest request) s) ∧ Silent (finalState (addRequest request) s)
      rw [finalState_addRequest]
      split
      · exact ⟨hI, h⟩
      · refine ⟨hI.arrive ‹_›, fun id hid => ?_⟩
        simp only [setSequence]
        obtain rfl | hlt := (Nat.le_of_lt_succ hid).eq_or_lt
        · rw [Function.update_self]
          exact ⟨rfl, by simp⟩
        · rw [Function.update_of_ne hlt.ne]
          exact h id hlt
    | step =>
      apply hI.step h
      · intro t u admitted _ hX ha id hid
        rw [ha.nextId] at hid
        rw [ha.sequences]
        split
        · exact ⟨(hX id hid).1, by simp⟩
        · exact hX id hid
      · intro t u id _ hX _ hsh i hi
        rw [hsh.nextId] at hi
        rw [hsh.sequences]
        exact hX i hi
      · intro t u id _ hX hp i hi
        rw [hp.nextId] at hi
        by_cases hii : i = id
        · subst hii
          rw [hp.sequences, Function.update_self]
          exact ⟨(hX i hi).1, by simp⟩
        · rw [hp.sequences_of_ne hii]
          exact hX i hi
      · intro t u chosen logits p hI hX hf hne hr
        exact absurd (hr.serves hI.sane hf.sublist hne).1 hM
      · rintro t u chosen e hI hX hf hne ⟨p, rfl, -⟩
        exact hX

theorem seqGreedy_reachable (hmatch : E.model.Matches) {rng : G} {s : EngineState K G}
    (hs : (E.machine rng).Reachable (KnownTokens E) s) (hapart : E.Apart s) {id : Nat} (hid : id < s.nextId)
    (hgreedy : (s.sequences id).request.params.temperature ≤ 0) :
    (s.sequences id).output <+: (s.sequences id).request.greedyOutput E.model.forward ∧
      ((s.sequences id).status = .finished →
        (s.sequences id).output = (s.sequences id).request.greedyOutput E.model.forward) := by
  by_cases hM : E.model.Complete
  · have h := ((transparent_reachable hM hmatch hs).2.contents hapart).2 id hid hgreedy
    exact ⟨h.isPrefix, h.finished⟩
  · obtain ⟨hout, hstatus⟩ := (silent_reachable hM hs).2 id hid
    refine ⟨?_, fun hdone => absurd hdone hstatus⟩
    rw [hout]
    exact List.nil_prefix

/-- **Scheduling is transparent**: without the prefix cache the output of every greedy request is a prefix
of what plain greedy decoding gives it, and all of it once the request is finished. -/
theorem scheduling_transparent (hcache : E.prefixCache = false) (hmatch : E.model.Matches) {rng : G}
    {s : EngineState K G} (hs : (E.machine rng).Reachable (KnownTokens E) s) {id : Nat}
    (hid : id < s.nextId) (hgreedy : (s.sequences id).request.params.temperature ≤ 0) :
    (s.sequences id).output <+: (s.sequences id).request.greedyOutput E.model.forward ∧
      ((s.sequences id).status = .finished →
        (s.sequences id).output = (s.sequences id).request.greedyOutput E.model.forward) :=
  seqGreedy_reachable hmatch hs (.inl hcache) hid hgreedy

theorem knownTokens_tiny (prefixCache : Bool) (request : Request ℚ)
    (h : ∀ t ∈ request.prompt, 0 ≤ t ∧ t < 3) (s : EngineState ℚ Unit) :
    KnownTokens (tiny prefixCache) s (.addRequest request) :=
  fun t ht => Model.tiny_inVocab (h t ht)

/-- The second request draws its tokens, and is preempted for the first one. -/
theorem scheduling_transparent_tiny :
    let m := (tiny false).machine ()
    let s := m.next (m.next (m.next (m.next m.start (.addRequest (greedyRequest [1, 2] 2)))
      (.addRequest ⟨[2], ⟨1, 0, 1⟩, 3, -1⟩)) .step) .step
    (s.sequences 0).output = (s.sequences 0).request.greedyOutput (tiny false).model.forward := by
  have hstep : ∀ s, KnownTokens (tiny false) s .step := fun _ => trivial
  have hfirst := knownTokens_tiny false (greedyRequest [1, 2] 2) (by decide)
  have hsecond := knownTokens_tiny false ⟨[2], ⟨1, 0, 1⟩, 3, -1⟩ (by decide)
  exact (scheduling_transparent rfl Model.tiny_matches (.next (.next (.next (.next .start (hfirst _))
    (hsecond _)) (hstep _)) (hstep _)) (by decide +kernel) (by decide +kernel)).2 (by decide +kernel)

/-- **The prefix cache is transparent**: when the chain hash tells the chains of blocks that occur apart,
the outputs are those of plain greedy decoding, whatever was shared. -/
theorem prefixCache_transparent (hmatch : E.model.Matches) {rng : G} {s : EngineState K G}
    (hs : (E.machine rng).Reachable (KnownTokens E) s)
    (hinj : Set.InjOn chainHash {chain | E.Occurs s chain}) {id : Nat} (hid : id < s.nextId)
    (hgreedy : (s.sequences id).request.params.temperature ≤ 0) :
    (s.sequences id).output <+: (s.sequences id).request.greedyOutput E.model.forward ∧
      ((s.sequences id).status = .finished →
        (s.sequences id).output = (s.sequences id).request.greedyOutput E.model.forward) :=
  seqGreedy_reachable hmatch hs (.inr hinj) hid hgreedy

/-- An engine in which the second request has taken over the block that the first one left in the cache. -/
def reused : EngineState ℚ Unit :=
  let m := (tiny true).machine ()
  m.next (m.next (m.next (m.next (m.next m.start (.addRequest (greedyRequest [1] 2))) .step) .step)
    (.addRequest (greedyRequest [1, 2] 1))) .step

theorem injOn_reused : Set.InjOn chainHash {chain | (tiny true).Occurs reused chain} := by
  have hspans : ∀ id < reused.nextId,
      (tiny true).config.spans (reused.sequences id).context = [[1], [2], [2]] := by
    decide +kernel
  have hinits : ∀ chain, (tiny true).Occurs reused chain → chain ∈ List.inits [[1], [2], [2]] := by
    rintro chain ⟨id, hid, hchain⟩
    rw [hspans id hid] at hchain
    exact (List.mem_inits _ _).mpr hchain
  have hinj : ∀ chain ∈ List.inits [[1], [2], [2]], ∀ chain' ∈ List.inits [[1], [2], [2]],
      chainHash chain = chainHash chain' → chain = chain' := by
    decide +kernel
  exact fun chain hchain chain' hchain' => hinj chain (hinits chain hchain) chain' (hinits chain' hchain')

theorem prefixCache_transparent_reused :
    (reused.sequences 1).output =
      (reused.sequences 1).request.greedyOutput (tiny true).model.forward := by
  have hstep : ∀ s, KnownTokens (tiny true) s .step := fun _ => trivial
  have hfirst := knownTokens_tiny true (greedyRequest [1] 2) (by decide)
  have hsecond := knownTokens_tiny true (greedyRequest [1, 2] 1) (by decide)
  exact (prefixCache_transparent Model.tiny_matches (.next (.next (.next (.next (.next .start (hfirst _))
    (hstep _)) (hstep _)) (hsecond _)) (hstep _)) injOn_reused (by decide +kernel) (by decide +kernel)).2
    (by decide +kernel)

end Engine

end InferenceEngine
