import InferenceEngine.Cuda.Contiguous
import InferenceEngine.Cuda.Engine
import InferenceEngine.Engine.Consistency
import InferenceEngine.Engine.Greedy

/-!
# The device scheduler is transparent

The cache of a running sequence holds the keys and values of what it was fed: its prompt and all but the
last of its tokens. A step therefore picks for every greedy request the token plain greedy decoding would
pick, on the device or by the sampler, and the cache a request got at admission never overflows.
-/

namespace InferenceEngine

open Exec Decoding Speculative GpuKVCache

namespace CudaSequence

variable {K : Type} (seq : CudaSequence K)

def context : List Int := seq.request.prompt ++ seq.output

/-- What the cache was fed. -/
def fed : List Int := if seq.prefilled then seq.context.dropLast else []

def stepTokens : List Int := if seq.prefilled then [seq.output.getLastD 0] else seq.request.prompt

variable {seq}

theorem fed_append_stepTokens (h : seq.prefilled = true ↔ seq.output ≠ []) :
    seq.fed ++ seq.stepTokens = seq.context := by
  rw [fed, stepTokens]
  by_cases hpre : seq.prefilled = true
  · have hout := h.mp hpre
    rw [if_pos hpre, if_pos hpre, context, List.dropLast_append_of_ne_nil hout, List.append_assoc,
      List.getLastD_eq_getLast?, List.getLast?_eq_some_getLast hout, Option.getD_some,
      List.dropLast_append_getLast]
  · have hout : seq.output = [] := by
      by_contra hne
      exact hpre (h.mpr hne)
    rw [if_neg hpre, if_neg hpre, context, hout, List.nil_append, List.append_nil]

theorem record_request (seq : CudaSequence K) (token : Int) :
    (seq.record token).1.request = seq.request := by
  rw [record]
  split <;> rfl

theorem record_output (seq : CudaSequence K) (token : Int) :
    (seq.record token).1.output = seq.output ++ [token] := by
  rw [record]
  split <;> rfl

end CudaSequence

namespace CudaEngineState

variable {K G : Type}

def feeds (s : CudaEngineState K G) : List Feed :=
  s.running.map fun id => (id, (s.sequences id).stepTokens)

theorem map_fst_feeds (s : CudaEngineState K G) : (feeds s).map Prod.fst = s.running := by
  rw [feeds, List.map_map]
  exact List.map_id s.running

/-- A turn of the loop that records a batch. -/
def recordOne (state : CudaEngineState K G × Bool) (p : Nat × Nat) : CudaEngineState K G × Bool :=
  (state.1.setSequence p.1 ((state.1.sequences p.1).record p.2).1,
    state.2 || ((state.1.sequences p.1).record p.2).2)

theorem recordAll_eq (s : CudaEngineState K G) {picked : List (Nat × Nat)}
    (hnodup : (picked.map Prod.fst).Nodup) :
    ∃ sequences, (s.recordAll picked).1 = { s with sequences } ∧
      (∀ id, id ∉ picked.map Prod.fst → sequences id = s.sequences id) ∧
      (∀ p ∈ picked, sequences p.1 = ((s.sequences p.1).record p.2).1) ∧
      ((s.recordAll picked).2 = false → ∀ p ∈ picked, ((s.sequences p.1).record p.2).2 = false) := by
  have hfold : ∀ (picked : List (Nat × Nat)) (s : CudaEngineState K G) (anyFinished : Bool),
      (picked.map Prod.fst).Nodup → ∃ sequences,
        (picked.foldl recordOne (s, anyFinished)).1 = { s with sequences } ∧
        (∀ id, id ∉ picked.map Prod.fst → sequences id = s.sequences id) ∧
        (∀ p ∈ picked, sequences p.1 = ((s.sequences p.1).record p.2).1) ∧
        ((picked.foldl recordOne (s, anyFinished)).2 = false →
          anyFinished = false ∧ ∀ p ∈ picked, ((s.sequences p.1).record p.2).2 = false) := by
    intro picked
    induction picked with
    | nil => exact fun s anyFinished _ => ⟨s.sequences, rfl, fun _ _ => rfl, by simp, fun h => ⟨h, by simp⟩⟩
    | cons p picked ih =>
      intro s anyFinished hnodup
      simp only [List.map_cons, List.nodup_cons] at hnodup
      obtain ⟨sequences, hs, hothers, hpicked, hflag⟩ :=
        ih (s.setSequence p.1 ((s.sequences p.1).record p.2).1)
          (anyFinished || ((s.sequences p.1).record p.2).2) hnodup.2
      have hkept : ∀ q ∈ picked,
          (s.setSequence p.1 ((s.sequences p.1).record p.2).1).sequences q.1 = s.sequences q.1 := by
        intro q hq
        apply Function.update_of_ne
        intro heq
        exact hnodup.1 (heq ▸ List.mem_map_of_mem hq)
      refine ⟨sequences, hs, fun id hid => ?_, ?_, fun hfalse => ?_⟩
      · simp only [List.map_cons, List.mem_cons, not_or] at hid
        rw [hothers id hid.2]
        exact Function.update_of_ne hid.1 _ _
      · rintro q (_ | ⟨_, hq⟩)
        · rw [hothers p.1 hnodup.1]
          exact Function.update_self _ _ _
        · rw [hpicked q hq, hkept q hq]
      · obtain ⟨hor, hrest⟩ := hflag hfalse
        rw [Bool.or_eq_false_iff] at hor
        refine ⟨hor.1, ?_⟩
        rintro q (_ | ⟨_, hq⟩)
        · exact hor.2
        · rw [← hkept q hq]
          exact hrest q hq
  obtain ⟨sequences, hs, hothers, hpicked, hflag⟩ := hfold picked s false hnodup
  exact ⟨sequences, hs, hothers, hpicked, fun h => (hflag h).2⟩

end CudaEngineState

namespace CudaEngine

open CudaEngineState

variable {K G : Type} [Field K] [LinearOrder K] {E : CudaEngine K G}

/-! ### The invariant -/

def InVocab (E : CudaEngine K G) (t : Int) : Prop := 0 ≤ t ∧ t < E.model.config.vocabSize

/-- A request the engine is given: a non-empty prompt of known tokens, and room for a token. -/
structure Served (E : CudaEngine K G) (request : Request K) : Prop where
  nonempty : request.prompt ≠ []
  vocab : ∀ t ∈ request.prompt, E.InVocab t
  maxTokens : 1 ≤ request.maxTokens

/-- A running sequence and its cache, which holds `ids`. -/
structure Live (E : CudaEngine K G) (id : Nat) (ids : List Int) (seq : CudaSequence K)
    (cache : GpuKVCache K) : Prop where
  status : seq.status = .running
  address : seq.cache = some id
  prefilled : seq.prefilled = true ↔ seq.output ≠ []
  length_lt : (seq.output.length : Int) < seq.request.maxTokens
  capacity : cache.capacity = seq.request.prompt.length + seq.request.maxTokens
  holds : Holds E.model ids cache
  decodes : seq.request.params.temperature ≤ 0 → seq.request.Decodes E.model.forward seq.output

/-- A finished sequence. -/
structure Retired (E : CudaEngine K G) (seq : CudaSequence K) : Prop where
  status : seq.status = .finished
  output : seq.request.params.temperature ≤ 0 → seq.output = seq.request.greedyOutput E.model.forward

/-- What holds between two calls. -/
structure Inv (E : CudaEngine K G) (s : CudaEngineState K G) : Prop where
  nodup : (s.running ++ s.waiting).Nodup
  lt : ∀ id ∈ s.running ++ s.waiting, id < s.nextId
  served : ∀ id < s.nextId, E.Served (s.sequences id).request
  vocab : ∀ id < s.nextId, ∀ t ∈ (s.sequences id).output, E.InVocab t
  waiting : ∀ id ∈ s.waiting, (s.sequences id).status = .waiting ∧ (s.sequences id).output = [] ∧
    (s.sequences id).prefilled = false
  running : ∀ id ∈ s.running, E.Live id (s.sequences id).fed (s.sequences id) (s.caches id)
  retired : ∀ id < s.nextId, id ∉ s.running ++ s.waiting → E.Retired (s.sequences id)
  dims : s.running ≠ [] → 0 < E.model.config.numHiddenLayers ∧ 0 < E.model.kvDim

theorem inv_create (rng : G) : Inv E (create rng : CudaEngineState K G) where
  nodup := List.nodup_nil
  lt _ h := absurd h List.not_mem_nil
  served id h := absurd h (Nat.not_lt_zero id)
  vocab id h := absurd h (Nat.not_lt_zero id)
  waiting _ h := absurd h List.not_mem_nil
  running _ h := absurd h List.not_mem_nil
  retired id h := absurd h (Nat.not_lt_zero id)
  dims h := absurd rfl h

/-! ### Requests and admission -/

theorem Inv.addRequest {s : CudaEngineState K G} (h : Inv E s) {request : Request K}
    (hrequest : E.Served request) : Inv E (finalState (addRequest request) s) := by
  have hrun : finalState (CudaEngine.addRequest request) s = { s.setSequence s.nextId { request } with
      waiting := s.waiting ++ [s.nextId], nextId := s.nextId + 1 } := by
    rw [CudaEngine.addRequest]
    simp only [hrequest.nonempty, if_false]
    rfl
  rw [hrun]
  have hne : ∀ id < s.nextId, id ≠ s.nextId := fun id hid => Nat.ne_of_lt hid
  have hold : ∀ id < s.nextId, Function.update s.sequences s.nextId { request } id = s.sequences id :=
    fun id hid => Function.update_of_ne (hne id hid) _ _
  have hself : Function.update s.sequences s.nextId { request } s.nextId = ({ request } : CudaSequence K) :=
    Function.update_self _ _ _
  have hfresh : s.nextId ∉ s.running ++ s.waiting := fun hmem => lt_irrefl _ (h.lt _ hmem)
  have hcases : ∀ id < s.nextId + 1, id < s.nextId ∨ id = s.nextId := fun id hid => by omega
  constructor
  · change (s.running ++ (s.waiting ++ [s.nextId])).Nodup
    rw [← List.append_assoc, List.nodup_append]
    refine ⟨h.nodup, List.nodup_singleton _, ?_⟩
    rintro a ha b hb rfl
    rw [List.mem_singleton] at hb
    exact hfresh (hb ▸ ha)
  · intro id hid
    change id ∈ s.running ++ (s.waiting ++ [s.nextId]) at hid
    rw [← List.append_assoc, List.mem_append, List.mem_singleton] at hid
    obtain hid | rfl := hid
    · exact Nat.lt_succ_of_lt (h.lt id hid)
    · exact Nat.lt_succ_self _
  · intro id hid
    change E.Served (Function.update s.sequences s.nextId { request } id).request
    obtain hid | rfl := hcases id hid
    · rw [hold id hid]
      exact h.served id hid
    · rw [hself]
      exact hrequest
  · intro id hid
    change ∀ t ∈ (Function.update s.sequences s.nextId { request } id).output, E.InVocab t
    obtain hid | rfl := hcases id hid
    · rw [hold id hid]
      exact h.vocab id hid
    · rw [hself]
      exact fun t ht => absurd ht List.not_mem_nil
  · intro id hid
    change (Function.update s.sequences s.nextId { request } id).status = .waiting ∧
      (Function.update s.sequences s.nextId { request } id).output = [] ∧
      (Function.update s.sequences s.nextId { request } id).prefilled = false
    obtain hid | hid := List.mem_append.mp hid
    · rw [hold id (h.lt id (List.mem_append_right _ hid))]
      exact h.waiting id hid
    · rw [List.mem_singleton.mp hid, hself]
      exact ⟨rfl, rfl, rfl⟩
  · intro id hid
    have hlt := h.lt id (List.mem_append_left _ hid)
    change E.Live id (Function.update s.sequences s.nextId { request } id).fed
      (Function.update s.sequences s.nextId { request } id) (s.caches id)
    rw [hold id hlt]
    exact h.running id hid
  · intro id hid hmem
    change id ∉ s.running ++ (s.waiting ++ [s.nextId]) at hmem
    rw [← List.append_assoc, List.mem_append, not_or, List.mem_singleton] at hmem
    have hlt := (hcases id hid).resolve_right hmem.2
    change E.Retired (Function.update s.sequences s.nextId { request } id)
    rw [hold id hlt]
    exact h.retired id hlt hmem.1
  · exact h.dims

theorem Inv.admitFirst {s : CudaEngineState K G} (h : Inv E s) {id : Nat} {rest : List Nat}
    (hwaiting : s.waiting = id :: rest) (hlayers : 0 < E.model.config.numHiddenLayers)
    (hdim : 0 < E.model.kvDim) :
    Inv E { s.setSequence id { s.sequences id with cache := some id, status := .running } with
      caches := Function.update s.caches id ⟨(s.sequences id).request.prompt.length +
        (s.sequences id).request.maxTokens, 0, fun _ _ => [], fun _ _ => []⟩
      running := s.running ++ [id]
      waiting := rest } := by
  have hmem : id ∈ s.running ++ s.waiting := by
    rw [hwaiting]
    exact List.mem_append_right _ List.mem_cons_self
  have hlt := h.lt id hmem
  obtain ⟨-, hout, hpre⟩ := h.waiting id (hwaiting ▸ List.mem_cons_self)
  have hids : s.running ++ [id] ++ rest = s.running ++ s.waiting := by
    rw [hwaiting, List.append_assoc, List.singleton_append]
  have hnodup := h.nodup
  rw [hwaiting, List.nodup_append] at hnodup
  obtain ⟨-, hrest, hdisjoint⟩ := hnodup
  have hfresh : ∀ j ∈ s.running, j ≠ id := fun j hj => hdisjoint j hj id List.mem_cons_self
  have hother : ∀ j ∈ rest, j ≠ id := by
    rintro j hj rfl
    exact (List.nodup_cons.mp hrest).1 hj
  have hkept : ∀ j, j ≠ id → Function.update s.sequences id
      { s.sequences id with cache := some id, status := .running } j = s.sequences j :=
    fun j hj => Function.update_of_ne hj _ _
  -- admission changes neither request nor output of any sequence
  have hsame : ∀ j, (Function.update s.sequences id
      { s.sequences id with cache := some id, status := .running } j).request = (s.sequences j).request ∧
      (Function.update s.sequences id
        { s.sequences id with cache := some id, status := .running } j).output = (s.sequences j).output := by
    intro j
    by_cases hj : j = id
    · rw [hj, Function.update_self]
      exact ⟨rfl, rfl⟩
    · rw [hkept j hj]
      exact ⟨rfl, rfl⟩
  constructor
  · change (s.running ++ [id] ++ rest).Nodup
    rw [hids]
    exact h.nodup
  · intro j hj
    change j ∈ s.running ++ [id] ++ rest at hj
    rw [hids] at hj
    exact h.lt j hj
  · intro j hj
    change E.Served (Function.update s.sequences id
      { s.sequences id with cache := some id, status := .running } j).request
    rw [(hsame j).1]
    exact h.served j hj
  · intro j hj
    change ∀ t ∈ (Function.update s.sequences id
      { s.sequences id with cache := some id, status := .running } j).output, E.InVocab t
    rw [(hsame j).2]
    exact h.vocab j hj
  · intro j hj
    simp only [setSequence, hkept j (hother j hj)]
    exact h.waiting j (hwaiting ▸ List.mem_cons_of_mem _ hj)
  · intro j hj
    change j ∈ s.running ++ [id] at hj
    rw [List.mem_append, List.mem_singleton] at hj
    obtain hj | rfl := hj
    · simp only [setSequence, hkept j (hfresh j hj), Function.update_of_ne (hfresh j hj)]
      exact h.running j hj
    · have hserved := h.served j hlt
      simp only [setSequence, Function.update_self]
      refine ⟨rfl, rfl, ?_, ?_, rfl, ?_, ?_⟩
      · simp [hpre, hout]
      · rw [hout, List.length_nil]
        exact hserved.maxTokens
      · rw [CudaSequence.fed, hpre, if_neg Bool.false_ne_true]
        exact CudaModel.holds_create _
      · intro _
        rw [hout]
        exact Request.decodes_nil
  · intro j hj hnot
    change j ∉ s.running ++ [id] ++ rest at hnot
    rw [hids] at hnot
    have hne : j ≠ id := by
      rintro rfl
      exact hnot hmem
    simp only [setSequence, hkept j hne]
    exact h.retired j hj hnot
  · exact fun _ => ⟨hlayers, hdim⟩

def capacityExceeded : Error := .runtimeError "GpuKVCache: capacity exceeded"

theorem wp_admitWaiting {s : CudaEngineState K G} (h : Inv E s) {waiting : List Nat}
    (hwaiting : s.waiting = waiting) :
    wp (E.admitWaiting waiting) (fun _ => Inv E) (fun e s' => e ≠ capacityExceeded ∧ Inv E s') s := by
  induction waiting generalizing s with
  | nil => exact h
  | cons id rest ih =>
    rw [admitWaiting]
    simp only [wp_bind, wp_get]
    split
    · simp only [wp_bind, wp_lift, wp_set]
      constructor
      · intro cache hcache
        rw [GpuKVCache.create] at hcache
        split at hcache
        · cases hcache
        · rename_i hdims
          simp only [not_or, not_le] at hdims
          cases hcache
          exact ih (h.admitFirst hwaiting (Int.natCast_pos.mp hdims.1) (Int.natCast_pos.mp hdims.2.1)) rfl
      · intro e he
        rw [GpuKVCache.create] at he
        split at he
        · cases he
          exact ⟨by decide, h⟩
        · cases he
    · exact h

/-! ### A batch -/

/-- The first largest of the last logits is what plain greedy decoding picks. -/
theorem greedyNext_forward (hlayers : 0 < E.model.config.numHiddenLayers) (hdim : 0 < E.model.kvDim)
    {ids : List Int} (hids : ids ≠ []) :
    greedyNext E.model.forward ids =
      some (Sampler.argmax (E.model.lastLogits ids) E.model.config.vocabSize : Int) := by
  have hrow : (E.model.logits ids).getD ((E.model.logits ids).length - 1) [] = E.model.lastLogits ids := by
    rw [CudaModel.lastLogits, List.getD_eq_getElem?_getD, List.getLastD_eq_getLast?,
      List.getLast?_eq_getElem?]
  rw [greedyNext, CudaModel.forward_eq hlayers hdim hids]
  dsimp only
  rw [argmaxRow, hrow, E.model.length_lastLogits hids]

/-- A token the batch may pick for a sequence. -/
structure Picked (E : CudaEngine K G) (seq : CudaSequence K) (token : Nat) : Prop where
  lt : token < E.model.config.vocabSize
  greedy : seq.request.params.temperature ≤ 0 →
    token = Sampler.argmax (E.model.lastLogits seq.context) E.model.config.vocabSize

theorem wp_samples {s : CudaEngineState K G} (sequences : Nat → CudaSequence K) {logits : Rows K}
    (hvocab : 0 < E.model.config.vocabSize) (hrows : ∀ row ∈ logits, row.length = E.model.config.vocabSize)
    {ids : List Nat} {k : Nat}
    (hlogits : logits.drop k = ids.map fun id => E.model.lastLogits (sequences id).context) :
    wp ((ids.zipIdx k).mapM fun (id, k) =>
        zoom CudaEngineState.rng (fun rng s => { s with rng })
          (E.sampler.sample (sliceRows logits.flatten (k * E.model.config.vocabSize)
            E.model.config.vocabSize) E.model.config.vocabSize (sequences id).request.params))
      (fun tokens s' => (∃ rng, s' = { s with rng }) ∧
        List.Forall₂ (fun id token => E.Picked (sequences id) token) ids tokens)
      (fun _ _ => False) s := by
  induction ids generalizing k s with
  | nil => exact ⟨⟨s.rng, rfl⟩, List.Forall₂.nil⟩
  | cons id ids ih =>
    rw [List.map_cons] at hlogits
    have hrow : logits[k]? = some (E.model.lastLogits (sequences id).context) := by
      rw [← Nat.add_zero k, ← List.getElem?_drop, hlogits, List.getElem?_cons_zero]
    have hlen := hrows _ (List.mem_of_getElem? hrow)
    have hrest : logits.drop (k + 1) = ids.map fun id => E.model.lastLogits (sequences id).context := by
      rw [← List.drop_drop, hlogits, List.drop_one, List.tail_cons]
    simp only [List.zipIdx_cons, List.mapM_cons, wp_bind, wp_pure, wp_zoom, sliceRows_flatten hrows hrow]
    apply wp_mono (E.sampler.wp_sample (le_of_eq hlen) (sequences id).request.params s.rng) ?_ ?_
    · rintro token rng ⟨hlt, hgreedy⟩
      apply wp_mono (ih hrest) ?_ fun _ _ hf => hf
      rintro tokens s' ⟨⟨rng', rfl⟩, hpicked⟩
      exact ⟨⟨rng', rfl⟩, List.Forall₂.cons ⟨hlt, hgreedy⟩ hpicked⟩
    · rintro e rng ⟨hzero, -⟩
      exact absurd hzero (Nat.ne_of_gt hvocab)

variable {s : CudaEngineState K G}

theorem Inv.context_ne_nil (h : Inv E s) {id : Nat} (hid : id < s.nextId) :
    (s.sequences id).context ≠ [] :=
  List.append_ne_nil_of_left_ne_nil (h.served id hid).nonempty _

theorem Inv.vocab_pos (h : Inv E s) {id : Nat} (hid : id < s.nextId) : 0 < E.model.config.vocabSize := by
  obtain ⟨t, ht⟩ := List.exists_mem_of_ne_nil _ (h.served id hid).nonempty
  have hin := (h.served id hid).vocab t ht
  have hlow := hin.1
  have hhigh := hin.2
  omega

theorem Inv.items_eq (h : Inv E s) : s.running.map s.item = (feeds s).map CudaModel.cacheItem := by
  rw [feeds, List.map_map]
  apply List.map_congr_left
  intro id hid
  rw [Function.comp_apply, CudaModel.cacheItem, item, (h.running id hid).address]
  rfl

theorem Inv.fed_append (h : Inv E s) {id : Nat} (hid : id ∈ s.running) :
    (s.sequences id).fed ++ (s.sequences id).stepTokens = (s.sequences id).context :=
  CudaSequence.fed_append_stepTokens (h.running id hid).prefilled

/-- The forward pass over the running sequences: the last logits of every context, and caches that hold
all of it. -/
theorem Inv.wp_forward (h : Inv E s) (hne : s.running ≠ []) (message : String) :
    wp (E.model.forwardBatchCaches message (s.running.map s.item))
      (fun logits caches =>
        logits = s.running.map (fun id => E.model.lastLogits (s.sequences id).context) ∧
        ∀ id ∈ s.running, E.Live id (s.sequences id).context (s.sequences id) (caches id))
      (fun _ _ => False) s.caches := by
  have hfeeds : ∀ f ∈ feeds s, f.1 ∈ s.running ∧ f.2 = (s.sequences f.1).stepTokens := by
    intro f hf
    obtain ⟨id, hid, rfl⟩ := List.mem_map.mp hf
    exact ⟨hid, rfl⟩
  have hnodup : ((feeds s).map Prod.fst).Nodup := by
    rw [map_fst_feeds]
    exact h.nodup.of_append_left
  rw [h.items_eq]
  apply wp_mono (CudaModel.wp_forwardBatchCaches (fun id => (s.sequences id).fed) message
    (by simpa [feeds] using hne) hnodup ?_ ?_ ?_) ?_ fun _ _ hf => hf
  · intro f hf
    obtain ⟨hid, htokens⟩ := hfeeds f hf
    rw [htokens, CudaSequence.stepTokens]
    split
    · exact List.cons_ne_nil _ _
    · exact (h.served _ (h.lt _ (List.mem_append_left _ hid))).nonempty
  · intro f hf
    exact (h.running f.1 (hfeeds f hf).1).holds
  · intro f hf
    obtain ⟨hid, htokens⟩ := hfeeds f hf
    have hlength := congrArg List.length (h.fed_append hid)
    have hlive := h.running f.1 hid
    have hroom := hlive.length_lt
    rw [List.length_append, CudaSequence.context, List.length_append] at hlength
    rw [hlive.capacity, htokens]
    omega
  · rintro logits caches ⟨rfl, hholds, hcapacity, -⟩
    constructor
    · rw [feeds, List.map_map]
      apply List.map_congr_left
      intro id hid
      rw [Function.comp_apply, h.fed_append hid]
    · intro id hid
      have hlive := h.running id hid
      have hcache := hholds (id, (s.sequences id).stepTokens) (List.mem_map_of_mem hid)
      rw [h.fed_append hid] at hcache
      exact ⟨hlive.status, hlive.address, hlive.prefilled, hlive.length_lt,
        (hcapacity id).trans hlive.capacity, hcache, hlive.decodes⟩

/-- Both ways of picking tokens pick the greedy one for a greedy request. -/
theorem Inv.wp_pickTokens (h : Inv E s) (hne : s.running ≠ []) :
    wp (E.pickTokens s.running (s.running.map s.item))
      (fun tokens s' => (∃ caches rng, s' = { s with caches, rng } ∧
          ∀ id ∈ s.running, E.Live id (s.sequences id).context (s.sequences id) (caches id)) ∧
        List.Forall₂ (fun id token => E.Picked (s.sequences id) token) s.running tokens)
      (fun _ _ => False) s := by
  obtain ⟨first, hfirst⟩ := List.exists_mem_of_ne_nil _ hne
  have hvocab := h.vocab_pos (h.lt first (List.mem_append_left _ hfirst))
  rw [pickTokens]
  simp only [wp_bind, wp_get]
  split
  · rename_i hall
    rw [onCaches, wp_zoom, CudaModel.forwardBatchArgmax]
    simp only [wp_bind, wp_pure]
    apply wp_mono (h.wp_forward hne _) ?_ fun _ _ hf => hf
    rintro logits caches ⟨rfl, hlive⟩
    refine ⟨⟨caches, s.rng, rfl, hlive⟩, ?_⟩
    rw [List.map_map, List.forall₂_map_right_iff, List.forall₂_same]
    intro id _
    exact ⟨Sampler.argmax_lt _ hvocab, fun _ => rfl⟩
  · rw [onCaches]
    simp only [wp_bind, wp_zoom, CudaModel.forwardBatch]
    apply wp_mono (h.wp_forward hne _) ?_ fun _ _ hf => hf
    rintro logits caches ⟨hlogits, hlive⟩
    have hrows : ∀ row ∈ logits, row.length = E.model.config.vocabSize := by
      intro row hrow
      rw [hlogits] at hrow
      obtain ⟨id, hid, rfl⟩ := List.mem_map.mp hrow
      exact E.model.length_lastLogits (h.context_ne_nil (h.lt id (List.mem_append_left _ hid)))
    apply wp_mono (wp_samples s.sequences hvocab hrows (k := 0) hlogits) ?_ fun _ _ hf => hf
    rintro tokens s' ⟨⟨rng, rfl⟩, hpicked⟩
    exact ⟨⟨caches, rng, rfl, hlive⟩, hpicked⟩

/-- A token is recorded for a sequence whose cache holds its whole context. -/
theorem Live.record {id : Nat} {seq : CudaSequence K} {cache : GpuKVCache K} {token : Nat}
    (h : E.Live id seq.context seq cache) (hcontext : seq.context ≠ []) (hpicked : E.Picked seq token)
    (hlayers : 0 < E.model.config.numHiddenLayers) (hdim : 0 < E.model.kvDim) :
    ((seq.record token).2 = true → E.Retired (seq.record token).1) ∧
      ((seq.record token).2 = false →
        E.Live id (seq.record token).1.fed (seq.record token).1 cache) := by
  have hnext : seq.request.params.temperature ≤ 0 →
      greedyNext E.model.forward (seq.request.prompt ++ seq.output) = some (token : Int) := by
    intro hgreedy
    rw [hpicked.greedy hgreedy]
    exact greedyNext_forward hlayers hdim hcontext
  rw [CudaSequence.record]
  split
  · rename_i hlast
    refine ⟨fun _ => ⟨rfl, fun hgreedy => ?_⟩, fun hfalse => nomatch hfalse⟩
    exact ((h.decodes hgreedy).last (hnext hgreedy) hlast).symm
  · rename_i hlast
    rw [not_or] at hlast
    refine ⟨fun htrue => (nomatch htrue), fun _ => ⟨h.status, h.address, ?_, not_le.mp hlast.2, h.capacity,
      ?_, fun hgreedy => (h.decodes hgreedy).snoc (hnext hgreedy) hlast.1 hlast.2⟩⟩
    · simp
    · have hfed : ({ seq with prefilled := true, output := seq.output ++ [(token : Int)] } :
          CudaSequence K).fed = seq.context := by
        rw [CudaSequence.fed, if_pos rfl, CudaSequence.context, ← List.append_assoc, List.dropLast_concat]
        rfl
      rw [hfed]
      exact h.holds

/-- A batch after which every sequence of it is finished or live, the finished ones having left. -/
theorem Inv.recorded (h : Inv E s) (hne : s.running ≠ []) (sequences : Nat → CudaSequence K)
    (caches : GpuCaches K) (rng : G) (hrequest : ∀ id, (sequences id).request = (s.sequences id).request)
    (hothers : ∀ id, id ∉ s.running → sequences id = s.sequences id)
    (hvocab : ∀ id ∈ s.running, ∀ t ∈ (sequences id).output, E.InVocab t)
    (hbatch : ∀ id ∈ s.running, E.Retired (sequences id) ∨
      E.Live id (sequences id).fed (sequences id) (caches id)) :
    Inv E { s with
      rng, caches, sequences
      running := s.running.filter fun id => (sequences id).status ≠ SeqStatus.finished } := by
  have hsub : List.Sublist ((s.running.filter fun id => (sequences id).status ≠ SeqStatus.finished) ++
      s.waiting) (s.running ++ s.waiting) := List.filter_sublist.append (List.Sublist.refl _)
  refine ⟨hsub.nodup h.nodup, fun id hid => h.lt id (hsub.subset hid), ?_, ?_, ?_, ?_, ?_,
    fun _ => h.dims hne⟩
  · intro id hid
    dsimp only
    rw [hrequest]
    exact h.served id hid
  · intro id hid
    by_cases hrunning : id ∈ s.running
    · exact hvocab id hrunning
    · dsimp only
      rw [hothers id hrunning]
      exact h.vocab id hid
  · intro id hid
    have hnot : id ∉ s.running := fun hrunning =>
      (List.nodup_append.mp h.nodup).2.2 id hrunning id hid rfl
    dsimp only
    rw [hothers id hnot]
    exact h.waiting id hid
  · intro id hid
    obtain ⟨hrunning, hstatus⟩ := List.mem_filter.mp hid
    exact (hbatch id hrunning).resolve_left fun hretired => of_decide_eq_true hstatus hretired.status
  · intro id hid hnot
    by_cases hrunning : id ∈ s.running
    · apply (hbatch id hrunning).resolve_right
      intro hlive
      apply hnot
      refine List.mem_append_left _ (List.mem_filter.mpr ⟨hrunning, decide_eq_true ?_⟩)
      rw [hlive.status]
      decide
    · dsimp only
      rw [hothers id hrunning]
      refine h.retired id hid fun hmem => ?_
      obtain hmem | hmem := List.mem_append.mp hmem
      · exact hrunning hmem
      · exact hnot (List.mem_append_right _ hmem)

/-- **A batch** keeps the invariant, and cannot throw. -/
theorem Inv.wp_runBatch (h : Inv E s) (hne : s.running ≠ []) :
    wp (E.runBatch s.running) (fun _ => Inv E) (fun _ _ => False) s := by
  obtain ⟨hlayers, hdim⟩ := h.dims hne
  rw [runBatch]
  simp only [wp_bind, wp_get]
  apply wp_mono (h.wp_pickTokens hne) ?_ fun _ _ hf => hf
  rintro tokens s' ⟨⟨caches, rng, rfl, hlive⟩, hpicked⟩
  have hlen := hpicked.length_eq
  have hfst : (s.running.zip tokens).map Prod.fst = s.running := List.map_fst_zip (le_of_eq hlen)
  have hnodup : ((s.running.zip tokens).map Prod.fst).Nodup := by
    rw [hfst]
    exact h.nodup.of_append_left
  obtain ⟨sequences, hs, hothers, hrecorded, hflag⟩ :=
    recordAll_eq ({ s with caches, rng } : CudaEngineState K G) hnodup
  rw [hfst] at hothers
  dsimp only at hothers hrecorded hflag
  have hbatch : ∀ id ∈ s.running, ∃ token : Nat, token < E.model.config.vocabSize ∧
      sequences id = ((s.sequences id).record token).1 ∧
      (((s.sequences id).record token).2 = true → E.Retired (sequences id)) ∧
      (((s.sequences id).record token).2 = false →
        E.Live id (sequences id).fed (sequences id) (caches id)) ∧
      ((recordAll ({ s with caches, rng } : CudaEngineState K G) (s.running.zip tokens)).2 = false →
        ((s.sequences id).record token).2 = false) := by
    intro id hid
    rw [← hfst] at hid
    obtain ⟨⟨id, token⟩, hmem, rfl⟩ := List.mem_map.mp hid
    have hid := (List.of_mem_zip hmem).1
    have htoken := (List.forall₂_iff_zip.mp hpicked).2 hmem
    have hseq := hrecorded _ hmem
    have hrecord := (hlive id hid).record (h.context_ne_nil (h.lt id (List.mem_append_left _ hid))) htoken
      hlayers hdim
    rw [← hseq] at hrecord
    exact ⟨token, htoken.lt, hseq, hrecord.1, hrecord.2, fun hfalse => hflag hfalse _ hmem⟩
  have hinv := h.recorded hne sequences caches rng ?_ hothers ?_ ?_
  · rw [hs]
    split
    · exact hinv
    · rename_i hfalse
      rw [Bool.not_eq_true] at hfalse
      have hall : (s.running.filter fun id => (sequences id).status ≠ SeqStatus.finished) = s.running := by
        rw [List.filter_eq_self]
        intro id hid
        obtain ⟨token, -, -, -, hlive', hflag'⟩ := hbatch id hid
        rw [(hlive' (hflag' hfalse)).status]
        decide
      rw [hall] at hinv
      exact hinv
  · intro id
    by_cases hid : id ∈ s.running
    · obtain ⟨token, -, hseq, -⟩ := hbatch id hid
      rw [hseq, CudaSequence.record_request]
    · rw [hothers id hid]
  · intro id hid t ht
    obtain ⟨token, hlt, hseq, -⟩ := hbatch id hid
    rw [hseq, CudaSequence.record_output, List.mem_append, List.mem_singleton] at ht
    obtain ht | rfl := ht
    · exact h.vocab id (h.lt id (List.mem_append_left _ hid)) t ht
    · exact ⟨Int.natCast_nonneg _, Int.ofNat_lt.mpr hlt⟩
  · intro id hid
    obtain ⟨token, -, -, hretired, hlive', -⟩ := hbatch id hid
    cases hdone : ((s.sequences id).record token).2 with
    | true => exact .inl (hretired hdone)
    | false => exact .inr (hlive' hdone)

/-! ### Runs -/

/-- What a caller may do: any step, and any request that asks for a token. -/
def Allowed (E : CudaEngine K G) (_ : CudaEngineState K G) : Engine.Action K → Prop
  | .addRequest request => E.Served request
  | .step => True

theorem Inv.wp_step (h : Inv E s) :
    wp E.step (fun _ => Inv E) (fun e s' => e ≠ capacityExceeded ∧ Inv E s') s := by
  rw [step]
  simp only [wp_bind, wp_get]
  apply wp_mono (wp_admitWaiting h rfl) ?_ fun _ _ he => he
  intro _ s' h'
  split
  · exact h'
  · rename_i hne
    exact wp_mono (h'.wp_runBatch hne) (fun _ _ h'' => h'') fun _ _ hf => hf.elim

theorem inv_reachable {rng : G} (hs : (E.machine rng).Reachable E.Allowed s) : Inv E s := by
  apply hs.invariant (I := Inv E) (inv_create rng)
  intro s a _ h ha
  cases a with
  | addRequest request => exact h.addRequest ha
  | step => exact wp_finalState (wp_mono h.wp_step (fun _ _ h' => h') fun _ _ h' => h'.2)

/-- **The device scheduler is transparent**: no append overflows a cache, and the output of every greedy
request is a prefix of what plain greedy decoding gives it, and all of it once the request is finished. -/
theorem output_isPrefix_greedyOutput {rng : G} (hs : (E.machine rng).Reachable E.Allowed s) :
    (∀ e s', E.step s = .error e s' → e ≠ capacityExceeded) ∧
    ∀ id < s.nextId, (s.sequences id).request.params.temperature ≤ 0 →
      (s.sequences id).output <+: (s.sequences id).request.greedyOutput E.model.forward ∧
      ((s.sequences id).status = .finished →
        (s.sequences id).output = (s.sequences id).request.greedyOutput E.model.forward) := by
  have h := inv_reachable hs
  constructor
  · intro e s' he
    exact (wp_error h.wp_step he).1
  · intro id hid hgreedy
    by_cases hrunning : id ∈ s.running
    · have hlive := h.running id hrunning
      refine ⟨(hlive.decodes hgreedy).isPrefix, fun hdone => ?_⟩
      rw [hlive.status] at hdone
      cases hdone
    by_cases hwaiting : id ∈ s.waiting
    · obtain ⟨hstatus, hout, -⟩ := h.waiting id hwaiting
      refine ⟨?_, fun hdone => ?_⟩
      · rw [hout]
        exact List.nil_prefix
      · rw [hstatus] at hdone
        cases hdone
    · have hretired := h.retired id hid fun hmem => (List.mem_append.mp hmem).elim hrunning hwaiting
      exact ⟨(hretired.output hgreedy).symm ▸ List.prefix_refl _, fun _ => hretired.output hgreedy⟩

/-- An engine over a model of one layer and three tokens: a row is one number, and attention sums the
values. -/
def tiny : CudaEngine ℚ Unit where
  model :=
    { config := ⟨1, 1, 1, 1, 3, 1, 0, false⟩
      decoder :=
        { embed := fun t => [(t : ℚ)]
          block := fun _ =>
            { query := fun _ row => row
              key := fun _ row => row
              value := fun _ row => row
              attend := fun _ _ values => [(values.map List.sum).sum]
              finish := List.zipWith (· + ·) } }
      finalNorm := fun row => row
      lmHead := fun row => (List.range 3).map fun i => if row.sum.num % 3 = i then 1 else 0
      length_lmHead := fun _ => by simp
      headDim_le := by decide }
  sampler := Engine.tinySampler
  maxBatch := 2

theorem output_isPrefix_greedyOutput_tiny :
    let m := tiny.machine ()
    let s := m.next (m.next (m.next (m.next m.start (.addRequest ⟨[1, 2], ⟨0, 0, 1⟩, 2, -1⟩))
      (.addRequest ⟨[2], ⟨1, 0, 1⟩, 3, -1⟩)) .step) .step
    (s.sequences 0).output = (s.sequences 0).request.greedyOutput tiny.model.forward := by
  have hfirst : ∀ s, tiny.Allowed s (.addRequest ⟨[1, 2], ⟨0, 0, 1⟩, 2, -1⟩) :=
    fun _ => ⟨by decide, by unfold InVocab; decide, by decide⟩
  have hsecond : ∀ s, tiny.Allowed s (.addRequest ⟨[2], ⟨1, 0, 1⟩, 3, -1⟩) :=
    fun _ => ⟨by decide, by unfold InVocab; decide, by decide⟩
  have hstep : ∀ s, tiny.Allowed s .step := fun _ => trivial
  exact ((output_isPrefix_greedyOutput (.next (.next (.next (.next .start (hfirst _)) (hsecond _))
    (hstep _)) (hstep _))).2 0 (by decide +kernel) (by decide +kernel)).2 (by decide +kernel)

end CudaEngine

end InferenceEngine
