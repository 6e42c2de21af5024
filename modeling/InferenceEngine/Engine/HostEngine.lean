import InferenceEngine.Engine.Generate
import InferenceEngine.Engine.HostGreedy
import InferenceEngine.Model.HostBatch

/-!
# The engine on flat vectors

`Engine` as it is: the block manager keeps flat vectors, a step hands one tensor of logits to the sampler, and the
sampler reads a stretch of its numbers. Seen row by row it makes the steps of the engine of rows, so what is proved
there holds of it, with the forward pass over whole tensors as the measure.
-/

namespace InferenceEngine

open Exec

namespace Engine

open EngineState

variable {W Q K G : Type} [Field K] [LinearOrder K] (E : Engine W Q K G)

/-- A step up to the forward pass: admission, and the batch. -/
def nextBatch : EStateM Error (EngineState K G) (List Batched) := do
  modify fun s => E.admitWaiting s.waiting s
  E.formBatch ((← get).running.length + 1)

/-- A step from the forward pass on: a token for every sequence of the batch, and the finished sequences leave. -/
def sampleBatch (logits : Rows K) (batch : List Batched) : EStateM Error (EngineState K G) Unit := do
  let anyFinished ← batch.zipIdx.foldlM
    (fun any (b, k) => do return (← E.sampleOne logits b k) || any) false
  if anyFinished then
    modify fun s =>
      { s with running := s.running.filter fun id => (s.sequences id).status ≠ .finished }

theorem step_eq : E.step = (do
    let batch ← E.nextBatch
    if batch = [] then
      return ()
    let logits ← onPool (E.model.forwardBatch E.config (batchItems batch))
    E.sampleBatch logits batch) := rfl

variable {E}

/-- The sampler reads the numbers of the logits, not their rows. -/
theorem sampleBatch_congr {logits logits' : Rows K} (h : logits.flatten = logits'.flatten) (batch : List Batched) :
    E.sampleBatch logits batch = E.sampleBatch logits' batch := by
  have hone : E.sampleOne logits = E.sampleOne logits' := by
    funext b k
    rw [sampleOne, sampleOne, h]
  rw [sampleBatch, sampleBatch, hone]

theorem prompt_ne_nil {allowed : EngineState K G → Action K → Prop} {rng : G} {s : EngineState K G}
    (hs : (E.machine rng).Reachable allowed s) {id : Nat} (hid : id < s.nextId) :
    (s.sequences id).request.prompt ≠ [] := by
  have h : ∀ i < s.nextId, (s.sequences i).request.prompt ≠ [] := by
    apply hs.invariant (I := fun s => ∀ i < s.nextId, (s.sequences i).request.prompt ≠ [])
    · exact fun i hi => absurd hi (Nat.not_lt_zero i)
    · intro s a hs h _
      cases a with
      | addRequest request =>
        change ∀ i < (finalState (addRequest request) s).nextId,
          ((finalState (addRequest request) s).sequences i).request.prompt ≠ []
        rw [finalState_addRequest]
        split
        · exact h
        · next hne =>
          intro i hi
          obtain rfl | hlt := (Nat.le_of_lt_succ hi).eq_or_lt
          · simp only [setSequence, Function.update_self]
            exact hne
          · simp only [setSequence, Function.update_of_ne hlt.ne]
            exact h i hlt
      | step =>
        intro i hi
        obtain ⟨hnextId, hrequest⟩ := requests_step (inv_reachable hs)
        change ((finalState E.step s).sequences i).request.prompt ≠ []
        rw [hrequest]
        exact h i (hnextId ▸ hi)
  exact h id hid

/-! ### What a step does besides the forward pass stores nothing -/

/-- The stores of an engine. -/
def stores (s : EngineState K G) : (Nat → Nat → Row K) × (Nat → Nat → Row K) := s.pool.stores

omit [Field K] [LinearOrder K] in
theorem leaves_onPool {A : Type} {x : EStateM Error (Pool K) A} (hx : Leaves Pool.stores x) :
    Leaves (stores (G := G)) (onPool x) :=
  leaves_zoom hx fun _ _ h => h

omit [Field K] [LinearOrder K] in
theorem leaves_addRequest (request : Request K) : Leaves (stores (G := G)) (addRequest request) := by
  rw [addRequest]
  split
  · exact leaves_throw_bind _ _
  · apply leaves_get.bind
    intro s
    apply Leaves.bind (leaves_modify ?_)
    · exact fun _ => leaves_pure _
    · exact fun _ => rfl

theorem leaves_sharePrefix (id : Nat) : Leaves stores (E.sharePrefix id) := by
  apply leaves_get.bind
  intro s
  dsimp only
  split
  · split
    · apply (leaves_onPool (Pool.leaves_acquireSharedPrefix id _)).bind
      exact fun _ => leaves_pure _
    · exact leaves_pure _
  · exact leaves_pure _

theorem leaves_assemble (ids : List Nat) (budget : Int) : Leaves stores (E.assemble ids budget) := by
  induction ids generalizing budget with
  | nil => exact leaves_pure _
  | cons id ids ih =>
    apply (leaves_sharePrefix id).bind
    intro _
    apply leaves_get.bind
    intro s
    dsimp only
    split
    · exact ih _
    · apply (ih _).bind
      exact fun _ => leaves_pure _

omit [Field K] [LinearOrder K] in
theorem leaves_preemptYoungest : Leaves (stores (K := K) (G := G)) preemptYoungest := by
  apply leaves_get.bind
  intro s
  split
  · exact leaves_pure _
  · apply (leaves_onPool (Pool.leaves_free _)).bind
    intro _
    apply Leaves.bind (leaves_modify ?_)
    · exact fun _ => leaves_pure _
    · exact fun _ => rfl

theorem leaves_formBatch (fuel : Nat) : Leaves stores (E.formBatch fuel) := by
  induction fuel with
  | zero => exact leaves_pure _
  | succ fuel ih =>
    apply leaves_get.bind
    intro s
    apply (leaves_assemble _ _).bind
    intro batch
    split
    · exact leaves_pure _
    · apply leaves_preemptYoungest.bind
      intro preempted
      split
      · exact ih
      · exact leaves_pure _

theorem leaves_nextBatch : Leaves stores E.nextBatch := by
  apply Leaves.bind (leaves_modify ?_)
  · intro _
    apply leaves_get.bind
    exact fun s => leaves_formBatch _
  · intro s
    obtain ⟨admitted, ha⟩ := E.admitted_admitWaiting s
    exact congrArg Pool.stores ha.pool

theorem leaves_sampleOne (logits : Rows K) (b : Batched) (k : Nat) : Leaves stores (E.sampleOne logits b k) := by
  apply leaves_get.bind
  intro s
  apply Leaves.bind (leaves_zoom_apart ?_)
  · intro token
    apply Leaves.bind (leaves_modify ?_)
    · intro _
      dsimp only
      split
      · apply Leaves.bind (leaves_modify ?_)
        · intro _
          apply (leaves_onPool (Pool.leaves_free _)).bind
          exact fun _ => leaves_pure _
        · exact fun _ => rfl
      · split
        · apply (leaves_onPool (Pool.leaves_registerPrefix _ _)).bind
          exact fun _ => leaves_pure _
        · exact leaves_pure _
    · exact fun _ => rfl
  · exact fun _ _ => rfl

theorem leaves_sampleBatch (logits : Rows K) (batch : List Batched) :
    Leaves stores (E.sampleBatch logits batch) := by
  apply Leaves.bind (Leaves.foldlM ?_ _ _)
  · intro anyFinished
    split
    · exact leaves_modify fun _ => rfl
    · exact leaves_pure _
  · intro any pair
    apply (leaves_sampleOne logits pair.1 pair.2).bind
    exact fun _ => leaves_pure _

end Engine

namespace Host

/-- What stays fixed in an `Engine` that keeps flat vectors. The block manager is built for the model. -/
structure Engine (K G : Type) [Field K] [LinearOrder K] where
  model : Model K
  sampler : Sampler K G
  config : PoolConfig
  maxBatch : Int
  prefixCache : Bool
  numLayers_eq : config.numLayers = model.checkpoint.config.numHiddenLayers
  kvDim_eq : config.kvDim = model.checkpoint.kvDim

/-- What changes in it. -/
structure EngineState (K G : Type) where
  manager : BlockManager K
  rng : G
  waiting : List Nat
  running : List Nat
  sequences : Nat → EngineSequence K
  nextId : Nat
  preemptions : Nat

namespace EngineState

variable {K G : Type} (c : PoolSizes)

/-- The engine of the rows. -/
def rows (s : EngineState K G) : InferenceEngine.EngineState K G where
  pool := BlockManager.rows c s.manager
  rng := s.rng
  waiting := s.waiting
  running := s.running
  sequences := s.sequences
  nextId := s.nextId
  preemptions := s.preemptions

/-- Everything but the vectors, from an engine of rows. -/
def withBooks (t : InferenceEngine.EngineState K G) (s : EngineState K G) : EngineState K G where
  manager := s.manager.withBlocks t.pool
  rng := t.rng
  waiting := t.waiting
  running := t.running
  sequences := t.sequences
  nextId := t.nextId
  preemptions := t.preemptions

/-- What leaves the vectors alone is done as by the engine of rows: queues, block tables, prefixes and sampling. -/
def onBooks {A : Type} (x : EStateM Error (InferenceEngine.EngineState K G) A) :
    EStateM Error (EngineState K G) A :=
  zoom (rows c) withBooks x

def onManager {A : Type} (x : EStateM Error (BlockManager K) A) : EStateM Error (EngineState K G) A :=
  zoom EngineState.manager (fun manager s => { s with manager }) x

variable {c}

theorem rows_withBooks {s : EngineState K G} {t : InferenceEngine.EngineState K G}
    (h : InferenceEngine.Engine.stores t = InferenceEngine.Engine.stores (s.rows c)) :
    (withBooks t s).rows c = t := by
  have hpool : BlockManager.rows c (s.manager.withBlocks t.pool) = t.pool := BlockManager.rows_withBlocks h
  rw [rows, withBooks]
  dsimp only
  rw [hpool]

theorem follows_onBooks {A : Type} {x : EStateM Error (InferenceEngine.EngineState K G) A}
    (hx : Leaves InferenceEngine.Engine.stores x) : Follows (fun s t => rows c s = t) Eq (onBooks c x) x := by
  apply follows_zoom hx
  · exact fun s t h => h
  · intro s t t' h hstores
    subst h
    exact rows_withBooks hstores

/-- The rows behind a program on the books, whether it returns or throws. -/
theorem rows_finalState_onBooks {A : Type} {x : EStateM Error (InferenceEngine.EngineState K G) A}
    (hx : Leaves InferenceEngine.Engine.stores x) (s : EngineState K G) :
    rows c (finalState (onBooks c x) s) = finalState x (rows c s) := by
  have hstores := wp_finalState (hx (rows c s))
  rw [← rows_withBooks hstores]
  congr 1
  rw [finalState, finalState, onBooks, zoom]
  cases x (rows c s) <;> rfl

theorem follows_onManager {A B : Type} {S : A → B → Prop} {x : EStateM Error (BlockManager K) A}
    {y : EStateM Error (Pool K) B} (h : Follows (fun m p => BlockManager.rows c m = p) S x y) :
    Follows (fun (s : EngineState K G) t => rows c s = t) S (onManager x) (InferenceEngine.EngineState.onPool y) := by
  apply h.zoom
  · intro s t hst
    subst hst
    rfl
  · intro s t m p hst hmp
    subst hst hmp
    rfl

end EngineState

namespace Engine

variable {K G : Type} [Field K] [LinearOrder K] (E : Engine K G)

open Host.EngineState

/-- The engine that keeps the books: that of the rows. -/
def books : InferenceEngine.Engine (Nn.Tensor K) Empty K G where
  model := E.model.checkpoint.host E.model.math
  sampler := E.sampler
  config := E.config
  maxBatch := E.maxBatch
  prefixCache := E.prefixCache
  numLayers_eq := E.numLayers_eq
  kvDim_eq := E.kvDim_eq

def create (rng : G) : EngineState K G where
  manager := .create E.config
  rng := rng
  waiting := []
  running := []
  sequences := fun _ => { request := { prompt := [], params := ⟨0, 0, 0⟩ } }
  nextId := 0
  preemptions := 0

def addRequest (request : Request K) : EStateM Error (EngineState K G) Nat :=
  onBooks E.config (InferenceEngine.Engine.addRequest request)

/-- `step`: the sampler is handed the numbers of the logits, one stretch for every sequence. -/
def step : EStateM Error (EngineState K G) Unit := do
  let batch ← onBooks E.config E.books.nextBatch
  if batch = [] then
    return ()
  let logits ← onManager (E.model.forwardBatch E.config (InferenceEngine.Engine.batchItems batch))
  onBooks E.config (E.books.sampleBatch [logits.data] batch)

/-- `generate`, for so many turns of its loop at most. -/
def generate (request : Request K) (turns : Nat) : EStateM Error (EngineState K G) (Option (List Int)) := do
  let id ← E.addRequest request
  if ← untilDone (fun s => (s.sequences id).status = .finished) E.step turns then
    return some ((← get).sequences id).output
  else
    return none

/-- The engine as a machine. A call that throws leaves the state it has reached. -/
def machine (rng : G) : Machine (EngineState K G) (InferenceEngine.Engine.Action K) where
  start := E.create rng
  next s
    | .addRequest request => finalState (E.addRequest request) s
    | .step => finalState E.step s

def KnownTokens (_ : EngineState K G) : InferenceEngine.Engine.Action K → Prop
  | .addRequest request => ∀ t ∈ request.prompt, 0 ≤ t ∧ t < E.model.checkpoint.config.vocabSize
  | .step => True

/-- What a caller may do who wants every request to fit the pool on its own. -/
def Admissible (_ : EngineState K G) : InferenceEngine.Engine.Action K → Prop
  | .addRequest request => (∀ t ∈ request.prompt, 0 ≤ t ∧ t < E.model.checkpoint.config.vocabSize) ∧
    E.config.blocksFor (request.prompt.length + request.limit - 1) ≤ E.config.numBlocks
  | .step => True

/-- Nothing is shared, or the chain hash tells the chains of blocks that occur apart. -/
def Apart (s : EngineState K G) : Prop := E.books.Apart (s.rows E.config)

variable {E} {rng : G} {s : EngineState K G} {request : Request K}

theorem Admissible.known {a : InferenceEngine.Engine.Action K} (h : E.Admissible s a) : E.KnownTokens s a := by
  cases a with
  | addRequest request => exact h.1
  | step => trivial

/-! ### Every step is a step of the engine of rows -/

theorem rows_create (rng : G) : (E.create rng).rows E.config = E.books.create rng := by
  have hpool : BlockManager.rows E.config (BlockManager.create E.config : BlockManager K) = Pool.create E.config :=
    BlockManager.rows_create
  rw [rows, create]
  dsimp only
  rw [hpool]
  rfl

theorem rows_addRequest (request : Request K) (s : EngineState K G) :
    (finalState (E.addRequest request) s).rows E.config =
      finalState (InferenceEngine.Engine.addRequest request) (s.rows E.config) :=
  rows_finalState_onBooks (InferenceEngine.Engine.leaves_addRequest request) s

theorem follows_addRequest (request : Request K) :
    Follows (fun s t => s.rows E.config = t) Eq (E.addRequest request) (InferenceEngine.Engine.addRequest request) :=
  follows_onBooks (InferenceEngine.Engine.leaves_addRequest request)

theorem follows_step : Follows (fun s t => s.rows E.config = t) Eq E.step E.books.step := by
  rw [InferenceEngine.Engine.step_eq]
  apply (follows_onBooks InferenceEngine.Engine.leaves_nextBatch).bind
  intro batch batch' hbatch
  subst hbatch
  split
  · exact follows_pure rfl
  · apply (follows_onManager (Model.follows_forwardBatch E.kvDim_eq _)).bind
    intro logits rows hlogits
    have hdata : [logits.data].flatten = rows.flatten := by
      rw [List.flatten_singleton]
      exact hlogits.data
    rw [InferenceEngine.Engine.sampleBatch_congr hdata batch]
    exact follows_onBooks (InferenceEngine.Engine.leaves_sampleBatch rows batch)

theorem follows_generate (request : Request K) (turns : Nat) :
    Follows (fun s t => s.rows E.config = t) Eq (E.generate request turns) (E.books.generate request turns) := by
  apply (follows_addRequest request).bind
  intro id id' hid
  subst hid
  apply (follows_step.untilDone ?_ turns).bind
  · intro ended ended' hended
    subst hended
    split
    · apply follows_get.bind
      intro s t hst
      subst hst
      exact follows_pure rfl
    · exact follows_pure rfl
  · intro s t hst
    subst hst
    rfl

/-- Where the engine of rows is ready, a step returns and is a step of it. -/
theorem step_rows (hs : InferenceEngine.Engine.Inv E.books (s.rows E.config))
    (hr : InferenceEngine.Engine.Ready E.books (s.rows E.config)) :
    ∃ s', E.step s = .ok () s' ∧ E.books.step (s.rows E.config) = .ok () (s'.rows E.config) := by
  obtain ⟨_, t, hstep, -⟩ := wp_returns
    (InferenceEngine.Engine.wp_step_ready Checkpoint.host_complete Checkpoint.host_matches hs hr)
  obtain ⟨_, s', hrun, -, ht⟩ := follows_step s _ rfl _ _ hstep
  subst ht
  exact ⟨s', hrun, hstep⟩

theorem rows_step (hs : InferenceEngine.Engine.Inv E.books (s.rows E.config))
    (hr : InferenceEngine.Engine.Ready E.books (s.rows E.config)) :
    (finalState E.step s).rows E.config = finalState E.books.step (s.rows E.config) := by
  obtain ⟨s', hrun, hrows⟩ := step_rows hs hr
  rw [finalState_of_ok hrun, finalState_of_ok hrows]

theorem ready_of_reachable {t : InferenceEngine.EngineState K G}
    (ht : (E.books.machine rng).Reachable (InferenceEngine.Engine.KnownTokens E.books) t) :
    InferenceEngine.Engine.Inv E.books t ∧ InferenceEngine.Engine.Ready E.books t := by
  obtain ⟨hinv, htransparent⟩ :=
    InferenceEngine.Engine.transparent_reachable Checkpoint.host_complete Checkpoint.host_matches ht
  exact ⟨hinv, htransparent.ready⟩

/-- A run is a run of the engine of rows, for callers that only use known tokens. -/
theorem rows_reachable {allowed : EngineState K G → InferenceEngine.Engine.Action K → Prop}
    {allowed' : InferenceEngine.EngineState K G → InferenceEngine.Engine.Action K → Prop}
    (hallowed : ∀ s a, allowed s a → allowed' (s.rows E.config) a)
    (hknown : ∀ t a, allowed' t a → InferenceEngine.Engine.KnownTokens E.books t a)
    (hs : (E.machine rng).Reachable allowed s) : (E.books.machine rng).Reachable allowed' (s.rows E.config) := by
  apply hs.map (rows_create rng)
  intro s a ht ha
  refine ⟨hallowed s a ha, ?_⟩
  cases a with
  | addRequest request => exact rows_addRequest request s
  | step =>
    obtain ⟨hinv, hready⟩ := ready_of_reachable (ht.mono hknown)
    exact rows_step hinv hready

theorem rows_knownTokens {a : InferenceEngine.Engine.Action K} (ha : E.KnownTokens s a) :
    InferenceEngine.Engine.KnownTokens E.books (s.rows E.config) a := by
  cases a with
  | addRequest request => exact fun t ht => Checkpoint.host_inVocab.mpr (ha t ht)
  | step => trivial

theorem rows_admissible {a : InferenceEngine.Engine.Action K} (ha : E.Admissible s a) : E.books.Admissible a := by
  cases a with
  | addRequest request => exact ⟨fun t ht => Checkpoint.host_inVocab.mpr (ha.1 t ht), ha.2⟩
  | step => trivial

theorem admissible_rows (hs : (E.machine rng).Reachable E.Admissible s) :
    (E.books.machine rng).Reachable (fun _ a => E.books.Admissible a) (s.rows E.config) := by
  exact rows_reachable (fun s a ha => rows_admissible ha) (fun t a ha => ha.known) hs

theorem rows_steps (hs : (E.machine rng).Reachable E.Admissible s) (k : Nat) :
    (E.machine rng).Reachable E.Admissible ((finalState E.step)^[k] s) ∧
      ((finalState E.step)^[k] s).rows E.config = (finalState E.books.step)^[k] (s.rows E.config) := by
  induction k with
  | zero => exact ⟨hs, rfl⟩
  | succ k ih =>
    rw [Function.iterate_succ_apply', Function.iterate_succ_apply']
    have hstep : E.Admissible ((finalState E.step)^[k] s) .step := trivial
    obtain ⟨hinv, hready, -⟩ := InferenceEngine.Engine.admissible_reachable Checkpoint.host_complete
      Checkpoint.host_matches (admissible_rows ih.1)
    exact ⟨.next ih.1 hstep, (rows_step hinv hready).trans (congrArg _ ih.2)⟩

end Engine

/-! ### Greedy requests -/

namespace Engine

open Host.EngineState

variable {K G : Type} [Field K] [LinearOrder K] {E : Engine K G} {rng : G} {s : EngineState K G}
  {request : Request K}

noncomputable def realSampler : Sampler ℝ Unit where
  exp := Real.exp
  uniform g := (0, g)
  sortDesc row := (List.range row.length).mergeSort fun a b => row.getD b 0 ≤ row.getD a 0
  sortDesc_perm row := List.mergeSort_perm _ _
  sortDesc_pairwise row := by
    have h := @List.pairwise_mergeSort Nat (fun a b => decide (row.getD b 0 ≤ row.getD a 0))
      (fun a b c hab hbc => decide_eq_true ((of_decide_eq_true hbc).trans (of_decide_eq_true hab)))
      (fun a b => by simpa using le_total _ _) (List.range row.length)
    exact h.imp fun hab => of_decide_eq_true hab

/-- The small checkpoint with four blocks of two rows. -/
noncomputable def tinyEngine : Engine ℝ Unit where
  model := ⟨tinyCheckpoint, realFunctions⟩
  sampler := realSampler
  config := ⟨⟨1, 2, 2, 4, Nat.one_pos, Nat.two_pos, Nat.two_pos⟩, by decide⟩
  maxBatch := 2
  prefixCache := false
  numLayers_eq := rfl
  kvDim_eq := rfl

noncomputable def tinyRequest : Request ℝ := ⟨[1, 2], ⟨0, 0, 1⟩, 2, -1⟩

noncomputable def otherRequest : Request ℝ := ⟨[2], ⟨0, 0, 1⟩, 3, -1⟩

theorem tinyRequest_admissible (s : EngineState ℝ Unit) : tinyEngine.Admissible s (.addRequest tinyRequest) := by
  have hknown : ∀ t ∈ ([1, 2] : List Int), 0 ≤ t ∧ t < (3 : Nat) := by decide
  have hblocks : tinyEngine.config.blocksFor 3 ≤ 4 := by decide
  exact ⟨hknown, hblocks⟩

theorem otherRequest_admissible (s : EngineState ℝ Unit) : tinyEngine.Admissible s (.addRequest otherRequest) := by
  have hknown : ∀ t ∈ ([2] : List Int), 0 ≤ t ∧ t < (3 : Nat) := by decide
  have hblocks : tinyEngine.config.blocksFor 3 ≤ 4 := by decide
  exact ⟨hknown, hblocks⟩

noncomputable def twoRequests : EngineState ℝ Unit :=
  let m := tinyEngine.machine ()
  m.next (m.next m.start (.addRequest tinyRequest)) (.addRequest otherRequest)

theorem twoRequests_reachable : (tinyEngine.machine ()).Reachable tinyEngine.Admissible twoRequests :=
  .next (.next .start (tinyRequest_admissible _)) (otherRequest_admissible _)

/-- Without the prefix cache every request is finished after as many steps as there are tokens to come. -/
theorem finished_of_steps (hs : (E.machine rng).Reachable E.Admissible s) (hcache : E.prefixCache = false)
    (hmax : 1 ≤ E.maxBatch) {k : Nat} (hk : (s.rows E.config).work ≤ k) {id : Nat} (hid : id < s.nextId) :
    id < ((finalState E.step)^[k] s).nextId ∧
      (((finalState E.step)^[k] s).sequences id).request = (s.sequences id).request ∧
      (((finalState E.step)^[k] s).sequences id).status = .finished := by
  have hrows := admissible_rows hs
  obtain ⟨hnextId, hrequest⟩ := InferenceEngine.Engine.requests_steps hrows k
  have hfinished := InferenceEngine.Engine.finished_of_steps Checkpoint.host_complete Checkpoint.host_matches hcache
    hmax hrows hk hid
  rw [← (rows_steps hs k).2] at hnextId hrequest hfinished
  exact ⟨lt_of_lt_of_eq hid hnextId.symm, hrequest id, hfinished⟩

/-- **The engine on flat vectors decodes greedily.** In any run on requests of known tokens, seen row by row, the
engine is in a state that the engine of rows reaches, and its next step returns. The output of every greedy request
is the first part of what plain greedy decoding gives with forward passes over whole tensors, and all of it once the
request is finished: with the prefix cache too, as long as the chain hash tells the chains of blocks apart. -/
theorem outputs_greedy (hs : (E.machine rng).Reachable E.KnownTokens s) :
    (E.books.machine rng).Reachable (InferenceEngine.Engine.KnownTokens E.books) (s.rows E.config) ∧
    returns E.step s = true ∧
    (E.Apart s → ∀ id < s.nextId, (s.sequences id).request.params.temperature ≤ 0 →
      (s.sequences id).output <+: E.model.greedyOutput (s.sequences id).request ∧
        ((s.sequences id).status = .finished →
          (s.sequences id).output = E.model.greedyOutput (s.sequences id).request)) := by
  have hrows := rows_reachable (fun s a ha => rows_knownTokens ha) (fun _ _ ht => ht) hs
  obtain ⟨hinv, hready⟩ := ready_of_reachable hrows
  refine ⟨hrows, ?_, fun hapart id hid hgreedy => ?_⟩
  · obtain ⟨s', hrun, -⟩ := step_rows hinv hready
    rw [returns, hrun]
  · have hvocab : ∀ t ∈ (s.sequences id).request.prompt, 0 ≤ t ∧ t < E.model.checkpoint.config.vocabSize := by
      intro t ht
      exact Checkpoint.host_inVocab.mp ((hready.seq id hid).vocab t (List.mem_append_left _ ht))
    have hprompt : (s.sequences id).request.prompt ≠ [] := InferenceEngine.Engine.prompt_ne_nil hrows hid
    rw [← Model.greedyOutput_eq hprompt hvocab]
    exact InferenceEngine.Engine.seqGreedy_reachable Checkpoint.host_matches hrows hapart hid hgreedy

theorem outputs_greedy_twoRequests :
    let s := (finalState tinyEngine.step)^[5] twoRequests
    returns tinyEngine.step s = true ∧ (s.sequences 0).output = tinyEngine.model.greedyOutput tinyRequest ∧
      (s.sequences 1).output = tinyEngine.model.greedyOutput otherRequest := by
  obtain ⟨-, hreturns, hgreedy⟩ :=
    outputs_greedy ((rows_steps twoRequests_reachable 5).1.mono fun _ _ ha => Admissible.known ha)
  have hout : ∀ id < 2, (twoRequests.sequences id).request.params.temperature ≤ 0 →
      (((finalState tinyEngine.step)^[5] twoRequests).sequences id).output =
        tinyEngine.model.greedyOutput (twoRequests.sequences id).request := by
    intro id hid htemperature
    obtain ⟨hlt, hrequest, hfinished⟩ :=
      finished_of_steps twoRequests_reachable rfl (by decide) (k := 5) (by decide) hid
    rw [← hrequest] at htemperature ⊢
    exact (hgreedy (.inl rfl) id hlt htemperature).2 hfinished
  exact ⟨hreturns, hout 0 (by decide) le_rfl, hout 1 (by decide) le_rfl⟩

/-- **Waiting for a request on flat vectors.** `generate` does not throw; when its request is done it returns, for a
greedy request, what plain greedy decoding gives with forward passes over whole tensors. Without the prefix cache
the request is done after no more turns than there are tokens to come. -/
theorem generate_eq_greedyOutput (hs : (E.machine rng).Reachable E.Admissible s) (hprompt : request.prompt ≠ [])
    (hrequest : E.Admissible s (.addRequest request)) :
    (∀ turns, ∃ result s', E.generate request turns s = .ok result s' ∧ ∀ out, result = some out →
      out.length ≤ request.limit ∧
        (request.params.temperature ≤ 0 → E.Apart s' → out = E.model.greedyOutput request)) ∧
    (E.prefixCache = false → 1 ≤ E.maxBatch → ∃ out, ∀ turns, (s.rows E.config).work + request.limit < turns →
      ∃ s', E.generate request turns s = .ok (some out) s') := by
  have hrows := admissible_rows hs
  constructor
  · intro turns
    obtain ⟨result, t, hrun, hout⟩ := InferenceEngine.Engine.returns_generate Checkpoint.host_complete
      Checkpoint.host_matches hrows hprompt (rows_admissible hrequest) turns
    obtain ⟨result', s', hgenerate, rfl, ht⟩ := follows_generate request turns s _ rfl _ _ hrun
    subst ht
    refine ⟨result', s', hgenerate, fun out hresult => ?_⟩
    obtain ⟨-, hlength, hgreedy⟩ := hout out hresult
    refine ⟨hlength, fun htemperature hapart => ?_⟩
    rw [← Model.greedyOutput_eq hprompt hrequest.1]
    exact hgreedy htemperature hapart
  · intro hcache hmax
    obtain ⟨out, t, hends⟩ := InferenceEngine.Engine.generate_ends Checkpoint.host_complete
      Checkpoint.host_matches hcache hmax hrows hprompt (rows_admissible hrequest)
    refine ⟨out, fun turns hturns => ?_⟩
    obtain ⟨result, s', hgenerate, rfl, -⟩ := follows_generate request turns s _ rfl _ _ (hends turns hturns)
    exact ⟨s', hgenerate⟩

theorem generate_eq_greedyOutput_twoRequests :
    ∃ out s', tinyEngine.generate tinyRequest 8 twoRequests = .ok (some out) s' ∧ out.length ≤ 2 ∧
      out = tinyEngine.model.greedyOutput tinyRequest := by
  have hprompt : tinyRequest.prompt ≠ [] := List.cons_ne_nil _ _
  obtain ⟨hgreedy, hends⟩ :=
    generate_eq_greedyOutput twoRequests_reachable hprompt (tinyRequest_admissible twoRequests)
  obtain ⟨out, hout⟩ := hends rfl (by decide)
  -- five tokens of the others, and two of its own
  obtain ⟨s', hrun⟩ := hout 8 (by decide)
  obtain ⟨result, t, hrun', hresult⟩ := hgreedy 8
  obtain ⟨rfl, rfl⟩ : some out = result ∧ s' = t := by
    rw [hrun] at hrun'
    cases hrun'
    exact ⟨rfl, rfl⟩
  exact ⟨out, s', hrun, (hresult out rfl).1, (hresult out rfl).2 le_rfl (.inl rfl)⟩

end Engine

end Host

end InferenceEngine
