import InferenceEngine.Library.Dict
import InferenceEngine.Library.Exec
import InferenceEngine.Library.Machine

/-!
# The engine service

`EngineService`: requests get a queue each, one background task steps the engine and puts the new tokens of
every request into its queue, and the consumer of a stream takes them out. Tasks switch at an `await` only,
so the atomic actions are a submission, an iteration of the background task, a consumer taking an item, and
a consumer being cancelled. The engine is any machine that answers the calls the service makes.
-/

namespace InferenceEngine

open Exec

/-- An engine, as the service uses it, over states `E` and requests `R`. `addRequest` may reject a request,
and `step` may throw: it says whether it returned. -/
structure ServedEngine (E R : Type) where
  valid : E → Prop
  known : E → Nat → Prop
  hasWork : E → Bool
  output : E → Nat → List Int
  finished : E → Nat → Bool
  addRequest : E → R → Option (Nat × E)
  step : E → Bool × E
  valid_step : ∀ e, valid e → valid (step e).2
  valid_addRequest : ∀ e r id e', valid e → addRequest e r = some (id, e') → valid e'
  known_step : ∀ e id, valid e → known e id → known (step e).2 id
  /-- Outputs only grow. -/
  output_step : ∀ e id, valid e → known e id → output e id <+: output (step e).2 id
  /-- A finished request stays as it is. -/
  finished_step : ∀ e id, valid e → known e id → finished e id = true →
    finished (step e).2 id = true ∧ output (step e).2 id = output e id
  /-- A request gets an id of its own, and the others stay as they are. -/
  addRequest_new : ∀ e r id e', valid e → addRequest e r = some (id, e') → ¬known e id ∧ known e' id
  addRequest_frame : ∀ e r id e', valid e → addRequest e r = some (id, e') → ∀ i, known e i →
    known e' i ∧ output e' i = output e i ∧ finished e' i = finished e i

namespace Server

/-- What a queue holds: `("token", token)` or `("done", 0)`. -/
inductive Item where
  | token (token : Int)
  | done
  deriving DecidableEq

/-- Where the background task is: at the head of its loop, in `wakeup.wait()`, or ended by an exception,
of the engine or of a dictionary that lacks a key. -/
inductive Loop where
  | ready
  | blocked
  | engineError
  | keyError (id : Nat)
  deriving DecidableEq

/-- Where the consumer of a stream is. `idle` is before the first `__anext__` of `stream_tokens`, whose
`finally` runs only after it. -/
inductive Phase where
  | absent
  | idle
  | reading
  | ended
  | cancelled
  | failed
  deriving DecidableEq

/-- A consumer, and what it has received. -/
structure Consumer where
  phase : Phase := .absent
  received : List Int := []
  dones : Nat := 0

/-- `EngineService`, with its engine, its background task and the consumers of its streams. -/
structure Service (E : Type) where
  engine : E
  queues : Dict Nat (List Item) := .empty
  emitted : Dict Nat Nat := .empty
  wakeup : Bool := false
  loop : Loop := .ready
  consumers : Nat → Consumer := fun _ => {}

section Actions

variable {E R : Type} (M : ServedEngine E R)

/-- `self._queues[seq_id].put_nowait(item)`. -/
def putItem (id : Nat) (item : Item) : EStateM Loop (Service E) PUnit := do
  match (← get).queues.get id with
  | some queue => modify fun s => { s with queues := s.queues.set id (queue ++ [item]) }
  | none => throw (.keyError id)

/-- The body of the loop over the emitted requests. -/
def fanOut (id : Nat) : EStateM Loop (Service E) PUnit := do
  let s ← get
  let output := M.output s.engine id
  match s.emitted.get id with
  | none => throw (.keyError id)
  | some start =>
    forM (output.drop start) fun token => putItem id (.token token)
    modify fun s => { s with emitted := s.emitted.set id output.length }
    if M.finished s.engine id then
      putItem id .done
      modify fun s => { s with emitted := s.emitted.pop id }

/-- `_run` from the head of its loop to the next `await`. -/
def iteration : EStateM Loop (Service E) PUnit := do
  let s ← get
  if M.hasWork s.engine then
    set { s with engine := (M.step s.engine).2 }
    if (M.step s.engine).1 then
      forM s.emitted.keys (fanOut M)
    else throw .engineError
  else set { s with wakeup := false, loop := .blocked }

def submit (s : Service E) (request : R) : Service E :=
  match M.addRequest s.engine request with
  | none => s
  | some (id, engine) =>
    { s with
      engine
      queues := s.queues.set id []
      emitted := s.emitted.set id 0
      wakeup := true
      consumers := Function.update s.consumers id { phase := .idle } }

/-- The background task goes on, unless it has ended or waits for the event. -/
def iterate (s : Service E) : Service E :=
  if s.loop = .ready ∨ (s.loop = .blocked ∧ s.wakeup = true) then
    match iteration M { s with loop := .ready } with
    | .ok _ s' => s'
    | .error loop s' => { s' with loop }
  else s

end Actions

section Consumers

variable {E : Type}

def setConsumer (s : Service E) (id : Nat) (c : Consumer) : Service E :=
  { s with consumers := Function.update s.consumers id c }

/-- The `finally` of `stream_tokens`. -/
def cleanup (s : Service E) (id : Nat) : Service E :=
  { s with queues := s.queues.pop id, emitted := s.emitted.pop id }

/-- A consumer takes an item, if its stream goes on: from the first `__anext__` on it waits for one. -/
def take (s : Service E) (id : Nat) : Service E :=
  let c := s.consumers id
  if c.phase = .idle ∨ c.phase = .reading then
    match s.queues.get id with
    | none => setConsumer s id { c with phase := .failed }
    | some [] => setConsumer s id { c with phase := .reading }
    | some (.token token :: queue) =>
      setConsumer { s with queues := s.queues.set id queue } id
        { c with phase := .reading, received := c.received ++ [token] }
    | some (.done :: _) =>
      setConsumer (cleanup s id) id { c with phase := .ended, dones := c.dones + 1 }
  else s

/-- A consumer is cancelled. The generator cleans up if it has begun. -/
def cancel (s : Service E) (id : Nat) : Service E :=
  let c := s.consumers id
  if c.phase = .idle then setConsumer s id { c with phase := .cancelled }
  else if c.phase = .reading then setConsumer (cleanup s id) id { c with phase := .cancelled }
  else s

end Consumers

/-- The atomic actions. -/
inductive ServiceAction (R : Type) where
  | submit (request : R)
  | iterate
  | take (id : Nat)
  | cancel (id : Nat)

/-- The service, from the start of its task over an engine. -/
def machine {E R : Type} (M : ServedEngine E R) (engine : E) :
    Machine (Service E) (ServiceAction R) where
  start := { engine }
  next s
    | .submit request => submit M s request
    | .iterate => iterate M s
    | .take id => take s id
    | .cancel id => cancel s id

end Server

end InferenceEngine
