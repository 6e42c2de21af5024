import InferenceEngine.Engine.Engine
import InferenceEngine.Server.Streaming

/-!
# The handlers

What `/v1/completions` and `/v1/chat/completions` submit to the engine, and what they answer. The tokenizer
encodes and the chat template renders outside of the repository.
-/

namespace InferenceEngine

namespace Server

/-- The fields of `CompletionRequest` that the handlers read. -/
structure CompletionRequest (K : Type) where
  prompt : String
  maxTokens : Int := 64
  temperature : K
  topP : K
  topK : Int := 0
  stream : Bool := false

structure ChatMessage where
  role : String
  content : String

/-- The fields of `ChatRequest` that the handlers read. -/
structure ChatRequest (K : Type) where
  messages : List ChatMessage
  maxTokens : Int := 64
  temperature : K
  topP : K
  topK : Int := 0
  stream : Bool := false

/-- `LLM`, less its engine: the tokenizer and the stop token. -/
structure LLM where
  tokenizer : EngineTokenizer
  encode : String → List Int
  eosId : Int

/-- `ChatTemplate`, less the marker it finds the role by. -/
structure ChatTemplate where
  render : List ChatMessage → String
  responseRole : String

section Requests

variable {K : Type}

def completions (llm : LLM) (req : CompletionRequest K) : Request K where
  prompt := llm.encode req.prompt
  params := ⟨req.temperature, req.topK, req.topP⟩
  maxTokens := req.maxTokens
  eosId := llm.eosId

/-- What the handler `chat_completions` submits. Without a template it answers 501. -/
def chatCompletions (llm : LLM) (chat : Option ChatTemplate) (req : ChatRequest K) : Except Nat (Request K) :=
  match chat with
  | none => .error 501
  | some chat => .ok
      { prompt := llm.encode (chat.render req.messages)
        params := ⟨req.temperature, req.topK, req.topP⟩
        maxTokens := req.maxTokens
        eosId := llm.eosId }

end Requests

/-- The `usage` of a response. -/
structure Usage where
  promptTokens : Nat
  completionTokens : Nat
  totalTokens : Nat
  deriving DecidableEq

/-- The text of the one choice of a response, and the usage. -/
structure Response where
  text : List Char
  usage : Usage
  deriving DecidableEq

/-- What a handler answers when nothing is streamed. -/
def respond (llm : LLM) (promptIds : List Int) (tokens : List Int) : Response :=
  let collected := collectText llm.tokenizer tokens
  ⟨collected.1, promptIds.length, collected.2, promptIds.length + collected.2⟩

def streamed (llm : LLM) (chat : Bool) (tokens : List Int) : List Choice :=
  sseLoop llm.tokenizer chat [] [] tokens

theorem sseLoop_append (tokenizer : EngineTokenizer) (chat : Bool) (outIds tokens tokens' : List Int) :
    sseLoop tokenizer chat outIds (tokenizer.decode outIds) (tokens ++ tokens') =
      sseLoop tokenizer chat outIds (tokenizer.decode outIds) tokens ++
        sseLoop tokenizer chat (outIds ++ tokens) (tokenizer.decode (outIds ++ tokens)) tokens' := by
  induction tokens generalizing outIds with
  | nil => rw [List.append_nil, sseLoop, List.nil_append, List.nil_append]
  | cons token tokens ih =>
    have hstep := ih (outIds ++ [token])
    rw [List.append_assoc, List.singleton_append] at hstep
    rw [List.cons_append, sseLoop, sseLoop]
    simp only [hstep]
    split
    · rfl
    · rw [List.cons_append]

theorem streamed_mono (llm : LLM) (chat : Bool) {tokens tokens' : List Int} (h : tokens <+: tokens') :
    streamed llm chat tokens <+: streamed llm chat tokens' := by
  obtain ⟨more, rfl⟩ := h
  have happend := sseLoop_append llm.tokenizer chat [] tokens more
  have hnil : llm.tokenizer.decode [] = [] := rfl
  rw [hnil] at happend
  rw [streamed, streamed, happend]
  exact List.prefix_append _ _

end Server

end InferenceEngine
