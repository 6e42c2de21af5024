import InferenceEngine.Library.Utf8

/-!
# Streamed text

`_sse_stream` decodes the tokens so far after every token and sends what is past the length of the text
before; `_collect_text` decodes all tokens once. The two agree when no token ends inside a character. A
token that does has its first bytes sent as U+FFFD, and the character they become is never sent.
-/

namespace InferenceEngine

/-- `EngineTokenizer` over a byte-level tokenizer: the bytes of every token. -/
structure EngineTokenizer where
  tokenBytes : Int → List UInt8

namespace EngineTokenizer

def bytes (tokenizer : EngineTokenizer) (ids : List Int) : List UInt8 := ids.flatMap tokenizer.tokenBytes

def decode (tokenizer : EngineTokenizer) (ids : List Int) : List Char := utf8.decode (tokenizer.bytes ids)

end EngineTokenizer

namespace Server

/-- The `choices` entry of a chunk: a chat chunk has a `delta`, a completion chunk a `text`. -/
inductive Choice where
  | role (role : String)
  | content (delta : List Char)
  | text (delta : List Char)
  | stopChat
  | stopText
  deriving DecidableEq

def Choice.textDelta : Choice → List Char
  | .content delta => delta
  | .text delta => delta
  | .role _ | .stopChat | .stopText => []

/-- `_collect_text`: the text, and the number of tokens. -/
def collectText (tokenizer : EngineTokenizer) (tokens : List Int) : List Char × Nat :=
  (tokenizer.decode tokens, tokens.length)

/-- The loop of `_sse_stream` over the tokens to come. -/
def sseLoop (tokenizer : EngineTokenizer) (chat : Bool) :
    List Int → List Char → List Int → List Choice
  | _, _, [] => []
  | outIds, previous, token :: tokens =>
    let outIds := outIds ++ [token]
    let text := tokenizer.decode outIds
    let delta := text.drop previous.length
    if delta.isEmpty then sseLoop tokenizer chat outIds text tokens
    else (if chat then .content delta else .text delta) :: sseLoop tokenizer chat outIds text tokens

/-- `_sse_stream`, for a chat when there is a role. -/
def sseStream (tokenizer : EngineTokenizer) (role : Option String) (tokens : List Int) : List Choice :=
  role.toList.map .role ++ sseLoop tokenizer role.isSome [] [] tokens ++
    [if role.isSome then .stopChat else .stopText]

section Streamed

variable {tokenizer : EngineTokenizer}

theorem bytes_append (ids ids' : List Int) :
    tokenizer.bytes (ids ++ ids') = tokenizer.bytes ids ++ tokenizer.bytes ids' := List.flatMap_append

theorem flatten_map_tokenBytes (ids : List Int) :
    (ids.map tokenizer.tokenBytes).flatten = tokenizer.bytes ids := List.flatMap_def.symm

theorem flatMap_sseLoop (chat : Bool) (outIds tokens : List Int) :
    (sseLoop tokenizer chat outIds (tokenizer.decode outIds) tokens).flatMap Choice.textDelta =
      (utf8.stream (tokenizer.bytes outIds) (tokens.map tokenizer.tokenBytes)).flatten := by
  induction tokens generalizing outIds with
  | nil => rfl
  | cons token tokens ih =>
    have hbytes : tokenizer.bytes (outIds ++ [token]) = tokenizer.bytes outIds ++ tokenizer.tokenBytes token := by
      rw [bytes_append]
      simp [EngineTokenizer.bytes]
    rw [sseLoop, List.map_cons, PrefixCode.stream, List.flatten_cons, ← hbytes, ← ih (outIds ++ [token])]
    change _ = (tokenizer.decode (outIds ++ [token])).drop (tokenizer.decode outIds).length ++ _
    generalize (tokenizer.decode (outIds ++ [token])).drop (tokenizer.decode outIds).length = delta
    by_cases hempty : delta.isEmpty
    · rw [if_pos hempty, List.isEmpty_iff.mp hempty, List.nil_append]
    · rw [if_neg hempty]
      cases chat <;> rfl

theorem flatMap_sseStream (role : Option String) (tokens : List Int) :
    (sseStream tokenizer role tokens).flatMap Choice.textDelta =
      (utf8.stream [] (tokens.map tokenizer.tokenBytes)).flatten := by
  have hloop := @flatMap_sseLoop tokenizer role.isSome [] tokens
  have hnil : tokenizer.decode [] = [] := rfl
  rw [hnil] at hloop
  rw [sseStream, List.flatMap_append, List.flatMap_append, hloop]
  cases role <;> exact List.append_nil _

/-- **Streamed text is the collected text** exactly when no token ends inside a character, but for U+FFFD
itself. -/
theorem sseStream_eq_collectText_iff (tokenizer : EngineTokenizer) (role : Option String)
    (tokens : List Int) :
    (sseStream tokenizer role tokens).flatMap Choice.textDelta = (collectText tokenizer tokens).1 ↔
      ∀ k u c w, tokenizer.bytes tokens = u ++ String.utf8EncodeChar c ++ w →
        u.length < (tokenizer.bytes (tokens.take k)).length →
        (tokenizer.bytes (tokens.take k)).length < u.length + (String.utf8EncodeChar c).length →
        c = '\uFFFD' := by
  have hshown : utf8.Shown [] [] := ⟨rfl, fun h => absurd rfl h⟩
  have hstream := PrefixCode.stream_eq_iff hshown (tokens.map tokenizer.tokenBytes)
  simp only [List.nil_append, ← List.map_take, flatten_map_tokenBytes] at hstream
  have hsplit : ∀ k, tokenizer.bytes tokens =
      tokenizer.bytes (tokens.take k) ++ tokenizer.bytes (tokens.drop k) := by
    intro k
    rw [← bytes_append, List.take_append_drop]
  have hstarts : ∀ k, utf8.decode (tokenizer.bytes (tokens.take k)) <+: utf8.decode (tokenizer.bytes tokens) ↔
      ∀ u c w, tokenizer.bytes tokens = u ++ String.utf8EncodeChar c ++ w →
        u.length < (tokenizer.bytes (tokens.take k)).length →
        (tokenizer.bytes (tokens.take k)).length < u.length + (String.utf8EncodeChar c).length →
        c = '\uFFFD' := by
    intro k
    rw [hsplit k]
    exact PrefixCode.decode_prefix_iff (P := utf8)
  rw [flatMap_sseStream, collectText, EngineTokenizer.decode, hstream]
  constructor
  · intro h k
    exact (hstarts k).mp (h.2 k)
  · intro h
    exact ⟨rfl, fun k => (hstarts k).mpr (h k)⟩

end Streamed

/-- A tokenizer with the two bytes of `é` as tokens of their own. -/
def halves : EngineTokenizer := ⟨fun token => if token = 0 then [0xC3] else [0xA9]⟩

/-- The stream has U+FFFD where the collected text has `é`. -/
theorem streams_replacement :
    (sseStream halves none [0, 1]).flatMap Choice.textDelta = ['\uFFFD'] ∧
      (sseStream halves none [0, 1]).flatMap Choice.textDelta ≠ (collectText halves [0, 1]).1 := by
  decide +kernel

end Server

end InferenceEngine
