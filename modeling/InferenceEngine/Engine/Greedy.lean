import InferenceEngine.Engine.Progress
import InferenceEngine.Engine.Speculative

/-!
# The output a greedy request should get

Plain greedy decoding with a forward pass of its own: the first largest logit of the last row is appended
until it is the EOS token or the token limit is reached. The schedulers append one token a step, so that
their outputs are prefixes of it.
-/

namespace InferenceEngine

open Decoding Speculative

theorem sliceRows_flatten {A : Type} {rows : List (List A)} {n : Nat} (h : ∀ row ∈ rows, row.length = n)
    {k : Nat} {row : List A} (hrow : rows[k]? = some row) : sliceRows rows.flatten (k * n) n = row := by
  induction rows generalizing k with
  | nil => cases hrow
  | cons first rows ih =>
    have hfirst := h first List.mem_cons_self
    rw [List.flatten_cons]
    cases k with
    | zero =>
      rw [List.getElem?_cons_zero, Option.some.injEq] at hrow
      subst hrow
      rw [Nat.zero_mul, sliceRows, List.drop_zero, List.take_left' hfirst]
    | succ k =>
      rw [List.getElem?_cons_succ] at hrow
      rw [← ih (fun row hmem => h row (List.mem_cons_of_mem _ hmem)) hrow, sliceRows, sliceRows, Nat.succ_mul,
        Nat.add_comm, ← List.drop_drop, List.drop_left' hfirst]

namespace Request

variable {K : Type}

def stops (request : Request K) (token : Int) : Bool := decide (0 ≤ request.eosId ∧ token = request.eosId)

variable [Field K] [LinearOrder K] (forward : List Int → Except Error (Rows K))

def greedyOutput (request : Request K) : List Int :=
  decode (greedyNext forward) request.stops request.limit request.prompt

/-- What has been decoded, when decoding goes on. -/
abbrev Decodes (request : Request K) (out : List Int) : Prop :=
  Running (greedyNext forward) request.stops request.limit request.prompt out

variable {forward} {request : Request K} {out : List Int} {token : Int}

theorem decodes_nil : request.Decodes forward [] := by
  apply Running.nil
  rw [limit]
  omega

theorem Decodes.snoc (h : request.Decodes forward out)
    (hnext : greedyNext forward (request.prompt ++ out) = some token)
    (heos : ¬(0 ≤ request.eosId ∧ token = request.eosId))
    (hlen : ¬request.maxTokens ≤ ((out ++ [token]).length : Int)) :
    request.Decodes forward (out ++ [token]) := by
  rw [List.length_append, List.length_singleton] at hlen
  apply Running.snoc h hnext (decide_eq_false heos)
  rw [limit]
  omega

theorem Decodes.last (h : request.Decodes forward out)
    (hnext : greedyNext forward (request.prompt ++ out) = some token)
    (hlast : (0 ≤ request.eosId ∧ token = request.eosId) ∨
      request.maxTokens ≤ ((out ++ [token]).length : Int)) :
    request.greedyOutput forward = out ++ [token] := by
  apply Running.last h hnext
  obtain heos | hlen := hlast
  · exact .inl (decide_eq_true heos)
  · rw [List.length_append, List.length_singleton] at hlen
    right
    rw [limit]
    omega

theorem Decodes.isPrefix (h : request.Decodes forward out) : out <+: request.greedyOutput forward :=
  Running.isPrefix h

end Request

end InferenceEngine
