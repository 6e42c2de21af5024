import InferenceEngine.Engine.Sampler
import InferenceEngine.Library.Decoding
import InferenceEngine.Model.Chunks
import InferenceEngine.Model.BatchRows

/-!
# Speculative decoding

`speculative_greedy`: a draft proposes a few tokens, one forward of the target scores them all, and the
longest prefix on which the target's own choice agrees is kept, with the target's choice after it. Every
token that is kept is the target's choice after the tokens before it, so the output is that of plain greedy
decoding, whatever the draft proposes.
-/

namespace InferenceEngine

open Decoding

def argmaxRow {K : Type} [Field K] [LinearOrder K] (logits : Rows K) (row : Nat) : Int :=
  let r := logits.getD row []
  Sampler.argmax r r.length

namespace Speculative

variable {K : Type} [Field K] [LinearOrder K]

/-- The proposals of the draft on the growing context. -/
def propose (draft : List Int → Int) : Nat → List Int → List Int
  | 0, _ => []
  | n + 1, context => draft context :: propose draft n (context ++ [draft context])

/-- The loop over the proposals, from the `j`-th on: the output, the context and whether a proposal was
rejected. -/
def accept (logits : Rows K) (base : Nat) (maxTokens : Int) :
    List Int → Nat → List Int → List Int → List Int × List Int × Bool
  | [], _, out, ids => (out, ids, false)
  | token :: proposed, j, out, ids =>
    if out.length < maxTokens then
      let targetToken := argmaxRow logits (base - 1 + j)
      if targetToken ≠ token then (out ++ [targetToken], ids ++ [targetToken], true)
      else accept logits base maxTokens proposed (j + 1) (out ++ [targetToken]) (ids ++ [targetToken])
    else (out, ids, false)

def round (forward : List Int → Except Error (Rows K)) (draft : List Int → Int) (maxTokens : Int)
    (lookahead : Nat) (out ids : List Int) : Except Error (List Int × List Int) := do
  let proposed := propose draft lookahead ids
  let logits ← forward (ids ++ proposed)
  let base := ids.length
  let (out, ids, rejected) := accept logits base maxTokens proposed 0 out ids
  if rejected = false ∧ out.length < maxTokens then
    let bonus := argmaxRow logits (base - 1 + lookahead)
    return (out ++ [bonus], ids ++ [bonus])
  return (out, ids)

end Speculative

namespace Speculative

variable {K : Type} [Field K] [LinearOrder K]

/-- The choice of plain greedy decoding: the argmax of the last row. -/
def greedyNext (forward : List Int → Except Error (Rows K)) (ids : List Int) : Option Int :=
  match forward ids with
  | .ok logits => some (argmaxRow logits (logits.length - 1))
  | .error _ => none

/-- The rows of a list, each a function of the tokens up to its own. -/
def scores (row : List Int → Row K) (ids : List Int) : Rows K :=
  (List.range ids.length).map fun i => row (ids.take (i + 1))

/-- A forward pass over tokens of a kind, whose row `i` depends on the tokens `0..i` only. The choice after
tokens of the kind is of the kind. -/
structure ExactCausal (inVocab : Int → Prop) (forward : List Int → Except Error (Rows K))
    (row : List Int → Row K) : Prop where
  forward_eq : ∀ ids, ids ≠ [] → (∀ t ∈ ids, inVocab t) →
    forward ids = .ok (scores row ids)
  argmax_mem : ∀ ids, ids ≠ [] → (∀ t ∈ ids, inVocab t) →
    inVocab (Sampler.argmax (row ids) (row ids).length)

section Greedy

variable {inVocab : Int → Prop} {forward : List Int → Except Error (Rows K)} {row : List Int → Row K}
  {draft : List Int → Int} {prompt out ids : List Int} {maxTokens : Int} {lookahead : Nat}

def choice (row : List Int → Row K) (ids : List Int) : Int := Sampler.argmax (row ids) (row ids).length

/-- The row that scores the token after a part of the scored list is that part's last row. -/
theorem argmaxRow_scores {part rest : List Int} (hpart : part ≠ []) :
    argmaxRow (scores row (part ++ rest)) (part.length - 1) = choice row part := by
  have hlen := List.length_pos_iff.mpr hpart
  have hrow : (scores row (part ++ rest)).getD (part.length - 1) [] = row part := by
    have hlt : part.length - 1 < (part ++ rest).length := by
      rw [List.length_append]
      omega
    have htake : (part ++ rest).take (part.length - 1 + 1) = part := by
      rw [Nat.sub_add_cancel hlen, List.take_left']
      rfl
    rw [scores, List.getD_eq_getElem?_getD, List.getElem?_map, List.getElem?_range hlt, Option.map_some,
      Option.getD_some, htake]
  rw [argmaxRow, hrow]
  rfl

theorem ExactCausal.greedyNext_eq (h : ExactCausal inVocab forward row) (hne : ids ≠ [])
    (hvocab : ∀ t ∈ ids, inVocab t) : greedyNext forward ids = some (choice row ids) := by
  have hlen : (scores row ids).length = ids.length := by simp [scores]
  have hrow : argmaxRow (scores row (ids ++ [])) (ids.length - 1) = choice row ids := argmaxRow_scores hne
  rw [List.append_nil] at hrow
  rw [greedyNext, h.forward_eq ids hne hvocab]
  dsimp only
  rw [hlen, hrow]

/-- The state of the loops: `out` is what greedy decoding gives so far, and `ids` the context after it. -/
structure Greedy (inVocab : Int → Prop) (forward : List Int → Except Error (Rows K)) (prompt : List Int)
    (maxTokens : Int) (out ids : List Int) : Prop where
  ids_eq : ids = prompt ++ out
  vocab : ∀ t ∈ ids, inVocab t
  decode_eq : decode (greedyNext forward) (fun _ => false) out.length prompt = out
  le_max : (out.length : Int) ≤ max maxTokens 0

theorem Greedy.snoc (hf : ExactCausal inVocab forward row) (hprompt : prompt ≠ [])
    (h : Greedy inVocab forward prompt maxTokens out ids) (hlt : (out.length : Int) < maxTokens) :
    Greedy inVocab forward prompt maxTokens (out ++ [choice row ids]) (ids ++ [choice row ids]) := by
  obtain ⟨rfl, hvocab, hdecode, hle⟩ := h
  have hne : prompt ++ out ≠ [] := List.append_ne_nil_of_left_ne_nil hprompt out
  refine ⟨List.append_assoc _ _ _, ?_, ?_, ?_⟩
  · intro t ht
    obtain ht | ht := List.mem_append.mp ht
    · exact hvocab t ht
    · rw [List.mem_singleton.mp ht]
      exact hf.argmax_mem _ hne hvocab
  · rw [List.length_append, List.length_singleton]
    exact decode_snoc hdecode rfl (hf.greedyNext_eq hne hvocab)
  · rw [List.length_append, List.length_singleton]
    push_cast
    omega

end Greedy

/-! ### The model as a target -/

/-- The forward pass of a complete model is an exact causal function. -/
theorem exactCausal_forward {W Q : Type} {M : Model W Q K} (hM : M.Complete) (hmatch : M.Matches) :
    ExactCausal M.InVocab M.forward fun ids => (M.logits ids).getLastD [] := by
  obtain ⟨embed, hembed⟩ := hM.embed
  constructor
  · intro ids hne hvocab
    rw [Model.forward_eq hM hne hvocab, scores]
    refine congrArg Except.ok (List.ext_getElem (by simp) ?_)
    intro i hi _
    have hlt : i < ids.length := by simpa using hi
    simp only [List.getElem_map, List.getElem_range, ← Model.logits_take, List.getLastD_eq_getLast?,
      List.getLast?_eq_getElem?, List.length_take, Model.length_logits]
    rw [Nat.min_eq_left hlt, Nat.succ_sub_one, List.getElem?_take_of_lt (Nat.lt_succ_self i),
      List.getElem?_eq_getElem hi, Option.getD_some]
  · intro ids hne hvocab
    obtain ⟨t, ht⟩ := List.exists_mem_of_ne_nil ids hne
    have hpos : 0 < M.config.vocabSize := by
      have htop := (hvocab t ht).2 embed hembed
      have hzero := (hvocab t ht).1
      rw [hmatch.vocab_eq embed hembed] at htop
      omega
    refine ⟨Int.natCast_nonneg _, ?_⟩
    intro w hw
    rw [hmatch.vocab_eq w hw, Model.length_lastLogits hM hmatch hne]
    exact Int.ofNat_lt.mpr (Sampler.argmax_lt _ hpos)

end Speculative

end InferenceEngine
