import InferenceEngine.Engine.Greedy
import InferenceEngine.Model.HostForward

/-!
# Greedy decoding over whole tensors

`argmax_last_row` on the logits of `forward`. What it picks for a context of known tokens is what the model of rows
picks, and also what the last row of any chunk of the logits gives, so that plain greedy decoding over whole tensors
is that over rows.
-/

namespace InferenceEngine

open Decoding
open Nn (linearRow)

/-- `argmax_last_row`: the first largest logit of the last row. -/
def Nn.Tensor.argmaxLastRow {K : Type} [Zero K] [LT K] [DecidableLT K] (logits : Nn.Tensor K) : Nat :=
  let rows := logits.dim 0
  let vocab := logits.dim 1
  let row := fun j => logits.cell ((rows - 1) * vocab + j)
  (List.range' 1 (vocab - 1)).foldl (fun best j => if row best < row j then j else best) 0

section Argmax

variable {K : Type} [Field K] [LinearOrder K]

theorem firstMax_argmaxLastRow {t : Nn.Tensor K} {n vocab : Nat} (hshape : t.shape = [n, vocab]) (hvocab : 0 < vocab) :
    Ranking.FirstMax (fun j => t.cell ((n - 1) * vocab + j)) vocab t.argmaxLastRow := by
  have hsearch := (Ranking.firstMax_one fun j => t.cell ((n - 1) * vocab + j)).search (vocab - 1)
  rw [Nat.add_sub_cancel' hvocab] at hsearch
  rw [Nn.Tensor.argmaxLastRow, Nn.Tensor.dim, Nn.Tensor.dim, hshape]
  exact hsearch

theorem argmaxLastRow_eq {t : Nn.Tensor K} {vocab : Nat} {rows : Rows K} (h : t.HasRows vocab rows)
    (hrows : rows ≠ []) (hvocab : 0 < vocab) :
    (t.argmaxLastRow : Int) = argmaxRow rows (rows.length - 1) := by
  have hlast : rows.length - 1 < rows.length := Nat.sub_lt (List.length_pos_iff.mpr hrows) Nat.one_pos
  have hwidth : (rows.getD (rows.length - 1) []).length = vocab := by
    rw [List.getD_eq_getElem _ _ hlast]
    exact h.width _ (List.getElem_mem hlast)
  have hcell : ∀ j < vocab, t.cell ((rows.length - 1) * vocab + j) =
      (rows.getD (rows.length - 1) []).getD j 0 := fun j hj => h.getD_eq hlast hj
  have hfirst := firstMax_argmaxLastRow h.shape hvocab
  have hhost := Sampler.firstMax_argmax (rows.getD (rows.length - 1) []) hvocab
  rw [argmaxRow, hwidth]
  exact congrArg Nat.cast ((hfirst.congr hcell).unique hhost)

end Argmax

theorem Checkpoint.host_matches {K : Type} [Field K] [LinearOrder K] {C : Checkpoint K} {F : MathFunctions K} :
    (C.host F).Matches where
  vocab_eq w hw := by
    have hfound : (C.host F).weights Model.embedKey = some (C.tensor "model.embed_tokens.weight") := (found C.embed).1
    obtain rfl := Option.some.inj (hfound.symm.trans hw)
    exact Nn.Tensor.dim_zero_of_shape (found C.embed).2
  head_length w hw row := by
    have hfound : (C.host F).weights Model.embedKey = some (C.tensor "model.embed_tokens.weight") := (found C.embed).1
    obtain rfl := Option.some.inj (hfound.symm.trans hw)
    change (linearRow row C.headTensor none).length = C.config.vocabSize
    rw [linearRow, List.length_map, List.length_range, Nn.Tensor.dim_zero_of_shape C.headTensor_shape]

namespace Host

namespace Model

variable {K : Type} [Field K] [LinearOrder K]

/-- The choice of plain greedy decoding: a forward pass over all tokens. -/
def greedyNext (M : Model K) (ids : List Int) : Option Int :=
  match M.forward ids with
  | .ok logits => some logits.argmaxLastRow
  | .error _ => none

/-- What plain greedy decoding gives a request, with a forward pass over all tokens for every token. -/
def greedyOutput (M : Model K) (request : Request K) : List Int :=
  decode M.greedyNext request.stops request.limit request.prompt

/-- Tokens of the vocabulary, and not none of them. -/
def Context (M : Model K) (ctx : List Int) : Prop :=
  ctx ≠ [] ∧ ∀ t ∈ ctx, 0 ≤ t ∧ t < M.checkpoint.config.vocabSize

variable {M : Model K} {ctx chunk : List Int}

theorem Context.forward_eq (h : Context M ctx) :
    (M.checkpoint.host M.math).forward ctx = .ok ((M.checkpoint.host M.math).logits ctx) :=
  InferenceEngine.Model.forward_eq Checkpoint.host_complete h.1 fun t ht => Checkpoint.host_inVocab.mpr (h.2 t ht)

theorem Context.vocab_pos (h : Context M ctx) : 0 < M.checkpoint.config.vocabSize := by
  obtain ⟨t, ht⟩ := List.exists_mem_of_ne_nil _ h.1
  have := h.2 t ht
  omega

theorem Context.logits_ne_nil (h : Context M ctx) : (M.checkpoint.host M.math).logits ctx ≠ [] := by
  intro hnil
  have hlength := congrArg List.length hnil
  rw [InferenceEngine.Model.length_logits] at hlength
  exact h.1 (List.eq_nil_of_length_eq_zero hlength)

/-- The last row of any chunk that was computed gives the choice. -/
theorem greedyNext_eq (ctx : List Int) (hchunk : chunk ≠ [])
    (hvocab : ∀ t ∈ ctx ++ chunk, 0 ≤ t ∧ t < M.checkpoint.config.vocabSize) {logits : Nn.Tensor K}
    (h : logits.HasRows M.checkpoint.config.vocabSize
      (((M.checkpoint.host M.math).logits (ctx ++ chunk)).drop ctx.length)) :
    M.greedyNext (ctx ++ chunk) = some (logits.argmaxLastRow : Int) ∧
      (logits.argmaxLastRow : Int) < M.checkpoint.config.vocabSize := by
  have hcontext : Context M (ctx ++ chunk) := ⟨List.append_ne_nil_of_right_ne_nil ctx hchunk, hvocab⟩
  have hpos := hcontext.vocab_pos
  obtain ⟨whole, hforward, hwhole⟩ := forward_rows hcontext.forward_eq
  have hlength : ((M.checkpoint.host M.math).logits (ctx ++ chunk)).length = ctx.length + chunk.length := by
    rw [InferenceEngine.Model.length_logits, List.length_append]
  have hrows : ((M.checkpoint.host M.math).logits (ctx ++ chunk)).drop ctx.length ≠ [] := by
    rw [Ne, List.drop_eq_nil_iff, hlength]
    have := List.length_pos_iff.mpr hchunk
    omega
  have hlast : ((M.checkpoint.host M.math).logits (ctx ++ chunk)).length - 1 =
      ctx.length + (chunk.length - 1) := by
    have := List.length_pos_iff.mpr hchunk
    omega
  have hsame : argmaxRow (((M.checkpoint.host M.math).logits (ctx ++ chunk)).drop ctx.length)
      ((((M.checkpoint.host M.math).logits (ctx ++ chunk)).drop ctx.length).length - 1) =
        argmaxRow ((M.checkpoint.host M.math).logits (ctx ++ chunk))
          (((M.checkpoint.host M.math).logits (ctx ++ chunk)).length - 1) := by
    rw [argmaxRow, argmaxRow, List.length_drop, hlast, hlength, Nat.add_sub_cancel_left,
      List.getD_eq_getElem?_getD, List.getElem?_drop, ← List.getD_eq_getElem?_getD]
  have hpart := argmaxLastRow_eq h hrows hpos
  constructor
  · rw [greedyNext, hforward]
    exact congrArg some ((argmaxLastRow_eq hwhole hcontext.logits_ne_nil hpos).trans (hsame.symm.trans hpart.symm))
  · rw [hpart, argmaxRow]
    have hmem : (((M.checkpoint.host M.math).logits (ctx ++ chunk)).drop ctx.length).length - 1 <
        (((M.checkpoint.host M.math).logits (ctx ++ chunk)).drop ctx.length).length :=
      Nat.sub_lt (List.length_pos_iff.mpr hrows) Nat.one_pos
    have hwidth := h.width _ (List.getElem_mem hmem)
    rw [← List.getD_eq_getElem _ [] hmem] at hwidth
    rw [hwidth]
    exact Int.ofNat_lt.mpr (Sampler.argmax_lt _ hpos)

theorem Context.snoc (h : Context M ctx) {token : Int} (hnext : M.greedyNext ctx = some token) :
    0 ≤ token ∧ Context M (ctx ++ [token]) := by
  obtain ⟨out, hforward, hout⟩ := forward_rows h.forward_eq
  obtain ⟨hchoice, hbound⟩ := greedyNext_eq [] h.1 h.2 hout
  rw [List.nil_append, hnext] at hchoice
  obtain rfl := Option.some.inj hchoice
  refine ⟨Int.natCast_nonneg _, List.append_ne_nil_of_left_ne_nil h.1 _, fun t ht => ?_⟩
  obtain ht | ht := List.mem_append.mp ht
  · exact h.2 t ht
  · rw [List.mem_singleton.mp ht]
    exact ⟨Int.natCast_nonneg _, hbound⟩

theorem greedyNext_of_logits {forward : List Int → Except Error (Rows K)} (h : Context M ctx)
    (hforward : forward ctx = .ok ((M.checkpoint.host M.math).logits ctx)) :
    Speculative.greedyNext forward ctx = M.greedyNext ctx := by
  obtain ⟨out, hhost, hout⟩ := forward_rows h.forward_eq
  rw [Speculative.greedyNext, hforward, greedyNext, hhost]
  exact congrArg some (argmaxLastRow_eq hout h.logits_ne_nil h.vocab_pos).symm

theorem greedyOutput_of_logits {forward : List Int → Except Error (Rows K)}
    (hforward : ∀ ctx, Context M ctx → forward ctx = .ok ((M.checkpoint.host M.math).logits ctx))
    {request : Request K} (hprompt : Context M request.prompt) :
    request.greedyOutput forward = M.greedyOutput request := by
  rw [Request.greedyOutput, greedyOutput]
  apply decode_congr (P := Context M) (fun ctx hctx => greedyNext_of_logits hctx (hforward ctx hctx)) ?_ hprompt
  intro ctx t hctx hpick
  rw [greedyNext_of_logits hctx (hforward ctx hctx)] at hpick
  exact ⟨rfl, (hctx.snoc hpick).2⟩

theorem greedyOutput_eq {request : Request K} (hprompt : request.prompt ≠ [])
    (hvocab : ∀ t ∈ request.prompt, 0 ≤ t ∧ t < M.checkpoint.config.vocabSize) :
    request.greedyOutput (M.checkpoint.host M.math).forward = M.greedyOutput request :=
  greedyOutput_of_logits (fun _ hctx => hctx.forward_eq) ⟨hprompt, hvocab⟩

end Model

end Host

end InferenceEngine
