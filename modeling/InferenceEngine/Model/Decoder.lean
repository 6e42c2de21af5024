import InferenceEngine.Library.Causal
import InferenceEngine.Model.Forward
import Mathlib.Algebra.Field.Rat

/-!
# The model as a causal decoder

Once its weights are found, a layer is a causal block: the operations on whole tensors act row by row.
`Complete` says that they are found, and `decoder` is what the model computes then.
-/

namespace InferenceEngine

theorem zipWith_const_left {A B C : Type} (f : B → C) {as : List A} {bs : List B}
    (h : as.length = bs.length) : List.zipWith (fun _ b => f b) as bs = bs.map f := by
  induction bs generalizing as with
  | nil => simp
  | cons b bs ih =>
    cases as with
    | nil => simp at h
    | cons a as => simp [ih (by simpa using h)]

theorem zipWith_positions {A B : Type} (f : Nat → A → B) (p : Nat) {n : Nat} {xs : List A}
    (h : xs.length = n) :
    List.zipWith f ((List.range n).map (p + ·)) xs = xs.mapIdx fun i x => f (p + i) x := by
  apply List.ext_getElem
  · simp [h]
  · intro i _ _
    simp

namespace Model

variable {W Q K : Type} (M : Model W Q K)

def linearRow (name : String) (bias : Option W) : Except Error (Row K → Row K) :=
  match if M.quantized then M.quant name else none with
  | some weight => .ok fun row => M.kernels.linearInt8 row weight bias
  | none => do
    let weight ← M.get name
    return fun row => M.kernels.linear row weight bias

theorem linearW_eq (x : Rows K) (name : String) (bias : Option W) :
    M.linearW x name bias = (M.linearRow name bias).map fun f => x.map f := by
  unfold linearW linearRow
  cases if M.quantized then M.quant name else none with
  | some weight => rfl
  | none => cases M.get name <;> rfl

def projectRow (l : Nat) (name : String) : Except Error (Row K → Row K) := do
  let wkey := layerKey l ("self_attn." ++ name ++ "_proj.weight")
  if M.config.attentionQkvBias then
    let bias ← M.get (layerKey l ("self_attn." ++ name ++ "_proj.bias"))
    M.linearRow wkey (some bias)
  else M.linearRow wkey none

theorem project_eq (l : Nat) (normed : Rows K) (name : String) :
    M.project l normed name = (M.projectRow l name).map fun f => normed.map f := by
  unfold project projectRow
  by_cases hbias : M.config.attentionQkvBias
  · simp only [hbias, if_true]
    cases M.get (layerKey l ("self_attn." ++ name ++ "_proj.bias")) with
    | ok bias => exact M.linearW_eq _ _ _
    | error e => rfl
  · simp only [hbias]
    exact M.linearW_eq _ _ _

/-- A row's query, key and value before the rotation. -/
def inputRows (l : Nat) :
    Except Error ((Row K → Row K) × (Row K → Row K) × (Row K → Row K)) := do
  let inputNorm ← M.get (layerKey l "input_layernorm.weight")
  let norm := fun row => M.kernels.rmsNorm row inputNorm M.config.rmsNormEps
  let q ← M.projectRow l "q"
  let k ← M.projectRow l "k"
  let v ← M.projectRow l "v"
  return (q ∘ norm, k ∘ norm, v ∘ norm)

/-- The new row of a layer, from the old row and its attention row. -/
def finishRow (l : Nat) : Except Error (Row K → Row K → Row K) := do
  let o ← M.linearRow (layerKey l "self_attn.o_proj.weight") none
  let postNorm ← M.get (layerKey l "post_attention_layernorm.weight")
  let gate ← M.linearRow (layerKey l "mlp.gate_proj.weight") none
  let up ← M.linearRow (layerKey l "mlp.up_proj.weight") none
  let down ← M.linearRow (layerKey l "mlp.down_proj.weight") none
  return fun row attn =>
    let x := M.kernels.add row (o attn)
    let normed := M.kernels.rmsNorm x postNorm M.config.rmsNormEps
    M.kernels.add x (down (M.kernels.siluMul (gate normed) (up normed)))

/-- A layer whose weights are found, as a causal block. -/
def block (l : Nat) : Except Error (Causal.Block (Row K)) := do
  let (q, k, v) ← M.inputRows l
  let finish ← M.finishRow l
  let c := M.config
  return {
    query := fun p row => M.kernels.rope c.numAttentionHeads c.headDim c.ropeTheta p (q row)
    key := fun p row => M.kernels.rope c.numKeyValueHeads c.headDim c.ropeTheta p (k row)
    value := fun _ row => v row
    attend := M.kernels.attention c.numAttentionHeads c.numKeyValueHeads c.headDim
    finish := finish }

section Block

variable {M}

theorem block_ok {l : Nat} {B : Causal.Block (Row K)} (h : M.block l = .ok B) :
    ∃ q k v, M.inputRows l = .ok (q, k, v) ∧ M.finishRow l = .ok B.finish ∧
      (∀ p row, B.query p row = M.kernels.rope M.config.numAttentionHeads M.config.headDim
        M.config.ropeTheta p (q row)) ∧
      (∀ p row, B.key p row = M.kernels.rope M.config.numKeyValueHeads M.config.headDim
        M.config.ropeTheta p (k row)) ∧
      (∀ p row, B.value p row = v row) ∧
      B.attend = M.kernels.attention M.config.numAttentionHeads M.config.numKeyValueHeads
        M.config.headDim := by
  unfold block at h
  cases hin : M.inputRows l with
  | error e => simp [hin, bind, Except.bind] at h
  | ok qkv =>
    cases hfin : M.finishRow l with
    | error e => simp [hin, hfin, bind, Except.bind] at h
    | ok finish =>
      simp only [hin, hfin, bind, Except.bind, pure, Except.pure, Except.ok.injEq] at h
      subst h
      exact ⟨qkv.1, qkv.2.1, qkv.2.2, rfl, rfl, fun _ _ => rfl, fun _ _ => rfl, fun _ _ => rfl, rfl⟩

theorem block_ok_of {l : Nat} {qkv : (Row K → Row K) × (Row K → Row K) × (Row K → Row K)}
    {finish : Row K → Row K → Row K} (hin : M.inputRows l = .ok qkv)
    (hfin : M.finishRow l = .ok finish) : ∃ B, M.block l = .ok B :=
  ⟨_, by simp only [block, hin, hfin, bind, Except.bind]; rfl⟩

theorem layerInputs_ok_inputRows {l : Nat} {positions : List Nat} {x : Rows K} {out}
    (h : M.layerInputs l positions x = .ok out) : ∃ qkv, M.inputRows l = .ok qkv := by
  unfold layerInputs at h
  unfold inputRows
  simp only [project_eq] at h
  cases hn : M.get (layerKey l "input_layernorm.weight") with
  | error e => simp [hn, bind, Except.bind] at h
  | ok w =>
    cases hq : M.projectRow l "q" with
    | error e => simp [hn, hq, bind, Except.bind, Except.map] at h
    | ok q =>
      cases hk : M.projectRow l "k" with
      | error e => simp [hn, hq, hk, bind, Except.bind, Except.map] at h
      | ok k =>
        cases hv : M.projectRow l "v" with
        | error e => simp [hn, hq, hk, hv, bind, Except.bind, Except.map] at h
        | ok v => exact ⟨_, rfl⟩

theorem layerInputs_eq {l : Nat} {B : Causal.Block (Row K)} (h : M.block l = .ok B)
    {positions : List Nat} {x : Rows K} (hlen : positions.length = x.length) :
    M.layerInputs l positions x = .ok (List.zipWith B.query positions x,
      List.zipWith B.key positions x, List.zipWith B.value positions x) := by
  obtain ⟨q, k, v, hin, -, hquery, hkey, hvalue, -⟩ := block_ok h
  have hq : B.query = fun p row => M.kernels.rope M.config.numAttentionHeads M.config.headDim
      M.config.ropeTheta p (q row) := funext₂ hquery
  have hk : B.key = fun p row => M.kernels.rope M.config.numKeyValueHeads M.config.headDim
      M.config.ropeTheta p (k row) := funext₂ hkey
  have hv : B.value = fun _ row => v row := funext₂ hvalue
  unfold inputRows at hin
  unfold layerInputs
  simp only [project_eq]
  cases hn : M.get (layerKey l "input_layernorm.weight") with
  | error e => simp [hn, bind, Except.bind] at hin
  | ok w =>
    cases hq' : M.projectRow l "q" with
    | error e => simp [hn, hq', bind, Except.bind] at hin
    | ok q' =>
      cases hk' : M.projectRow l "k" with
      | error e => simp [hn, hq', hk', bind, Except.bind] at hin
      | ok k' =>
        cases hv' : M.projectRow l "v" with
        | error e => simp [hn, hq', hk', hv', bind, Except.bind] at hin
        | ok v' =>
          simp only [hn, hq', hk', hv', bind, Except.bind, pure, Except.pure, Except.ok.injEq,
            Prod.mk.injEq] at hin
          obtain ⟨rfl, rfl, rfl⟩ := hin
          rw [hq, hk, hv, zipWith_const_left _ hlen]
          simp [bind, Except.bind, Except.map, Kernels.ropeInplace, Kernels.rmsNormRows,
            hlen, List.zipWith_map_right, pure, Except.pure, Function.comp_def]

theorem layerOutput_eq {l : Nat} (x attn : Rows K) :
    M.layerOutput l x attn = (M.finishRow l).map fun finish => List.zipWith finish x attn := by
  unfold layerOutput finishRow
  simp only [linearW_eq]
  cases M.linearRow (layerKey l "self_attn.o_proj.weight") none with
  | error e => rfl
  | ok o =>
    cases M.get (layerKey l "post_attention_layernorm.weight") with
    | error e => rfl
    | ok postNorm =>
      cases M.linearRow (layerKey l "mlp.gate_proj.weight") none with
      | error e => rfl
      | ok gate =>
        cases M.linearRow (layerKey l "mlp.up_proj.weight") none with
        | error e => rfl
        | ok up =>
          cases M.linearRow (layerKey l "mlp.down_proj.weight") none with
          | error e => rfl
          | ok down =>
            simp only [Except.map, bind, Except.bind, pure, Except.pure, Kernels.addInplace,
              Kernels.rmsNormRows, Kernels.siluMulRows, Except.ok.injEq]
            apply List.ext_getElem <;> simp

theorem attend_eq {l : Nat} {B : Causal.Block (Row K)} (h : M.block l = .ok B) {q k v : Rows K}
    {offset : Nat} (hv : v.length = k.length)
    (hheads : M.config.numKeyValueHeads ≠ 0 ∧
      M.config.numAttentionHeads % M.config.numKeyValueHeads = 0)
    (hle : offset + q.length ≤ k.length) :
    M.attend q k v offset =
      .ok (q.mapIdx fun i row => B.attend row (k.take (offset + i + 1)) (v.take (offset + i + 1))) := by
  obtain ⟨_, _, _, -, -, -, -, -, hattend⟩ := block_ok h
  have hheads' : ¬(M.config.numKeyValueHeads = 0 ∨
      M.config.numAttentionHeads % M.config.numKeyValueHeads ≠ 0) := by
    simp [hheads]
  rw [attend, Kernels.attentionRows, if_neg (by simp [hv]), if_neg hheads', if_neg (by omega), hattend]

end Block

abbrev embedKey : String := "model.embed_tokens.weight"

abbrev normKey : String := "model.norm.weight"

/-- Every tensor the forward pass looks up is there, and the heads divide. -/
structure Complete : Prop where
  embed : ∃ w, M.weights embedKey = some w
  norm : ∃ w, M.weights normKey = some w
  block : ∀ l < M.config.numHiddenLayers, ∃ B, M.block l = .ok B
  heads : 0 < M.config.numHiddenLayers → M.config.numKeyValueHeads ≠ 0 ∧
    M.config.numAttentionHeads % M.config.numKeyValueHeads = 0

/-- A token the embedding table has a row for. -/
def InVocab (token : Int) : Prop :=
  0 ≤ token ∧ ∀ w, M.weights embedKey = some w → token < M.kernels.vocab w

/-- The tensors have the sizes of the config: the embedding table has a row for every token of the
vocabulary, and a row of logits has an entry for each. -/
structure Matches : Prop where
  vocab_eq : ∀ w, M.weights embedKey = some w → M.kernels.vocab w = M.config.vocabSize
  head_length : ∀ w, M.weights embedKey = some w → ∀ row,
    (M.kernels.linear row ((M.weights "lm_head.weight").getD w) none).length = M.config.vocabSize

/-- What the layers of the model compute. The values for missing tensors do not matter. -/
def decoder : Causal.Decoder Int (Row K) where
  embed token :=
    match M.weights embedKey with
    | some w => M.kernels.embeddingRow w token.toNat
    | none => []
  block l :=
    match M.block l with
    | .ok B => B
    | .error _ => ⟨fun _ x => x, fun _ x => x, fun _ x => x, fun x _ _ => x, fun x _ => x⟩

def logitsRow (row : Row K) : Row K :=
  match M.weights embedKey, M.weights normKey with
  | some embed, some norm =>
    M.kernels.linear (M.kernels.rmsNorm row norm M.config.rmsNormEps)
      ((M.weights "lm_head.weight").getD embed) none
  | _, _ => []

def logits (ids : List Int) : Rows K :=
  (M.decoder.hidden M.config.numHiddenLayers ids).map M.logitsRow

@[simp] theorem length_logits (ids : List Int) : (M.logits ids).length = ids.length := by
  simp [logits]

theorem logits_take (n : Nat) (ids : List Int) :
    (M.logits ids).take n = M.logits (ids.take n) := by
  rw [logits, ← List.map_take, Causal.Decoder.hidden_take, logits]

theorem logits_append (xs ys : List Int) :
    M.logits (xs ++ ys) = M.logits xs ++
      ((M.decoder.hidden M.config.numHiddenLayers (xs ++ ys)).drop xs.length).map M.logitsRow := by
  conv_lhs => rw [logits, Causal.Decoder.hidden_append_drop, List.map_append]
  rfl

section Complete

variable {M}

theorem Complete.decoder_block (h : M.Complete) {l : Nat} (hl : l < M.config.numHiddenLayers) :
    M.block l = .ok (M.decoder.block l) := by
  obtain ⟨B, hB⟩ := h.block l hl
  simp [decoder, hB]

theorem get_eq_of_some {name : String} {w : W} (h : M.weights name = some w) : M.get name = .ok w := by
  simp [Model.get, h]

theorem embedding_eq {w : W} (hw : M.weights embedKey = some w) {ids : List Int}
    (hids : ∀ t ∈ ids, M.InVocab t) :
    M.kernels.embedding w ids = .ok (ids.map M.decoder.embed) := by
  induction ids with
  | nil => rfl
  | cons t ids ih =>
    have ht := hids t List.mem_cons_self
    have htop := ht.2 w hw
    have hrest := ih fun t ht => hids t (List.mem_cons_of_mem _ ht)
    unfold Kernels.embedding at hrest ⊢
    rw [List.mapM_cons, hrest, if_neg (by have := ht.1; omega)]
    simp [decoder, hw, bind, Except.bind, pure, Except.pure]

theorem finalNorm_lmHead {embed norm : W} (he : M.weights embedKey = some embed)
    (hn : M.weights normKey = some norm) (x : Rows K) :
    M.finalNorm x = .ok (x.map fun row => M.kernels.rmsNorm row norm M.config.rmsNormEps) ∧
      M.lmHead embed (x.map fun row => M.kernels.rmsNorm row norm M.config.rmsNormEps) =
        x.map M.logitsRow := by
  constructor
  · simp [finalNorm, get_eq_of_some hn, bind, Except.bind, pure, Except.pure, Kernels.rmsNormRows]
  · simp [lmHead, Kernels.linearRows, logitsRow, he, hn, Function.comp_def]

/-! ### What a run that returns has found -/

theorem inVocab_of_embedding {w : W} (hw : M.weights embedKey = some w) {ids : List Int} {x : Rows K}
    (h : M.kernels.embedding w ids = .ok x) : ∀ t ∈ ids, M.InVocab t := by
  induction ids generalizing x with
  | nil => simp
  | cons t ids ih =>
    unfold Kernels.embedding at h ih
    rw [List.mapM_cons] at h
    by_cases ht : t < 0 ∨ (M.kernels.vocab w : Int) ≤ t
    · simp [ht, bind, Except.bind] at h
    · rw [if_neg ht] at h
      cases hrest : ids.mapM fun id => if id < 0 ∨ (M.kernels.vocab w : Int) ≤ id then
          Except.error (Error.outOfRange "embedding: token id out of range")
          else .ok (M.kernels.embeddingRow w id.toNat) with
      | error e => simp [hrest, bind, Except.bind] at h
      | ok rows =>
        rintro t' (_ | ⟨_, ht'⟩)
        · refine ⟨by omega, fun w' hw' => ?_⟩
          rw [hw, Option.some.injEq] at hw'
          subst hw'
          omega
        · exact ih hrest t' ht'

theorem get_ok {name : String} {w : W} (h : M.get name = .ok w) : M.weights name = some w := by
  unfold Model.get at h
  cases hw : M.weights name with
  | none => simp [hw] at h
  | some w' =>
    simp only [hw, Except.ok.injEq] at h
    rw [h]

theorem norm_of_finalNorm {x y : Rows K} (h : M.finalNorm x = .ok y) : ∃ w, M.weights normKey = some w := by
  unfold finalNorm at h
  cases hw : M.get "model.norm.weight" with
  | error e => simp [hw, bind, Except.bind] at h
  | ok w => exact ⟨w, get_ok hw⟩

theorem heads_of_attend {q k v attn : Rows K} {offset : Nat} (h : M.attend q k v offset = .ok attn) :
    M.config.numKeyValueHeads ≠ 0 ∧ M.config.numAttentionHeads % M.config.numKeyValueHeads = 0 := by
  unfold attend Kernels.attentionRows at h
  by_cases hv : v.length ≠ k.length
  · simp [hv] at h
  by_cases hheads : M.config.numKeyValueHeads = 0 ∨
      M.config.numAttentionHeads % M.config.numKeyValueHeads ≠ 0
  · simp [hv, hheads] at h
  · simpa [not_or] using hheads

theorem block_of_layer {l : Nat} {positions : List Nat} {x x' attn : Rows K} {out y}
    (hin : M.layerInputs l positions x = .ok out) (hout : M.layerOutput l x' attn = .ok y) :
    ∃ B, M.block l = .ok B := by
  obtain ⟨qkv, hqkv⟩ := layerInputs_ok_inputRows hin
  rw [layerOutput_eq] at hout
  cases hfin : M.finishRow l with
  | error e => simp [hfin, Except.map] at hout
  | ok finish => exact block_ok_of hqkv hfin

/-- What the layers before `l` have found. -/
def FoundBelow (M : Model W Q K) (l : Nat) : Prop :=
  (∀ j < l, ∃ B, M.block j = .ok B) ∧ (0 < l → M.config.numKeyValueHeads ≠ 0 ∧
    M.config.numAttentionHeads % M.config.numKeyValueHeads = 0)

theorem FoundBelow.zero : M.FoundBelow 0 :=
  ⟨fun _ hj => absurd hj (Nat.not_lt_zero _), fun h => absurd h (lt_irrefl 0)⟩

theorem FoundBelow.succ {l : Nat} (h : M.FoundBelow l) (hblock : ∃ B, M.block l = .ok B)
    (hheads : M.config.numKeyValueHeads ≠ 0 ∧
      M.config.numAttentionHeads % M.config.numKeyValueHeads = 0) : M.FoundBelow (l + 1) := by
  refine ⟨fun j hj => ?_, fun _ => hheads⟩
  rcases Nat.lt_succ_iff_lt_or_eq.mp hj with hj | rfl
  · exact h.1 j hj
  · exact hblock

end Complete

/-! ### A small model -/

/-- A model of one layer over three tokens: a row is one number, and attention sums the values. -/
def tiny : Model Nat Unit ℚ where
  config := ⟨1, 1, 1, 1, 3, 1, 0, false⟩
  kernels :=
    { linear := fun row w _ =>
        if w = 0 then row else (List.range w).map fun i => if row.sum.num % w = i then 1 else 0
      linearInt8 := fun row _ _ => row
      rmsNorm := fun row _ _ => row
      siluMul := fun gate _ => gate.map fun _ => 0
      rope := fun _ _ _ _ row => row
      attention := fun _ _ _ _ _ v => [(v.map List.sum).sum]
      add := List.zipWith (· + ·)
      vocab := fun w => w
      embeddingRow := fun _ t => [(t : ℚ)] }
  weights name := if name = "lm_head.weight" then none else if name = embedKey then some 3 else some 0
  quantized := false
  quant _ := none

theorem tiny_complete : tiny.Complete where
  embed := ⟨3, by decide⟩
  norm := ⟨0, by decide⟩
  block l hl := by
    obtain rfl : l = 0 := by simpa [tiny] using hl
    exact block_ok_of rfl rfl
  heads _ := by decide

theorem tiny_matches : tiny.Matches := by
  have h3 : tiny.weights embedKey = some 3 := by decide
  constructor
  · intro w hw
    rw [h3, Option.some.injEq] at hw
    rw [← hw]
    rfl
  · intro w hw row
    rw [h3, Option.some.injEq] at hw
    subst hw
    have hhead : (tiny.weights "lm_head.weight").getD 3 = 3 := by decide
    rw [hhead]
    simp [tiny]

theorem tiny_inVocab {t : Int} (h : 0 ≤ t ∧ t < 3) : tiny.InVocab t := by
  refine ⟨h.1, fun w hw => ?_⟩
  have h3 : tiny.weights embedKey = some 3 := by decide
  rw [h3, Option.some.injEq] at hw
  subst hw
  exact h.2

end Model

end InferenceEngine
