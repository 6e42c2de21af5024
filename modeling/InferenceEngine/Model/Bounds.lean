import InferenceEngine.Model.Accesses
import InferenceEngine.Model.Failure

/-!
# Which shapes stay in bounds

The two forward passes over shapes. `linear`, `rms_norm`, `rope_inplace`, `silu_mul` and `attention` check the
shapes they are given. `add_inplace`, the caches and the copies of rows do not, and nothing checks the products
that sizes and offsets are computed with, so that a run stays in its buffers exactly when the tensors it comes to
are large enough.
-/

namespace InferenceEngine

open Exec Checked Wrap Shapes

/-- A configuration with positive dimensions, and the shapes of the weights. -/
structure ShapedModel where
  numHiddenLayers : Nat
  hiddenSize : Nat
  numAttentionHeads : Nat
  numKeyValueHeads : Nat
  headDim : Nat
  vocabSize : Nat
  attentionQkvBias : Bool
  weights : String → Option Shape
  dims_pos : ∀ d ∈ [numHiddenLayers, hiddenSize, numAttentionHeads, numKeyValueHeads, headDim, vocabSize],
    0 < d ∧ d < 2 ^ 63

namespace ShapedModel

variable (M : ShapedModel)

def qDim : Int := int64 (M.numAttentionHeads * M.headDim : Nat)

def kvDim : Int := int64 (M.numKeyValueHeads * M.headDim : Nat)

/-- The dimensions of a tensor, when there is one. -/
def dims (name : String) : Dims := (M.weights name).elim [] Shape.dims

protected def get (name : String) : Accesses Dims := do
  require (M.weights name ≠ none) (.error (.runtimeError ("safetensors: missing tensor '" ++ name ++ "'")))
  return M.dims name

def linearW (x : Dims) (name : String) (bias : Dims) : Accesses Dims := do
  let weight ← M.get name
  linear x weight bias

def projKey (l : Nat) (name : String) : String := layerKey l ("self_attn." ++ name ++ "_proj.weight")

def biasKey (l : Nat) (name : String) : String := layerKey l ("self_attn." ++ name ++ "_proj.bias")

def project (l : Nat) (normed : Dims) (name : String) : Accesses Dims :=
  if M.attentionQkvBias then do
    let bias ← M.get (biasKey l name)
    M.linearW normed (projKey l name) bias
  else M.linearW normed (projKey l name) []

def normed (x : Dims) (name : String) : Accesses Dims := do
  let weight ← M.get name
  rmsNorm x weight

def layerInputs (l positions : Nat) (x : Dims) : Accesses (Dims × Dims × Dims) := do
  let normed ← M.normed x (layerKey l "input_layernorm.weight")
  let q ← M.project l normed "q"
  let k ← M.project l normed "k"
  let v ← M.project l normed "v"
  let q ← ropeInplace q M.numAttentionHeads M.headDim positions
  let k ← ropeInplace k M.numKeyValueHeads M.headDim positions
  return (q, k, v)

def mlp (l : Nat) (x : Dims) : Accesses Dims := do
  let normed2 ← M.normed x (layerKey l "post_attention_layernorm.weight")
  let gate ← M.linearW normed2 (layerKey l "mlp.gate_proj.weight") []
  let up ← M.linearW normed2 (layerKey l "mlp.up_proj.weight") []
  let act ← siluMul gate up
  M.linearW act (layerKey l "mlp.down_proj.weight") []

def layerOutput (l : Nat) (x attn : Dims) : Accesses Dims := do
  let attnOut ← M.linearW attn (projKey l "o") []
  let x ← addInplace x attnOut
  let down ← M.mlp l x
  addInplace x down

/-- `embed_tokens` is tied unless `lm_head` is present. -/
def headDims : Dims := (M.weights "lm_head.weight").elim (M.dims "model.embed_tokens.weight") Shape.dims

/-! ### One sequence -/

/-- `KVCache::append` to a layer that is still empty, and attention over the rows of the layer. -/
def attendCached (q k v : Dims) (seq : Nat) : Accesses Dims := do
  let n := sizeT (int64 (seq * M.kvDim))
  require (n ≤ maxSize 4) .lengthError
  touch k.size 0 n
  touch v.size 0 n
  let rows := (n : Int).tdiv M.kvDim
  let cached : Dims := [rows.toNat, M.kvDim.toNat]
  require (cached.size = n) (invalid "Tensor: shape does not match data size")
  attention q cached cached M.numAttentionHeads M.numKeyValueHeads M.headDim 0

def layerCached (seq : Nat) (x : Dims) (l : Nat) : Accesses Dims := do
  let qkv ← M.layerInputs l seq x
  let attn ← M.attendCached qkv.1 qkv.2.1 qkv.2.2 seq
  M.layerOutput l x attn

def forward (ids : List Int) : Accesses Dims := do
  require (M.numHiddenLayers ≤ maxSize 24) .lengthError
  require (ids ≠ []) (invalid "forward: empty input sequence")
  require (ids.length ≤ maxSize 8) .lengthError
  let embed ← M.get "model.embed_tokens.weight"
  let x ← embedding embed ids
  let x ← (List.range M.numHiddenLayers).foldlM (M.layerCached ids.length) x
  let normed ← M.normed x "model.norm.weight"
  linear normed M.headDims []

/-! ### The path of one sequence -/

def linearWPath (s h : Nat) (name : String) (bias : Dims) : List Stage :=
  .check (M.weights name ≠ none) :: linearPath s h (M.dims name) bias

def rows (name : String) : Nat := (M.dims name).getD 0 0

def projectPath (l s h : Nat) (name : String) : List Stage :=
  if M.attentionQkvBias then
    .check (M.weights (biasKey l name) ≠ none) :: M.linearWPath s h (projKey l name) (M.dims (biasKey l name))
  else M.linearWPath s h (projKey l name) []

def normPath (h : Nat) (name : String) : List Stage :=
  [.check (M.weights name ≠ none), .check ((M.dims name).count = h)]

def inputsPath (l s h : Nat) : List Stage :=
  [M.normPath h (layerKey l "input_layernorm.weight"), M.projectPath l s h "q", M.projectPath l s h "k",
    M.projectPath l s h "v", ropePath (M.rows (projKey l "q")) M.numAttentionHeads M.headDim,
    ropePath (M.rows (projKey l "k")) M.numKeyValueHeads M.headDim].flatten

def mlpPath (l s h : Nat) : List Stage :=
  [M.normPath h (layerKey l "post_attention_layernorm.weight"),
    M.linearWPath s h (layerKey l "mlp.gate_proj.weight") [], M.linearWPath s h (layerKey l "mlp.up_proj.weight") [],
    [.check (M.rows (layerKey l "mlp.gate_proj.weight") = M.rows (layerKey l "mlp.up_proj.weight"))],
    M.linearWPath s (M.rows (layerKey l "mlp.gate_proj.weight")) (layerKey l "mlp.down_proj.weight") []].flatten

/-- Nothing checks the rows of `o_proj` and of `down_proj`. -/
def outputPath (l s h : Nat) : List Stage :=
  [M.linearWPath s (M.numAttentionHeads * M.headDim) (projKey l "o") [], [.touch (h ≤ M.rows (projKey l "o"))],
    M.mlpPath l s h, [.touch (h ≤ M.rows (layerKey l "mlp.down_proj.weight"))]].flatten

/-- Nothing checks the rows of `v_proj`. -/
def cachedPath (l s : Nat) : List Stage :=
  .touch (M.numKeyValueHeads * M.headDim ≤ M.rows (projKey l "v")) ::
    attentionPath s M.numAttentionHeads M.numKeyValueHeads M.headDim

def forwardPath (ids : List Int) : List Stage :=
  let embed := M.dims "model.embed_tokens.weight"
  let h := embed.getD 1 0
  [[.check (M.numHiddenLayers ≤ maxSize 24), .check (ids ≠ []), .check (ids.length ≤ maxSize 8),
      .check (M.weights "model.embed_tokens.weight" ≠ none)],
    embeddingPath embed ids,
    (List.range M.numHiddenLayers).flatMap fun l =>
      [M.inputsPath l ids.length h, M.cachedPath l ids.length, M.outputPath l ids.length h].flatten,
    M.normPath h "model.norm.weight", linearPath ids.length h M.headDims []].flatten

variable {M}

theorem numAttentionHeads_lt : M.numAttentionHeads < 2 ^ 63 := (M.dims_pos _ (by simp)).2

theorem numKeyValueHeads_lt : M.numKeyValueHeads < 2 ^ 63 := (M.dims_pos _ (by simp)).2

theorem headDim_pos : 0 < M.headDim := (M.dims_pos _ (by simp)).1

theorem size_dims_le (name : String) : (M.dims name).size ≤ maxSize 4 := by
  rw [dims]
  cases M.weights name with
  | none => exact size_nil_le _
  | some weight => exact weight.size_le

theorem staged_get (name : String) : Staged (M.get name) [.check (M.weights name ≠ none)] (M.dims name) :=
  staged_require Iff.rfl fun _ => staged_ok _

theorem staged_linearW {s h : Nat} {name : String} {bias : Dims} (hs : 0 < s) (hx : s * h ≤ maxSize 4)
    (hbias : bias.size ≤ maxSize 4) :
    Staged (M.linearW [s, h] name bias) (M.linearWPath s h name bias) [s, M.rows name] :=
  (staged_get name).bind fun _ => staged_linear hs ((size_of_le hx).trans_le hx) (size_dims_le name) hbias

theorem le_of_linearWPath {s h : Nat} {name : String} {bias : Dims} (hpass : AllPass (M.linearWPath s h name bias)) :
    s * M.rows name ≤ maxSize 4 := le_of_linearPath hpass.2

theorem staged_project {s h : Nat} (hs : 0 < s) (hx : s * h ≤ maxSize 4) (l : Nat) (name : String) :
    Staged (M.project l [s, h] name) (M.projectPath l s h name) [s, M.rows (projKey l name)] := by
  rw [project, projectPath]
  by_cases hbias : M.attentionQkvBias = true
  · rw [if_pos hbias, if_pos hbias]
    exact (staged_get _).bind fun _ => staged_linearW hs hx (size_dims_le _)
  · rw [if_neg hbias, if_neg hbias]
    exact staged_linearW hs hx (size_nil_le _)

theorem le_of_projectPath {l s h : Nat} {name : String} (hpass : AllPass (M.projectPath l s h name)) :
    s * M.rows (projKey l name) ≤ maxSize 4 := by
  rw [projectPath] at hpass
  by_cases hbias : M.attentionQkvBias = true
  · rw [if_pos hbias] at hpass
    exact le_of_linearWPath hpass.2
  · rw [if_neg hbias] at hpass
    exact le_of_linearWPath hpass

theorem staged_normed {s h : Nat} (hx : Solid s h) (name : String) :
    Staged (M.normed [s, h] name) (M.normPath h name) [s, h] :=
  (staged_get name).bind fun _ => staged_rmsNorm hx (size_dims_le name)

/-- A matrix with an accepted norm is one that a vector holds. -/
theorem le_of_normPath {s h : Nat} {name : String} (hx : Solid s h) (hpass : AllPass (M.normPath h name)) :
    s * h ≤ maxSize 4 := hx (le_of_count_eq (size_dims_le name) hpass.2.1).2

/-! ### A layer -/

theorem staged_layerInputs {s h : Nat} (hs : 0 < s) (hx : Solid s h) (l : Nat) :
    Staged (M.layerInputs l s [s, h]) (M.inputsPath l s h)
      ([s, M.rows (projKey l "q")], [s, M.rows (projKey l "k")], [s, M.rows (projKey l "v")]) := by
  refine (staged_normed hx _).bind fun hnorm => ?_
  have hx := le_of_normPath hx hnorm
  refine (staged_project hs hx l "q").bind fun hq => (staged_project hs hx l "k").bind fun hk =>
    (staged_project hs hx l "v").bind fun _ => ?_
  refine (staged_ropeInplace hs (le_of_projectPath hq) numAttentionHeads_lt headDim_pos).bind fun _ => ?_
  exact (staged_ropeInplace hs (le_of_projectPath hk) numKeyValueHeads_lt headDim_pos).bind fun _ => staged_ok _

theorem le_of_inputsPath {l s h : Nat} (hx : Solid s h) (hpass : AllPass (M.inputsPath l s h)) :
    s * h ≤ maxSize 4 := by
  simp only [inputsPath, List.flatten_cons, allPass_append] at hpass
  exact le_of_normPath hx hpass.1

/-- What the checks and accesses in front of the cache establish. -/
structure Inputs (M : ShapedModel) (l s : Nat) : Prop where
  qDim_lt : M.numAttentionHeads * M.headDim < 2 ^ 63
  kvDim_lt : M.numKeyValueHeads * M.headDim < 2 ^ 63
  query : M.rows (projKey l "q") = M.numAttentionHeads * M.headDim
  key : M.rows (projKey l "k") = M.numKeyValueHeads * M.headDim
  queries_le : s * (M.numAttentionHeads * M.headDim) ≤ maxSize 4
  keys_le : s * (M.numKeyValueHeads * M.headDim) ≤ maxSize 4
  values_le : s * M.rows (projKey l "v") ≤ maxSize 4

theorem inputs_of_inputsPath {l s h : Nat} (hpass : AllPass (M.inputsPath l s h)) : Inputs M l s := by
  simp only [inputsPath, List.flatten_cons, List.flatten_nil, allPass_append] at hpass
  obtain ⟨-, hq, hk, hv, ⟨hqDim, -, hqLt, -⟩, ⟨hkDim, -, hkLt, -⟩, -⟩ := hpass
  rw [int64_natCast hqLt, Int.natCast_inj] at hqDim
  rw [int64_natCast hkLt, Int.natCast_inj] at hkDim
  exact ⟨hqLt, hkLt, hqDim, hkDim, hqDim ▸ le_of_projectPath hq, hkDim ▸ le_of_projectPath hk,
    le_of_projectPath hv⟩

theorem Inputs.qDim_eq {l s : Nat} (h : Inputs M l s) : M.qDim = (M.numAttentionHeads * M.headDim : Nat) :=
  int64_natCast h.qDim_lt

theorem Inputs.kvDim_eq {l s : Nat} (h : Inputs M l s) : M.kvDim = (M.numKeyValueHeads * M.headDim : Nat) :=
  int64_natCast h.kvDim_lt

theorem staged_mlp {s h : Nat} (hs : 0 < s) (hx : s * h ≤ maxSize 4) (l : Nat) :
    Staged (M.mlp l [s, h]) (M.mlpPath l s h) [s, M.rows (layerKey l "mlp.down_proj.weight")] := by
  refine (staged_normed (fun _ => hx) _).bind fun _ => (staged_linearW hs hx (size_nil_le _)).bind fun hgate => ?_
  refine (staged_linearW hs hx (size_nil_le _)).bind fun _ => ?_
  have hgate := le_of_linearWPath hgate
  refine (staged_siluMul hgate).bind fun _ => ?_
  exact staged_linearW hs hgate (size_nil_le _)

theorem le_of_mlpPath {l s h : Nat} (hpass : AllPass (M.mlpPath l s h)) :
    s * M.rows (layerKey l "mlp.down_proj.weight") ≤ maxSize 4 := by
  simp only [mlpPath, List.flatten_cons, List.flatten_nil, allPass_append] at hpass
  exact le_of_linearWPath hpass.2.2.2.2.1

theorem staged_layerOutput {s h : Nat} (hs : 0 < s) (hx : s * h ≤ maxSize 4)
    (hattn : s * (M.numAttentionHeads * M.headDim) ≤ maxSize 4) (l : Nat) :
    Staged (M.layerOutput l [s, h] [s, M.numAttentionHeads * M.headDim]) (M.outputPath l s h) [s, h] := by
  refine (staged_linearW hs hattn (size_nil_le _)).bind fun hout => ?_
  refine (staged_addInplace hs hx (le_of_linearWPath hout)).bind fun _ => ?_
  refine (staged_mlp hs hx l).bind fun hdown => ?_
  exact staged_addInplace hs hx (le_of_mlpPath hdown)

theorem staged_attendCached {l s : Nat} (hs : 0 < s) (h : Inputs M l s) :
    Staged (M.attendCached [s, M.rows (projKey l "q")] [s, M.rows (projKey l "k")] [s, M.rows (projKey l "v")] s)
      (M.cachedPath l s) [s, M.numAttentionHeads * M.headDim] := by
  have hpos : 0 < M.numKeyValueHeads * M.headDim := Nat.mul_pos (M.dims_pos _ (by simp)).1 headDim_pos
  have hkv := h.kvDim_eq
  have hall := h.keys_le
  have hn : sizeT (int64 (s * M.kvDim)) = s * (M.numKeyValueHeads * M.headDim) := by
    rw [hkv, ← Int.natCast_mul, sizeT_int64, sizeT_natCast]
    rw [maxSize_four] at hall
    omega
  have hrows : ((s * (M.numKeyValueHeads * M.headDim) : Nat) : Int).tdiv M.kvDim = s := by
    rw [hkv, ← Int.ofNat_tdiv, Nat.mul_div_cancel s hpos]
  rw [attendCached, h.query, h.key]
  simp only [hn, hrows, Int.toNat_natCast]
  rw [require_bind hall, (touches_front _ _).ok (size_of_le hall).ge, ok_bind]
  have hvalues : s * (M.numKeyValueHeads * M.headDim) ≤ Dims.size [s, M.rows (projKey l "v")] ↔
      M.numKeyValueHeads * M.headDim ≤ M.rows (projKey l "v") := by
    rw [size_of_le h.values_le, Nat.mul_le_mul_left_iff hs]
  refine ((touches_front _ _).congr hvalues).staged fun _ => ?_
  have hcached : Dims.size [s, M.kvDim.toNat] = s * (M.numKeyValueHeads * M.headDim) := by
    rw [hkv, Int.toNat_natCast, size_of_le hall]
  rw [require_bind hcached, hkv, Int.toNat_natCast]
  rw [maxSize_four] at hall
  exact staged_attention h.qDim_lt h.kvDim_lt h.queries_le h.keys_le (Nat.zero_add s).le
    ((Nat.le_mul_of_pos_right s hpos).trans_lt (by omega))

theorem staged_layerCached {s h : Nat} (hs : 0 < s) (hx : Solid s h) (l : Nat) :
    Staged (M.layerCached s [s, h] l) [M.inputsPath l s h, M.cachedPath l s, M.outputPath l s h].flatten [s, h] := by
  refine (staged_layerInputs hs hx l).bind fun hpass => ?_
  have hinputs := inputs_of_inputsPath hpass
  refine (staged_attendCached hs hinputs).bind fun _ => ?_
  exact staged_layerOutput hs (le_of_inputsPath hx hpass) hinputs.queries_le l

theorem size_headDims_le : M.headDims.size ≤ maxSize 4 := by
  rw [headDims]
  cases M.weights "lm_head.weight" with
  | none => exact size_dims_le _
  | some head => exact head.size_le

/-- **`forward`** takes its path. -/
theorem staged_forward (ids : List Int) :
    Staged (M.forward ids) (M.forwardPath ids) [ids.length, M.headDims.getD 0 0] := by
  rw [forward, forwardPath]
  apply staged_require Iff.rfl
  intro _
  apply staged_require Iff.rfl
  intro hne
  apply staged_require Iff.rfl
  intro _
  have hs : 0 < ids.length := List.length_pos_iff.mpr hne
  refine (staged_get _).bind fun _ => (staged_embedding _ ids).bind fun hembed => ?_
  have hx := solid_of_embedded hembed
  refine (staged_foldlM fun l _ => staged_layerCached hs hx l).bind fun _ => ?_
  refine (staged_normed hx _).bind fun hnorm => ?_
  have hx := le_of_normPath hx hnorm
  exact staged_linear hs ((size_of_le hx).trans_le hx) size_headDims_le (size_nil_le _)

end ShapedModel

end InferenceEngine
