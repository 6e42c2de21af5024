import InferenceEngine.Library.Exec
import InferenceEngine.Model.Rotation

/-!
# The tensor operations of the host

The functions of `nn.cpp` on whole tensors, with their checks. On tensors of the shapes they ask for, each of them
does to the rows what its row kernel does.
-/

namespace InferenceEngine

open Nn (rotate linearRow rmsNormRow ropeRow attentionRow)

namespace Nn.Tensor

variable {K : Type}

/-- A tensor of two dimensions with given rows. -/
structure HasRows (t : Nn.Tensor K) (width : Nat) (rows : Rows K) : Prop where
  shape : t.shape = [rows.length, width]
  width : ∀ row ∈ rows, row.length = width
  data : t.data = rows.flatten

theorem flatten_readRows (width n : Nat) (cells : Nat → K) :
    (readRows width n cells).flatten = (List.range (n * width)).map cells := by
  induction n with
  | zero =>
    rw [Nat.zero_mul]
    rfl
  | succ n ih =>
    rw [readRows, List.range_succ, List.map_append, List.flatten_append, ← readRows, ih, Nat.succ_mul,
      List.range_add, List.map_append, List.map_map, List.map_singleton, List.flatten_singleton]
    rfl

theorem hasRows_ofCells {width n : Nat} {cells : Nat → K} {rows : Rows K} (h : readRows width n cells = rows) :
    (ofCells [n, width] cells).HasRows width rows where
  shape := by
    rw [← h, length_readRows]
    rfl
  width row hrow := by
    rw [← h] at hrow
    obtain ⟨r, _, rfl⟩ := List.mem_map.mp hrow
    exact length_readRow width cells r
  data := by
    rw [← h, flatten_readRows, ← Dims.numel_matrix]
    rfl

theorem hasRows_matrix (n width : Nat) (entry : Nat → Nat → K) :
    (matrix n width entry).HasRows width ((List.range n).map fun r => (List.range width).map (entry r)) := by
  apply hasRows_ofCells
  apply List.map_congr_left
  intro r _
  apply List.map_congr_left
  intro e he
  have he := List.mem_range.mp he
  exact congrArg₂ entry (Loop.index_div he) (Loop.index_mod he)

namespace HasRows

variable {t t' : Nn.Tensor K} {width : Nat} {rows : Rows K}

theorem unique (h : t.HasRows width rows) (h' : t'.HasRows width rows) : t = t' :=
  Nn.Tensor.ext (h.shape.trans h'.shape.symm) (h.data.trans h'.data.symm)

theorem ndim (h : t.HasRows width rows) : t.ndim = 2 := ndim_of_shape h.shape

theorem dim_zero (h : t.HasRows width rows) : t.dim 0 = rows.length := dim_zero_of_shape h.shape

theorem dim_one (h : t.HasRows width rows) : t.dim 1 = width := dim_one_of_shape h.shape

theorem numel (h : t.HasRows width rows) : t.numel = rows.length * width := by
  rw [Nn.Tensor.numel, h.shape, Dims.numel_matrix]

theorem getD_eq [Zero K] (h : t.HasRows width rows) {r e : Nat} (hr : r < rows.length) (he : e < width) :
    t.cell (r * width + e) = (rows.getD r []).getD e 0 := by
  rw [cell, h.data]
  exact pointerTo_row h.width hr he

theorem readRows_eq [Zero K] (h : t.HasRows width rows) : readRows width rows.length t.cell = rows := by
  apply List.ext_getElem
  · exact length_readRows _ _ _
  · intro r hr hr'
    simp only [readRows, List.getElem_map, List.getElem_range]
    apply readRow_of_getD (h.width _ (List.getElem_mem hr'))
    intro e he
    rw [h.getD_eq hr' he, List.getD_eq_getElem _ _ hr']

theorem readRows_dim [Zero K] (h : t.HasRows width rows) : readRows width (t.dim 0) t.cell = rows := by
  rw [h.dim_zero, h.readRows_eq]

theorem forall₂_unique {ts ts' : List (Nn.Tensor K)} {rowss : List (Rows K)}
    (h : List.Forall₂ (fun t rows => t.HasRows width rows) ts rowss)
    (h' : List.Forall₂ (fun t rows => t.HasRows width rows) ts' rowss) : ts = ts' := by
  induction h generalizing ts' with
  | nil =>
    cases h'
    rfl
  | cons hrow _ ih =>
    cases h' with
    | cons hrow' hrest' => rw [hrow.unique hrow', ih hrest']

end HasRows

end Nn.Tensor

namespace Host

variable {K : Type} [Field K] [LinearOrder K] (F : MathFunctions K)

def rmsNorm (x weight : Nn.Tensor K) (eps : K) : Except Error (Nn.Tensor K) := do
  if x.ndim ≠ 2 then
    throw (.invalidArgument "rms_norm: x must be 2D")
  let s := x.dim 0
  let h := x.dim 1
  if weight.numel ≠ h then
    throw (.invalidArgument "rms_norm: weight size does not match hidden dim")
  let out := (List.range s).foldl (fun out i =>
    let row := fun j => x.cell (i * h + j)
    let sumSq := (List.range h).foldl (fun sum j => sum + row j * row j) 0
    let scale := 1 / F.sqrt (sumSq / h + eps)
    Loop.storeRange (i * h) h (fun j => row j * scale * weight.cell j) out) fun _ => 0
  return .ofCells [s, h] out

def siluMul (gate up : Nn.Tensor K) : Except Error (Nn.Tensor K) := do
  if gate.shape ≠ up.shape then
    throw (.invalidArgument "silu_mul: gate and up shapes must match")
  let out := Loop.mapRange gate.numel (fun i _ =>
    let x := gate.cell i
    x / (1 + F.exp (-x)) * up.cell i) fun _ => 0
  return .ofCells gate.shape out

def embedding (weight : Nn.Tensor K) (ids : List Int) : Except Error (Nn.Tensor K) := do
  if weight.ndim ≠ 2 then
    throw (.invalidArgument "embedding: weight must be 2D")
  let vocab := weight.dim 0
  let h := weight.dim 1
  let s := ids.length
  let out ← (List.range s).foldlM (fun (out : Nat → K) i => do
    let id := ids.getD i 0
    if id < 0 ∨ (vocab : Int) ≤ id then
      throw (.outOfRange "embedding: token id out of range")
    return Loop.storeRange (i * h) h (fun j => weight.cell (id.toNat * h + j)) out) fun _ => 0
  return .ofCells [s, h] out

def ropeInplace (x : Nn.Tensor K) (nHeads headDim : Nat) (theta : K) (positions : List Nat) :
    Except Error (Nn.Tensor K) := do
  if x.ndim ≠ 2 ∨ x.dim 1 ≠ nHeads * headDim then
    throw (.invalidArgument "rope: x must be [S, n_heads*head_dim]")
  let s := x.dim 0
  if positions.length ≠ s then
    throw (.invalidArgument "rope: positions size must match sequence length")
  let half := headDim / 2
  let invFreq := (List.range half).map (Nn.invFreq F headDim theta)
  let cells := (List.range s).foldl (fun cells t =>
    let pos := positions.getD t 0
    (List.range nHeads).foldl (fun cells hh => (List.range half).foldl (fun cells i =>
      let head := t * nHeads * headDim + hh * headDim
      rotate F (pos * invFreq.getD i 0) (head + i) (head + i + half) cells) cells) cells) x.cell
  return .ofCells x.shape cells

/-- A tensor as the arguments of `attention` are read. -/
def view (t : Nn.Tensor K) : Tensor2 K := ⟨t.dim 0, t.dim 1, t.cell⟩

def attention (q k v : Nn.Tensor K) (nHeads nKvHeads headDim queryOffset : Nat) : Except Error (Nn.Tensor K) := do
  let out ← Nn.attention F.exp F.sqrt (view q) (view k) (view v) nHeads nKvHeads headDim queryOffset
  return .ofCells [out.rows, out.cols] out.data

def addInplace (x y : Nn.Tensor K) : Nn.Tensor K :=
  .ofCells x.shape (Loop.mapRange x.numel (fun i a => a + y.cell i) x.cell)

/-! ### Row by row -/

section Rows

variable {F} {x y weight : Nn.Tensor K} {rows rows' : Rows K}

theorem rmsNorm_rows {width : Nat} (hx : x.HasRows width rows) (hweight : weight.shape = [width]) (eps : K) :
    ∃ out, rmsNorm F x weight eps = .ok out ∧ out.HasRows width (rows.map fun row => rmsNormRow F row weight eps) := by
  have hnumel : weight.numel = width := by
    rw [Nn.Tensor.numel, hweight]
    simp [Dims.numel]
  rw [rmsNorm, if_neg (not_not_intro hx.ndim)]
  simp only [hx.dim_zero, hx.dim_one]
  rw [if_neg (not_not_intro hnumel)]
  refine ⟨_, rfl, Nn.Tensor.hasRows_ofCells ?_⟩
  nth_rewrite 3 [← hx.readRows_eq]
  apply readRows_map
  intro r hr
  rw [Nn.rmsNormRow_readRow]
  apply List.map_congr_left
  intro e he
  exact Loop.foldl_storeRange _ hr (List.mem_range.mp he) _

omit [LinearOrder K] in
theorem linear_rows {inDim outDim : Nat} (hx : x.HasRows inDim rows) (hweight : weight.shape = [outDim, inDim])
    {bias : Option (Nn.Tensor K)} (hbias : ∀ b ∈ bias, b.shape = [outDim]) :
    ∃ out, Nn.linear x weight (bias.getD .empty) = .ok out ∧
      out.HasRows outDim (rows.map fun row => linearRow row weight bias) := by
  have hmap : rows.map (fun row => linearRow row weight bias) = (List.range rows.length).map fun r =>
      linearRow (readRow inDim x.cell r) weight bias := by
    nth_rewrite 1 [← hx.readRows_eq]
    rw [readRows, List.map_map]
    rfl
  have hndim : ¬(x.ndim ≠ 2 ∨ weight.ndim ≠ 2) :=
    not_or.mpr ⟨not_not_intro hx.ndim, not_not_intro (Nn.Tensor.ndim_of_shape hweight)⟩
  have hinner : ¬weight.dim 1 ≠ inDim := not_not_intro (Nn.Tensor.dim_one_of_shape hweight)
  rw [hmap, Nn.linear, if_neg hndim]
  simp only [hx.dim_zero, hx.dim_one, Nn.Tensor.dim_zero_of_shape hweight]
  rw [if_neg hinner]
  simp only [Nn.linearRow_readRow hweight]
  cases bias with
  | none =>
    refine ⟨_, rfl, ?_⟩
    simp only [Option.elim_none, add_zero]
    exact Nn.Tensor.hasRows_matrix _ _ _
  | some bias =>
    have hnumel := Nn.Tensor.numel_of_shape (hbias bias rfl)
    simp only [Option.getD_some, Option.elim_some]
    by_cases hempty : 0 < bias.numel
    · rw [if_pos hempty, if_neg (not_not_intro hnumel)]
      simp only [hempty, if_true]
      refine ⟨_, congrArg Except.ok (Nn.Tensor.matrix_congr ?_), Nn.Tensor.hasRows_matrix _ _ _⟩
      intro r hr o ho
      rw [Nn.Tensor.cell_matrix hr ho]
    · rw [if_neg hempty]
      simp only [hempty, if_false, add_zero]
      exact ⟨_, rfl, Nn.Tensor.hasRows_matrix _ _ _⟩

theorem siluMul_rows {width : Nat} (hx : x.HasRows width rows) (hy : y.HasRows width rows')
    (hlen : rows'.length = rows.length) :
    ∃ out, siluMul F x y = .ok out ∧ out.HasRows width (List.zipWith (List.zipWith (Nn.siluMul F)) rows rows') := by
  have hshape : x.shape = y.shape := by rw [hx.shape, hy.shape, hlen]
  have hyRows : readRows width rows.length y.cell = rows' := hlen ▸ hy.readRows_eq
  rw [siluMul, if_neg (not_not_intro hshape), hx.numel, hx.shape]
  refine ⟨_, rfl, Nn.Tensor.hasRows_ofCells ?_⟩
  refine Eq.trans ?_ (congrArg₂ (List.zipWith (List.zipWith (Nn.siluMul F))) hx.readRows_eq hyRows)
  apply readRows_zipWith
  intro r hr e he
  exact Loop.mapRange_of_lt (Loop.lt_work hr he) _ _

omit [LinearOrder K] in
theorem addInplace_rows {width : Nat} (hx : x.HasRows width rows) (hy : y.HasRows width rows')
    (hlen : rows'.length = rows.length) :
    (addInplace x y).HasRows width (List.zipWith (List.zipWith (· + ·)) rows rows') := by
  have hyRows : readRows width rows.length y.cell = rows' := hlen ▸ hy.readRows_eq
  rw [addInplace, hx.numel, hx.shape]
  apply Nn.Tensor.hasRows_ofCells
  refine Eq.trans ?_ (congrArg₂ (List.zipWith (List.zipWith (· + ·))) hx.readRows_eq hyRows)
  apply readRows_zipWith
  intro r hr e he
  exact Loop.mapRange_of_lt (Loop.lt_work hr he) _ _

omit [LinearOrder K] in
theorem embedding_rows {vocab width : Nat} (hweight : weight.shape = [vocab, width]) {ids : List Int}
    (hids : ∀ id ∈ ids, 0 ≤ id ∧ id < vocab) :
    ∃ out, embedding weight ids = .ok out ∧
      out.HasRows width (ids.map fun id => readRow width weight.cell id.toNat) := by
  rw [embedding, if_neg (not_not_intro (Nn.Tensor.ndim_of_shape hweight))]
  simp only [Nn.Tensor.dim_zero_of_shape hweight, Nn.Tensor.dim_one_of_shape hweight]
  have hloop : (List.range ids.length).foldlM (fun (out : Nat → K) i => (do
      let id := ids.getD i 0
      if id < 0 ∨ (vocab : Int) ≤ id then
        throw (.outOfRange "embedding: token id out of range")
      return Loop.storeRange (i * width) width (fun j => weight.cell (id.toNat * width + j)) out :
      Except Error (Nat → K))) (fun _ => 0) =
      .ok ((List.range ids.length).foldl (fun out i => Loop.storeRange (i * width) width
        (fun j => weight.cell ((ids.getD i 0).toNat * width + j)) out) fun _ => 0) := by
    apply Exec.foldlM_ok
    intro i hi out
    have hi := List.mem_range.mp hi
    have hmem : ids.getD i 0 ∈ ids := by
      rw [List.getD_eq_getElem _ _ hi]
      exact List.getElem_mem hi
    have hid := hids _ hmem
    exact if_neg (by omega)
  rw [hloop, ok_bind]
  refine ⟨_, rfl, Nn.Tensor.hasRows_ofCells ?_⟩
  apply List.ext_getElem
  · rw [length_readRows, List.length_map]
  · intro r hr hr'
    rw [length_readRows] at hr
    simp only [readRows, List.getElem_map, List.getElem_range]
    apply List.map_congr_left
    intro e he
    rw [Loop.foldl_storeRange _ hr (List.mem_range.mp he), List.getD_eq_getElem _ _ hr]

/-- The three loops rotate the pairs in the order of their numbers. -/
theorem ropeInplace_loops (s nHeads headDim : Nat) (theta : K) (pos : Nat → Nat) (cells : Nat → K) :
    (List.range s).foldl (fun cells t =>
      (List.range nHeads).foldl (fun cells hh => (List.range (headDim / 2)).foldl (fun cells i =>
        rotate F (pos t * ((List.range (headDim / 2)).map (Nn.invFreq F headDim theta)).getD i 0)
          (t * nHeads * headDim + hh * headDim + i) (t * nHeads * headDim + hh * headDim + i + headDim / 2) cells)
        cells) cells) cells =
      Kernel.launch (Nn.ropePair F s nHeads headDim theta pos) (List.range (s * (nHeads * (headDim / 2)))) cells := by
  simp only [Loop.foldl_range_mul]
  apply List.foldl_ext
  intro cells idx hidx
  have hidx := List.mem_range.mp hidx
  have hper : 0 < nHeads * (headDim / 2) := Nat.pos_of_mul_pos_left (Nat.zero_lt_of_lt hidx)
  have hi : idx % (nHeads * (headDim / 2)) % (headDim / 2) < headDim / 2 :=
    Nat.mod_lt _ (Nat.pos_of_mul_pos_left hper)
  rw [Nn.ropePair, if_neg (not_le.mpr hidx), List.getD_eq_getElem _ _ (by simpa using hi), List.getElem_map,
    List.getElem_range]
  rfl

theorem ropeInplace_rows {nHeads headDim : Nat} (hx : x.HasRows (nHeads * headDim) rows) (theta : K)
    {positions : List Nat} (hlen : positions.length = rows.length) :
    ∃ out, ropeInplace F x nHeads headDim theta positions = .ok out ∧
      out.HasRows (nHeads * headDim)
        (List.zipWith (fun p row => ropeRow F nHeads headDim theta p row) positions rows) := by
  have hshape : ¬(x.ndim ≠ 2 ∨ x.dim 1 ≠ nHeads * headDim) :=
    not_or.mpr ⟨not_not_intro hx.ndim, not_not_intro hx.dim_one⟩
  rw [ropeInplace, if_neg hshape]
  simp only [hx.dim_zero]
  rw [if_neg (not_not_intro hlen), ropeInplace_loops, hx.shape]
  refine ⟨_, rfl, Nn.Tensor.hasRows_ofCells ?_⟩
  rw [← hlen, Nn.readRows_ropePair F nHeads headDim theta positions List.nodup_range
    (fun idx hidx => List.mem_range.mpr hidx), hlen, hx.readRows_eq]

theorem attention_rows {nHeads nKvHeads headDim queryOffset : Nat} {q k v : Nn.Tensor K} {qRows kRows vRows : Rows K}
    (hq : q.HasRows (nHeads * headDim) qRows) (hk : k.HasRows (nKvHeads * headDim) kRows)
    (hv : v.HasRows (nKvHeads * headDim) vRows) (hlen : vRows.length = kRows.length) (hpos : 0 < nKvHeads)
    (hdvd : nKvHeads ∣ nHeads) (htotal : queryOffset + qRows.length ≤ kRows.length) :
    ∃ out, attention F q k v nHeads nKvHeads headDim queryOffset = .ok out ∧
      out.HasRows (nHeads * headDim) (qRows.mapIdx fun i row => attentionRow F nHeads nKvHeads headDim row
        (kRows.take (queryOffset + i + 1)) (vRows.take (queryOffset + i + 1))) := by
  have htotal' : queryOffset + (view q).rows ≤ (view k).rows := by
    rwa [view, view, hq.dim_zero, hk.dim_zero]
  have hvk : v.dim 0 = k.dim 0 := hv.dim_zero.trans (hlen.trans hk.dim_zero.symm)
  have hqRows : readRows (nHeads * headDim) (view q).rows (view q).data = qRows := hq.readRows_dim
  have hkRows : readRows (nKvHeads * headDim) (view k).rows (view k).data = kRows := hk.readRows_dim
  have hvRows : readRows (nKvHeads * headDim) (view k).rows (view v).data = vRows := by
    rw [view, view, ← hvk, hv.readRows_dim]
  obtain ⟨out, hout, hcells⟩ := Nn.attention_eq_ok F.toExponential F.sqrt (q := view q) (k := view k) (v := view v)
    hq.dim_one hvk hk.dim_one hv.dim_one hpos hdvd htotal'
  have hrows := Nn.readRows_attention hpos hdvd htotal' hcells
  rw [hqRows, hkRows, hvRows] at hrows
  rw [attention, hout, ok_bind]
  exact ⟨_, rfl, Nn.Tensor.hasRows_ofCells hrows⟩

end Rows

end Host

end InferenceEngine
