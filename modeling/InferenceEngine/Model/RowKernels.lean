import InferenceEngine.Model.Attention
import InferenceEngine.Model.Buffers
import InferenceEngine.Model.Nn
import InferenceEngine.Model.Tensor

/-!
# The float kernels, row by row

What the loops of `nn.cpp` do with one row, in exact arithmetic. The functions of `cmath` are parameters, and of
`exp` it is known that it is positive and turns sums into products.
-/

namespace InferenceEngine

/-- The functions of `cmath` that the forward pass calls. -/
structure MathFunctions (K : Type) [Field K] [LinearOrder K] extends Softmax.Exponential K where
  sqrt : K → K
  cos : K → K
  sin : K → K
  pow : K → K → K

namespace Nn

variable {K : Type} [Field K] [LinearOrder K] (F : MathFunctions K)

omit [LinearOrder K] in
def linearRow (row : Row K) (weight : Tensor K) (bias : Option (Tensor K)) : Row K :=
  let width := weight.dim 1
  (List.range (weight.dim 0)).map fun o =>
    let y := (List.range width).foldl (fun sum j => sum + row.getD j 0 * weight.cell (o * width + j)) 0
    match bias with
    | some bias => if 0 < bias.numel then y + bias.cell o else y
    | none => y

def rmsNormRow (row : Row K) (weight : Tensor K) (eps : K) : Row K :=
  let h := row.length
  let sumSq := (List.range h).foldl (fun sum j => sum + row.getD j 0 * row.getD j 0) 0
  let scale := 1 / F.sqrt (sumSq / h + eps)
  (List.range h).map fun j => row.getD j 0 * scale * weight.cell j

def siluMul (x u : K) : K := x / (1 + F.exp (-x)) * u

def rotate (angle : K) (i j : Nat) (cells : Nat → K) : Nat → K :=
  let c := F.cos angle
  let sn := F.sin angle
  let x1 := cells i
  let x2 := cells j
  Function.update (Function.update cells i (x1 * c - x2 * sn)) j (x2 * c + x1 * sn)

def invFreq (headDim : Nat) (theta : K) (i : Nat) : K := F.pow theta (-2 * i / headDim)

def ropeAngle (headDim : Nat) (theta : K) (position i : Nat) : K := position * invFreq F headDim theta i

def ropeRow (nHeads headDim : Nat) (theta : K) (position : Nat) (row : Row K) : Row K :=
  let half := headDim / 2
  let cells := (List.range nHeads).foldl (fun cells hh => (List.range half).foldl (fun cells i =>
    rotate F (ropeAngle F headDim theta position i) (hh * headDim + i) (hh * headDim + i + half) cells) cells)
    fun e => row.getD e 0
  (List.range (nHeads * headDim)).map cells

/-- `attention` for one query that looks at all keys and values. -/
def attentionRow (nHeads nKvHeads headDim : Nat) (row : Row K) (k v : Rows K) : Row K :=
  let q : Tensor2 K := ⟨1, nHeads * headDim, pointerTo [row]⟩
  let kAll : Tensor2 K := ⟨k.length, nKvHeads * headDim, pointerTo k⟩
  let vAll : Tensor2 K := ⟨v.length, nKvHeads * headDim, pointerTo v⟩
  match attention F.exp F.sqrt q kAll vAll nHeads nKvHeads headDim (k.length - 1) with
  | .ok out => readRow (nHeads * headDim) out.data 0
  | .error _ => []

/-- The kernels of `nn.cpp` over tensors. Nothing is quantised. -/
def kernels : Kernels (Tensor K) Empty K where
  linear := linearRow
  linearInt8 _ weight _ := weight.elim
  rmsNorm := rmsNormRow F
  siluMul := List.zipWith (siluMul F)
  rope := ropeRow F
  attention := attentionRow F
  add := List.zipWith (· + ·)
  vocab weight := weight.dim 0
  embeddingRow weight id := readRow (weight.dim 1) weight.cell id

/-! ### Rows of a buffer -/

omit [LinearOrder K] in
theorem linearRow_readRow {inDim outDim : Nat} {weight : Tensor K} (hweight : weight.shape = [outDim, inDim])
    (bias : Option (Tensor K)) (x : Nat → K) (r : Nat) :
    linearRow (readRow inDim x r) weight bias = (List.range outDim).map fun o =>
      (List.range inDim).foldl (fun sum j => sum + x (r * inDim + j) * weight.cell (o * inDim + j)) 0 +
        bias.elim 0 fun bias => if 0 < bias.numel then bias.cell o else 0 := by
  rw [linearRow, Tensor.dim_zero_of_shape hweight, Tensor.dim_one_of_shape hweight]
  apply List.map_congr_left
  intro o _
  have hsum : (List.range inDim).foldl
      (fun sum j => sum + (readRow inDim x r).getD j 0 * weight.cell (o * inDim + j)) 0 =
      (List.range inDim).foldl (fun sum j => sum + x (r * inDim + j) * weight.cell (o * inDim + j)) 0 := by
    apply List.foldl_ext
    intro sum j hj
    rw [getD_readRow (List.mem_range.mp hj)]
  rw [hsum]
  cases bias with
  | none => exact (add_zero _).symm
  | some bias =>
    simp only [Option.elim_some]
    split
    · rfl
    · exact (add_zero _).symm

theorem rmsNormRow_readRow (width : Nat) (x : Nat → K) (r : Nat) (weight : Tensor K) (eps : K) :
    rmsNormRow F (readRow width x r) weight eps = (List.range width).map fun j =>
      x (r * width + j) * (1 / F.sqrt ((List.range width).foldl
        (fun sum j => sum + x (r * width + j) * x (r * width + j)) 0 / width + eps)) * weight.cell j := by
  have hsum : (List.range width).foldl
      (fun sum j => sum + (readRow width x r).getD j 0 * (readRow width x r).getD j 0) 0 =
      (List.range width).foldl (fun sum j => sum + x (r * width + j) * x (r * width + j)) 0 := by
    apply List.foldl_ext
    intro sum j hj
    rw [getD_readRow (List.mem_range.mp hj)]
  rw [rmsNormRow]
  simp only [length_readRow, hsum]
  apply List.map_congr_left
  intro j hj
  rw [getD_readRow (List.mem_range.mp hj)]

/-! ### Attention, row by row -/

variable {F}

/-- The softmax average of a query does not look beyond its own rows. -/
theorem headValue_congr (E : Softmax.Exponential K) (scale : K) {q q' k k' v v' : Nat → K}
    {nHeads nKvHeads headDim queryOffset queryOffset' h i i' d : Nat}
    (hq : ∀ e < headDim, q (i * nHeads * headDim + h * headDim + e) = q' (i' * nHeads * headDim + h * headDim + e))
    (hkv : ∀ j < queryOffset + i + 1, ∀ e < headDim,
      k (j * nKvHeads * headDim + h / (nHeads / nKvHeads) * headDim + e) =
          k' (j * nKvHeads * headDim + h / (nHeads / nKvHeads) * headDim + e) ∧
        v (j * nKvHeads * headDim + h / (nHeads / nKvHeads) * headDim + e) =
          v' (j * nKvHeads * headDim + h / (nHeads / nKvHeads) * headDim + e))
    (hlast : queryOffset + i = queryOffset' + i') (hd : d < headDim) :
    headValue E scale q k v nHeads nKvHeads headDim queryOffset h i d =
      headValue E scale q' k' v' nHeads nKvHeads headDim queryOffset' h i' d := by
  rw [headValue, headValue, ← hlast]
  apply Softmax.average_congr
  · intro j hj
    rw [headScore, headScore, score, score]
    congr 1
    apply List.foldl_ext
    intro dot e he
    have he := List.mem_range.mp he
    rw [hq e he, (hkv j hj e he).1]
  · intro j hj
    exact (hkv j hj d hd).2

theorem attentionRow_eq {nHeads nKvHeads n : Nat} (hpos : 0 < nKvHeads) (hdvd : nKvHeads ∣ nHeads) (headDim : Nat)
    (row : Row K) {k v : Rows K} (hk : k.length = n + 1) (hv : v.length = n + 1) :
    (attentionRow F nHeads nKvHeads headDim row k v).length = nHeads * headDim ∧
      ∀ h < nHeads, ∀ d < headDim, (attentionRow F nHeads nKvHeads headDim row k v).getD (h * headDim + d) 0 =
        headValue F.toExponential (1 / F.sqrt headDim) (pointerTo [row]) (pointerTo k) (pointerTo v)
          nHeads nKvHeads headDim n h 0 d := by
  have htotal : k.length - 1 + 1 ≤ k.length := by omega
  obtain ⟨out, hout, hcells⟩ := attention_eq_ok F.toExponential F.sqrt (q := ⟨1, nHeads * headDim, pointerTo [row]⟩)
    (k := ⟨k.length, nKvHeads * headDim, pointerTo k⟩) (v := ⟨v.length, nKvHeads * headDim, pointerTo v⟩)
    rfl (hv.trans hk.symm) rfl rfl hpos hdvd htotal
  rw [attentionRow]
  simp only [hout]
  constructor
  · exact length_readRow _ _ _
  · intro h hh d hd
    have hcell := hcells h hh 0 Nat.one_pos d hd
    rw [Nat.zero_mul, Nat.zero_mul, Nat.zero_add] at hcell
    rw [getD_readRow (Loop.lt_work hh hd), Nat.zero_mul, Nat.zero_add, hcell, hk, Nat.add_sub_cancel]

/-- **Rows after attention**: an output whose cells are the softmax averages holds the attention of every query. -/
theorem readRows_attention {nHeads nKvHeads headDim : Nat} (hpos : 0 < nKvHeads) (hdvd : nKvHeads ∣ nHeads)
    {q k v out : Nat → K} {queryOffset n total : Nat} (htotal : queryOffset + n ≤ total)
    (hcells : ∀ h < nHeads, ∀ i < n, ∀ d < headDim, out (i * nHeads * headDim + h * headDim + d) =
      headValue F.toExponential (1 / F.sqrt headDim) q k v nHeads nKvHeads headDim queryOffset h i d) :
    readRows (nHeads * headDim) n out = (readRows (nHeads * headDim) n q).mapIdx fun i row =>
      attentionRow F nHeads nKvHeads headDim row
        ((readRows (nKvHeads * headDim) total k).take (queryOffset + i + 1))
        ((readRows (nKvHeads * headDim) total v).take (queryOffset + i + 1)) := by
  apply List.ext_getElem
  · rw [length_readRows, List.length_mapIdx, length_readRows]
  · intro i hi _
    rw [length_readRows] at hi
    have hle : queryOffset + i + 1 ≤ total := by omega
    simp only [List.getElem_mapIdx, take_readRows hle]
    simp only [readRows, List.getElem_map, List.getElem_range]
    have hrow := attentionRow_eq (F := F) hpos hdvd headDim (n := queryOffset + i)
      (readRow (nHeads * headDim) q i) (length_readRows (nKvHeads * headDim) (queryOffset + i + 1) k)
      (length_readRows (nKvHeads * headDim) (queryOffset + i + 1) v)
    apply readRow_of_getD hrow.1
    intro e he
    have hdim : 0 < headDim := Nat.pos_of_mul_pos_left (Nat.zero_lt_of_lt he)
    have hh : e / headDim < nHeads := (Nat.div_lt_iff_lt_mul hdim).mpr he
    have hd : e % headDim < headDim := Nat.mod_lt e hdim
    have hgroup : 0 < nHeads / nKvHeads := Nat.div_pos (Nat.le_of_dvd (Nat.zero_lt_of_lt hh) hdvd) hpos
    have hkvh : e / headDim / (nHeads / nKvHeads) < nKvHeads := by
      rw [Nat.div_lt_iff_lt_mul hgroup, Nat.mul_div_cancel' hdvd]
      exact hh
    have hcell := hcells (e / headDim) hh i hi (e % headDim) hd
    rw [Nat.mul_assoc, Nat.add_assoc, Nat.div_add_mod'] at hcell
    have hhost := hrow.2 (e / headDim) hh (e % headDim) hd
    rw [Nat.div_add_mod'] at hhost
    rw [hcell]
    refine Eq.trans ?_ hhost.symm
    apply headValue_congr F.toExponential _ _ _ (Nat.add_zero _).symm hd
    · intro d hd
      have hwidth : ∀ row ∈ [readRow (nHeads * headDim) q i], row.length = nHeads * headDim := by simp
      have hquery := pointerTo_row hwidth Nat.one_pos (Loop.lt_work hh hd)
      rw [Nat.zero_mul, Nat.zero_add] at hquery
      rw [Nat.zero_mul, Nat.zero_mul, Nat.zero_add, hquery, List.getD_cons_zero, getD_readRow (Loop.lt_work hh hd),
        Nat.mul_assoc, Nat.add_assoc]
    · intro j hj d hd
      have hcolumn := Loop.lt_work hkvh hd
      rw [Nat.mul_assoc, Nat.add_assoc]
      exact ⟨(pointerTo_readRows hj hcolumn k).symm, (pointerTo_readRows hj hcolumn v).symm⟩

end Nn

end InferenceEngine
