import InferenceEngine.Cuda.Device

/-!
# The device kernels, row by row

A buffer is read as rows of a fixed width. What a launch leaves, read that way, is what the row kernels of the host
make of the rows that went in.
-/

namespace InferenceEngine

open Nn (linearRow rmsNormRow ropeRow attentionRow)

namespace CudaKernels

variable {K : Type} [Field K] [LinearOrder K] (F : MathFunctions K) (launch : Launch K)

omit [LinearOrder K] in
theorem rows_embedding (weight : Nn.Tensor K) (ids : List Int) (out : Nat → K) (hidden : Nat) :
    readRows hidden ids.length
        (embedding launch weight.cell (fun i => (ids.getD i 0).toNat) out ids.length hidden) =
      ids.map fun id => readRow hidden weight.cell id.toNat := by
  rw [embedding_eq]
  apply List.ext_getElem
  · rw [length_readRows, List.length_map]
  · intro r hr _
    rw [length_readRows] at hr
    simp only [readRows, List.getElem_map, List.getElem_range]
    apply readRow_of_getD (length_readRow _ _ _)
    intro e he
    rw [Loop.mapRange_of_lt (Loop.lt_work hr he), Loop.index_div he, Loop.index_mod he, getD_readRow he,
      List.getD_eq_getElem _ _ hr]

omit [LinearOrder K] in
theorem rows_addInplace (x y : Nat → K) (n width : Nat) :
    readRows width n (addInplace launch x y (n * width)) =
      List.zipWith (List.zipWith (· + ·)) (readRows width n x) (readRows width n y) := by
  rw [addInplace_eq]
  apply readRows_zipWith
  intro r hr e he
  exact Loop.mapRange_of_lt (Loop.lt_work hr he) _ _

theorem rows_siluMul (gate up out : Nat → K) (n width : Nat) :
    readRows width n (siluMul F launch gate up out (n * width)) =
      List.zipWith (List.zipWith (Nn.siluMul F)) (readRows width n gate) (readRows width n up) := by
  rw [siluMul_eq]
  apply readRows_zipWith
  intro r hr e he
  exact Loop.mapRange_of_lt (Loop.lt_work hr he) _ _

theorem rows_rmsNorm (x out : Nat → K) (weight : Nn.Tensor K) (n dim : Nat) (eps : K) :
    readRows dim n (rmsNorm F launch x weight.cell out n dim eps) =
      (readRows dim n x).map fun row => rmsNormRow F row weight eps := by
  apply readRows_map
  intro r hr
  rw [Nn.rmsNormRow_readRow, Loop.foldl_add]
  apply List.map_congr_left
  intro j hj
  rw [rmsNorm_apply F launch x weight.cell out eps hr (List.mem_range.mp hj)]
  rfl

omit [LinearOrder K] in
theorem rows_linear (blas : Blas K) (x y : Nat → K) {weight : Nn.Tensor K} {inDim outDim : Nat}
    (hweight : weight.shape = [outDim, inDim]) (hin : 0 < inDim) (bias : Option (Nn.Tensor K)) (n : Nat) :
    readRows outDim n (linear blas launch x weight.cell (bias.bind pointer) y n inDim outDim) =
      (readRows inDim n x).map fun row => linearRow row weight bias := by
  apply readRows_map
  intro r hr
  rw [Nn.linearRow_readRow hweight]
  apply List.map_congr_left
  intro o ho
  rw [linear_apply blas launch x weight.cell _ y hin hr (List.mem_range.mp ho), Loop.foldl_add]
  cases bias with
  | none => rfl
  | some bias =>
    by_cases hempty : bias.numel = 0
    · simp [pointer, hempty]
    · simp [pointer, hempty, Nat.pos_of_ne_zero hempty]

omit [LinearOrder K] in
theorem rows_linear_none (blas : Blas K) (x y : Nat → K) {weight : Nn.Tensor K} {inDim outDim : Nat}
    (hweight : weight.shape = [outDim, inDim]) (hin : 0 < inDim) (n : Nat) :
    readRows outDim n (linear blas launch x weight.cell none y n inDim outDim) =
      (readRows inDim n x).map fun row => linearRow row weight none :=
  rows_linear launch blas x y hweight hin none n

theorem ropeThread_eq (rows nHeads headDim : Nat) (theta : K) (pos : Nat → Nat) :
    ropeThread F rows nHeads headDim theta pos = Nn.ropePair F rows nHeads headDim theta pos := rfl

theorem rows_rope (x : Nat → K) (nHeads headDim : Nat) (theta : K) (positions : List Nat) :
    readRows (nHeads * headDim) positions.length
        (rope F launch x positions.length nHeads headDim theta fun t => positions.getD t 0) =
      List.zipWith (fun p row => ropeRow F nHeads headDim theta p row) positions
        (readRows (nHeads * headDim) positions.length x) := by
  rw [rope]
  split
  · next hempty =>
    -- no thread is launched, and there is no pair
    have hzero : positions.length * (nHeads * (headDim / 2)) = 0 := by
      rcases hempty with h | h | h <;> simp [h]
    apply Nn.readRows_ropePair F nHeads headDim theta positions List.nodup_nil
    intro idx hidx
    omega
  · rw [ropeThread_eq]
    apply Nn.readRows_ropePair F nHeads headDim theta positions (order_nodup _ _)
    intro idx hidx
    exact mem_order launch (by rwa [Nat.mul_assoc])

theorem rows_attention {nHeads nKvHeads headDim : Nat} (hpos : 0 < nKvHeads) (hdvd : nKvHeads ∣ nHeads)
    (hmax : headDim ≤ 256) (q k v out : Nat → K) (queryOffset n : Nat) :
    ∃ device, attention F.exp F.sqrt launch.order q k v out n (queryOffset + n) nHeads nKvHeads headDim queryOffset =
        .ok device ∧
      readRows (nHeads * headDim) n device = (readRows (nHeads * headDim) n q).mapIdx fun i row =>
        attentionRow F nHeads nKvHeads headDim row
          ((readRows (nKvHeads * headDim) (queryOffset + n) k).take (queryOffset + i + 1))
          ((readRows (nKvHeads * headDim) (queryOffset + n) v).take (queryOffset + i + 1)) := by
  obtain ⟨device, hdevice, hcells⟩ := attention_eq_ok F.toExponential F.sqrt launch.grid 0 q k v out nHeads nKvHeads
    queryOffset hmax (Nat.le_add_left n queryOffset)
  exact ⟨device, hdevice, Nn.readRows_attention hpos hdvd le_rfl hcells⟩

end CudaKernels

end InferenceEngine
