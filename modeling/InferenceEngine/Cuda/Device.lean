import InferenceEngine.Cuda.Attention
import InferenceEngine.Cuda.PagedPool
import InferenceEngine.Library.Reduction
import InferenceEngine.Model.Rotation

/-!
# The device kernels of a forward pass

The kernels of `device.cu` on flat buffers, one action per thread, in whatever order the threads act. Read row by
row, what a launch leaves is what the loops of the host leave in every row.
-/

namespace InferenceEngine

open Nn (rotate ropeAngle)

/-- How a launch goes: the order of its threads, or of its blocks, the order of the threads of a block between two
barriers, and what the shared memory of a block holds before. -/
structure Launch (K : Type) where
  grid : Kernel.Schedule
  block : Nat → Kernel.Schedule
  shared : Nat → Nat → K

def Launch.order {K : Type} (launch : Launch K) (threads : Nat) : List Nat := launch.grid.order 0 threads

/-- Entry `p` of row `i` of a column-major operand. -/
def gemmEntry {K : Type} (transposed : Bool) (a : Nat → K) (lda i p : Nat) : K :=
  if transposed then a (i * lda + p) else a (p * lda + i)

/-- `cublasSgemm`. With leading dimensions that fit, the entries of the output are those of the product that the
arguments denote; the columns of the second operand are the rows of its transpose. -/
structure Blas (K : Type) [CommRing K] where
  sgemm : (transA transB : Bool) → (m n k : Nat) → (alpha : K) → (a : Nat → K) → (lda : Nat) → (b : Nat → K) →
    (ldb : Nat) → (beta : K) → (c : Nat → K) → (ldc : Nat) → Nat → K
  product : ∀ transA transB m n k alpha a lda b ldb beta c ldc, (if transA then k else m) ≤ lda →
    (if transB then n else k) ≤ ldb → m ≤ ldc → ∀ i < m, ∀ j < n,
    sgemm transA transB m n k alpha a lda b ldb beta c ldc (j * ldc + i) =
      alpha * (∑ p ∈ Finset.range k, gemmEntry transA a lda i p * gemmEntry (!transB) b ldb j p) +
        beta * c (j * ldc + i)

def Blas.reference (K : Type) [CommRing K] : Blas K where
  sgemm transA transB m n k alpha a lda b ldb beta c ldc idx :=
    let i := idx % ldc
    let j := idx / ldc
    if i < m ∧ j < n then
      alpha * (∑ p ∈ Finset.range k, gemmEntry transA a lda i p * gemmEntry (!transB) b ldb j p) + beta * c idx
    else c idx
  product transA transB m n k alpha a lda b ldb beta c ldc _ _ hldc i hi j hj := by
    have hi' : i < ldc := hi.trans_le hldc
    simp only [Loop.index_mod hi', Loop.index_div hi', hi, hj, and_self, if_true]

namespace CudaKernels

variable {K : Type}

def embeddingThread (weight : Nat → K) (ids : Nat → Nat) (nIds hidden idx : Nat) (out : Nat → K) : Nat → K :=
  if nIds * hidden ≤ idx then out
  else
    let row := idx / hidden
    let col := idx % hidden
    Function.update out idx (weight (ids row * hidden + col))

def embedding (launch : Launch K) (weight : Nat → K) (ids : Nat → Nat) (out : Nat → K) (nIds hidden : Nat) : Nat → K :=
  if nIds = 0 ∨ hidden = 0 then out
  else Kernel.launch (embeddingThread weight ids nIds hidden) (launch.order (threadsFor (nIds * hidden))) out

def addInplaceThread [Add K] (y : Nat → K) (n i : Nat) (x : Nat → K) : Nat → K :=
  if i < n then Function.update x i (x i + y i) else x

def addInplace [Add K] (launch : Launch K) (x y : Nat → K) (n : Nat) : Nat → K :=
  if n = 0 then x else Kernel.launch (addInplaceThread y n) (launch.order (threadsFor n)) x

def addBiasThread [Add K] (bias : Nat → K) (rows outDim idx : Nat) (y : Nat → K) : Nat → K :=
  if idx < rows * outDim then Function.update y idx (y idx + bias (idx % outDim)) else y

section Field

variable [Field K] [LinearOrder K] (F : MathFunctions K)

def siluMulThread (gate up : Nat → K) (n i : Nat) (out : Nat → K) : Nat → K :=
  if i < n then
    let x := gate i
    Function.update out i (x / (1 + F.exp (-x)) * up i)
  else out

def siluMul (launch : Launch K) (gate up out : Nat → K) (n : Nat) : Nat → K :=
  if n = 0 then out else Kernel.launch (siluMulThread F gate up n) (launch.order (threadsFor n)) out

def ropeThread (rows nHeads headDim : Nat) (theta : K) (pos : Nat → Nat) (idx : Nat) (x : Nat → K) : Nat → K :=
  let half := headDim / 2
  let perRow := nHeads * half
  if rows * perRow ≤ idx then x
  else
    let t := idx / perRow
    let rem := idx % perRow
    let hh := rem / half
    let i := rem % half
    let head := t * nHeads * headDim + hh * headDim
    rotate F (ropeAngle F headDim theta (pos t) i) (head + i) (head + i + half) x

def rope (launch : Launch K) (x : Nat → K) (rows nHeads headDim : Nat) (theta : K) (positions : Nat → Nat) : Nat → K :=
  if rows = 0 ∨ nHeads = 0 ∨ headDim = 0 then x
  else
    let work := rows * nHeads * (headDim / 2)
    Kernel.launch (ropeThread F rows nHeads headDim theta positions) (launch.order (threadsFor work)) x

/-- The sum of squares of a thread of `rms_norm_kernel`. -/
def normPartial (xr : Nat → K) (dim threads t : Nat) : K :=
  (Kernel.strided threads dim t).foldl (fun sum j => sum + xr j * xr j) 0

def normThread (xr weight : Nat → K) (scale : K) (row dim threads t : Nat) (out : Nat → K) : Nat → K :=
  (Kernel.strided threads dim t).foldl
    (fun out j => Function.update out (row * dim + j) (xr j * scale * weight j)) out

def normBlock (sched : Kernel.Schedule) (x weight : Nat → K) (dim : Nat) (eps : K) (threads : Nat) (shared : Nat → K)
    (row : Nat) (out : Nat → K) : Nat → K :=
  let xr := fun j => x (row * dim + j)
  let shared := Kernel.launch (fun t shared => Function.update shared t (normPartial xr dim threads t))
    (sched.order 0 threads) shared
  let shared := Kernel.reduceBlock (· + ·) sched threads 1 shared
  let scale := 1 / F.sqrt (shared 0 / dim + eps)
  Kernel.launch (normThread xr weight scale row dim threads) (sched.order (threads + 1) threads) out

def rmsNorm (launch : Launch K) (x weight out : Nat → K) (rows dim : Nat) (eps : K) : Nat → K :=
  if rows = 0 ∨ dim = 0 then out
  else Kernel.launch
    (fun row out => normBlock F (launch.block row) x weight dim eps 256 (launch.shared row) row out)
    (launch.order rows) out

/-- `upload`: the buffer of a tensor, and a null pointer for an empty one. -/
def pointer (weight : Nn.Tensor K) : Option (Nat → K) := if weight.numel = 0 then none else some weight.cell

def linear (blas : Blas K) (launch : Launch K) (x weight : Nat → K) (bias : Option (Nat → K)) (y : Nat → K)
    (rows inDim outDim : Nat) : Nat → K :=
  if rows = 0 ∨ inDim = 0 ∨ outDim = 0 then y
  else
    let y := blas.sgemm true false outDim rows inDim 1 weight inDim x inDim 0 y outDim
    match bias with
    | some bias => Kernel.launch (addBiasThread bias rows outDim) (launch.order (threadsFor (rows * outDim))) y
    | none => y

end Field

/-! ### The kernels of one thread per number -/

theorem order_nodup (launch : Launch K) (threads : Nat) : (launch.order threads).Nodup :=
  launch.grid.nodup 0 threads

theorem mem_order (launch : Launch K) {work i : Nat} (hi : i < work) : i ∈ launch.order (threadsFor work) :=
  launch.grid.mem_order.mpr (hi.trans_le (le_threadsFor work))

theorem embedding_eq (launch : Launch K) (weight : Nat → K) (ids : Nat → Nat) (out : Nat → K) (nIds hidden : Nat) :
    embedding launch weight ids out nIds hidden =
      Loop.mapRange (nIds * hidden) (fun idx _ => weight (ids (idx / hidden) * hidden + idx % hidden)) out := by
  have hthread : embeddingThread weight ids nIds hidden = fun idx out => if idx < nIds * hidden then
      Function.update out idx (weight (ids (idx / hidden) * hidden + idx % hidden)) else out := by
    funext idx out
    rw [embeddingThread]
    split
    · next hle => rw [if_neg (not_lt.mpr hle)]
    · next hlt => rw [if_pos (not_le.mp hlt)]
  rw [embedding]
  split
  · next hempty =>
    have hzero : nIds * hidden = 0 := Nat.mul_eq_zero.mpr hempty
    rw [hzero]
    rfl
  · rw [hthread]
    exact Kernel.launch_mapRange _ (fun idx _ => weight (ids (idx / hidden) * hidden + idx % hidden))
      (order_nodup _ _) (fun i hi => mem_order launch hi) out

theorem addInplace_eq [Add K] (launch : Launch K) (x y : Nat → K) (n : Nat) :
    addInplace launch x y n = Loop.mapRange n (fun i a => a + y i) x := by
  rw [addInplace]
  split
  · next hempty =>
    rw [hempty]
    rfl
  · exact Kernel.launch_mapRange n (fun i a => a + y i) (order_nodup _ _) (fun i hi => mem_order launch hi) x

theorem launch_addBias [Add K] (launch : Launch K) (bias y : Nat → K) (rows outDim : Nat) :
    Kernel.launch (addBiasThread bias rows outDim) (launch.order (threadsFor (rows * outDim))) y =
      Loop.mapRange (rows * outDim) (fun idx a => a + bias (idx % outDim)) y :=
  Kernel.launch_mapRange _ (fun idx a => a + bias (idx % outDim)) (order_nodup _ _)
    (fun _ hi => mem_order launch hi) y

section Field

variable [Field K] [LinearOrder K] (F : MathFunctions K)

theorem siluMul_eq (launch : Launch K) (gate up out : Nat → K) (n : Nat) :
    siluMul F launch gate up out n = Loop.mapRange n (fun i _ => Nn.siluMul F (gate i) (up i)) out := by
  rw [siluMul]
  split
  · next hempty =>
    rw [hempty]
    rfl
  · exact Kernel.launch_mapRange n (fun i _ => Nn.siluMul F (gate i) (up i)) (order_nodup _ _)
      (fun i hi => mem_order launch hi) out

omit [LinearOrder K] in
theorem linear_apply (blas : Blas K) (launch : Launch K) (x weight : Nat → K) (bias : Option (Nat → K))
    (y : Nat → K) {rows inDim outDim r o : Nat} (hin : 0 < inDim) (hr : r < rows) (ho : o < outDim) :
    linear blas launch x weight bias y rows inDim outDim (r * outDim + o) =
      ∑ j ∈ Finset.range inDim, x (r * inDim + j) * weight (o * inDim + j) + (bias.elim 0 fun bias => bias o) := by
  have hproduct : blas.sgemm true false outDim rows inDim 1 weight inDim x inDim 0 y outDim (r * outDim + o) =
      ∑ j ∈ Finset.range inDim, x (r * inDim + j) * weight (o * inDim + j) := by
    rw [blas.product true false outDim rows inDim 1 weight inDim x inDim 0 y outDim le_rfl le_rfl le_rfl o ho r hr,
      one_mul, zero_mul, add_zero]
    apply Finset.sum_congr rfl
    intro j _
    exact mul_comm _ _
  rw [linear, if_neg (by omega)]
  cases bias with
  | none => exact hproduct.trans (add_zero _).symm
  | some bias =>
    change Kernel.launch (addBiasThread bias rows outDim) _ _ _ = _
    rw [launch_addBias, Loop.mapRange_of_lt (Loop.lt_work hr ho), hproduct, Loop.index_mod ho]
    rfl

/-! ### The norm -/

def normScale (xr : Nat → K) (dim : Nat) (eps : K) : K :=
  1 / F.sqrt ((∑ j ∈ Finset.range dim, xr j * xr j) / dim + eps)

omit [LinearOrder K] in
theorem reduce_normPartial (sched : Kernel.Schedule) (xr : Nat → K) (dim k : Nat) (shared : Nat → K) :
    Kernel.reduceBlock (· + ·) sched (2 ^ k) 1
        (Kernel.launch (fun t shared => Function.update shared t (normPartial xr dim (2 ^ k) t))
          (sched.order 0 (2 ^ k)) shared) 0 =
      ∑ j ∈ Finset.range dim, xr j * xr j := by
  have hpos : 0 < 2 ^ k := Nat.two_pow_pos k
  have hpartial : ∀ t, normPartial xr dim (2 ^ k) t =
      ((Kernel.strided (2 ^ k) dim t).map fun j => xr j * xr j).sum := by
    intro t
    rw [normPartial, List.sum_eq_foldl, List.foldl_map]
  rw [Kernel.reduceBlock_zero, Kernel.combine_add, Nat.sub_add_cancel hpos,
    ← Kernel.sum_strided hpos (fun j => xr j * xr j) dim]
  apply Finset.sum_congr rfl
  intro t ht
  rw [Kernel.launch_update sched (Finset.mem_range.mp ht), hpartial]

omit [LinearOrder K] in
/-- The threads of a block write their parts of the row, whatever the order. -/
theorem launch_normThread (sched : Kernel.Schedule) (round : Nat) (xr weight : Nat → K) (scale : K)
    (row dim : Nat) {threads : Nat} (hthreads : 0 < threads) (out : Nat → K) :
    Kernel.launch (normThread xr weight scale row dim threads) (sched.order round threads) out =
      Loop.storeRange (row * dim) dim (fun j => xr j * scale * weight j) out := by
  have hthread : ∀ t out c, normThread xr weight scale row dim threads t out c =
      if row * dim ≤ c ∧ c - row * dim ∈ Kernel.strided threads dim t then
        xr (c - row * dim) * scale * weight (c - row * dim) else out c := by
    intro t out c
    exact Loop.foldl_update (row * dim) (fun j => xr j * scale * weight j) _ out c
  funext c
  unfold Loop.storeRange
  split
  · next hc =>
    have hdim : c - row * dim < dim := by omega
    have hmod := Nat.mod_lt (c - row * dim) hthreads
    have hmem := (Kernel.mem_strided hmod).mpr ⟨hdim, rfl⟩
    apply Kernel.launch_value (sched.mem_order.mpr hmod)
    · intro out
      rw [hthread, if_pos ⟨hc.1, hmem⟩]
    · intro t _ out
      rw [hthread]
      split
      · exact Or.inl rfl
      · exact Or.inr rfl
  · next hc =>
    apply Kernel.launch_frame
    intro t ht out
    rw [hthread, if_neg]
    intro ⟨hle, hmem⟩
    have hdim := ((Kernel.mem_strided (sched.mem_order.mp ht)).mp hmem).1
    exact hc ⟨hle, by omega⟩

theorem normBlock_eq (sched : Kernel.Schedule) (x weight : Nat → K) (dim : Nat) (eps : K) (k : Nat)
    (shared : Nat → K) (row : Nat) (out : Nat → K) :
    normBlock F sched x weight dim eps (2 ^ k) shared row out =
      Loop.storeRange (row * dim) dim (fun j => x (row * dim + j) *
        normScale F (fun j => x (row * dim + j)) dim eps * weight j) out := by
  rw [normBlock]
  simp only [reduce_normPartial]
  exact launch_normThread sched _ _ _ _ _ _ (Nat.two_pow_pos k) out

theorem rmsNorm_apply (launch : Launch K) (x weight out : Nat → K) {rows dim : Nat} (eps : K) {r j : Nat}
    (hr : r < rows) (hj : j < dim) :
    rmsNorm F launch x weight out rows dim eps (r * dim + j) =
      x (r * dim + j) * normScale F (fun j => x (r * dim + j)) dim eps * weight j := by
  rw [rmsNorm, if_neg (by omega)]
  have hblock : ∀ row out, normBlock F (launch.block row) x weight dim eps 256 (launch.shared row) row out =
      Loop.storeRange (row * dim) dim (fun j => x (row * dim + j) *
        normScale F (fun j => x (row * dim + j)) dim eps * weight j) out :=
    fun row out => normBlock_eq F _ x weight dim eps 8 _ row out
  apply Kernel.launch_value (launch.grid.mem_order.mpr hr)
  · intro out
    rw [hblock, Loop.storeRange_apply hj]
  · intro row _ out
    rw [hblock]
    by_cases hrow : row = r
    · rw [hrow, Loop.storeRange_apply hj]
      exact Or.inl rfl
    · apply Or.inr
      apply if_neg
      intro ⟨hle, hlt⟩
      obtain ⟨e, he⟩ := Nat.exists_eq_add_of_le hle
      exact hrow (Loop.row_inj (by omega) hj he.symm).1

end Field

end CudaKernels

end InferenceEngine
