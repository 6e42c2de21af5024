import InferenceEngine.Basic
import InferenceEngine.Library.Loop
import Mathlib.Algebra.BigOperators.Group.List.Basic
import Mathlib.Algebra.BigOperators.Ring.Finset
import Mathlib.Data.List.GetD

/-!
# Tensors of exact numbers

A tensor is a shape and as many numbers as the shape has, in row-major order. A tensor of two dimensions is
determined by its entries, and `linear` is a sum over the entries of two rows.
-/

namespace InferenceEngine

/-- The dimensions of a tensor. Its buffer has as many elements as their product. -/
abbrev Dims := List Nat

def Dims.numel (t : Dims) : Nat := if t = [] then 0 else t.prod

theorem Dims.numel_matrix (rows cols : Nat) : Dims.numel [rows, cols] = rows * cols := by simp [Dims.numel]

namespace Nn

/-- `Tensor`, over numbers of type `K`. -/
@[ext] structure Tensor (K : Type) where
  shape : Dims
  data : List K
  size_eq : data.length = shape.numel
  deriving DecidableEq

namespace Tensor

variable {K : Type}

def empty : Tensor K := ⟨[], [], rfl⟩

/-- A tensor that owns the first cells of a buffer. -/
def ofCells (shape : Dims) (cells : Nat → K) : Tensor K :=
  ⟨shape, (List.range shape.numel).map cells, by rw [List.length_map, List.length_range]⟩

def ndim (t : Tensor K) : Nat := t.shape.length

/-- `dim`, where there is one. -/
def dim (t : Tensor K) (i : Nat) : Nat := t.shape.getD i 0

def numel (t : Tensor K) : Nat := t.shape.numel

/-- The cell behind `data() + i`. -/
def cell [Zero K] (t : Tensor K) (i : Nat) : K := t.data.getD i 0

def matrix (rows cols : Nat) (entry : Nat → Nat → K) : Tensor K :=
  ofCells [rows, cols] fun i => entry (i / cols) (i % cols)

@[simp] theorem ndim_matrix (rows cols : Nat) (entry : Nat → Nat → K) : (matrix rows cols entry).ndim = 2 := rfl

@[simp] theorem dim_matrix_zero (rows cols : Nat) (entry : Nat → Nat → K) :
    (matrix rows cols entry).dim 0 = rows := rfl

@[simp] theorem dim_matrix_one (rows cols : Nat) (entry : Nat → Nat → K) :
    (matrix rows cols entry).dim 1 = cols := rfl

theorem ndim_of_shape {t : Tensor K} {rows cols : Nat} (h : t.shape = [rows, cols]) : t.ndim = 2 := by
  rw [ndim, h]
  rfl

theorem dim_zero_of_shape {t : Tensor K} {rows : Nat} {dims : Dims} (h : t.shape = rows :: dims) : t.dim 0 = rows := by
  rw [dim, h, List.getD_cons_zero]

theorem dim_one_of_shape {t : Tensor K} {rows cols : Nat} (h : t.shape = [rows, cols]) : t.dim 1 = cols := by
  rw [dim, h, List.getD_cons_succ, List.getD_cons_zero]

theorem numel_of_shape {t : Tensor K} {n : Nat} (h : t.shape = [n]) : t.numel = n := by
  rw [numel, h]
  simp [Dims.numel]

@[simp] theorem numel_empty : (empty : Tensor K).numel = 0 := rfl

theorem ofCells_congr {shape : Dims} {cells cells' : Nat → K} (h : ∀ i < shape.numel, cells i = cells' i) :
    ofCells shape cells = ofCells shape cells' := by
  apply Tensor.ext
  · rfl
  · exact List.map_congr_left fun i hi => h i (List.mem_range.mp hi)

theorem matrix_congr {rows cols : Nat} {entry entry' : Nat → Nat → K}
    (h : ∀ r < rows, ∀ c < cols, entry r c = entry' r c) : matrix rows cols entry = matrix rows cols entry' := by
  apply ofCells_congr
  intro i hi
  rw [Dims.numel_matrix] at hi
  apply h
  · exact Nat.div_lt_of_lt_mul (by rwa [Nat.mul_comm])
  · exact Nat.mod_lt i (Nat.pos_of_mul_pos_left (Nat.zero_lt_of_lt hi))

theorem ofCells_eq_matrix {rows cols : Nat} {cells : Nat → K} {entry : Nat → Nat → K}
    (h : ∀ r < rows, ∀ c < cols, cells (r * cols + c) = entry r c) :
    ofCells [rows, cols] cells = matrix rows cols entry := by
  apply ofCells_congr
  intro i hi
  rw [Dims.numel_matrix] at hi
  have hcols : 0 < cols := Nat.pos_of_mul_pos_left (Nat.zero_lt_of_lt hi)
  rw [← h _ (Nat.div_lt_of_lt_mul (by rwa [Nat.mul_comm])) _ (Nat.mod_lt i hcols), Nat.div_add_mod']

variable [Zero K]

theorem cell_ofCells {shape : Dims} {cells : Nat → K} {i : Nat} (hi : i < shape.numel) :
    (ofCells shape cells).cell i = cells i := by
  rw [cell, ofCells, List.getD_eq_getElem _ _ (by simpa using hi)]
  simp

@[simp] theorem cell_matrix {rows cols r c : Nat} (hr : r < rows) (hc : c < cols) (entry : Nat → Nat → K) :
    (matrix rows cols entry).cell (r * cols + c) = entry r c := by
  rw [matrix, cell_ofCells (by rw [Dims.numel_matrix]; exact Loop.lt_work hr hc), Loop.index_div hc, Loop.index_mod hc]

theorem ofCells_cell (t : Tensor K) : ofCells t.shape t.cell = t := by
  apply Tensor.ext
  · rfl
  · apply List.ext_getElem
    · rw [t.size_eq]
      exact (List.length_map _).trans List.length_range
    · intro i _ hi
      simp only [ofCells, List.getElem_map, List.getElem_range]
      exact List.getD_eq_getElem _ _ hi

theorem eq_matrix {t : Tensor K} {rows cols : Nat} (h : t.shape = [rows, cols]) :
    t = matrix rows cols fun r c => t.cell (r * cols + c) := by
  calc t = ofCells [rows, cols] t.cell := by rw [← h, t.ofCells_cell]
    _ = _ := ofCells_eq_matrix fun _ _ _ _ => rfl

end Tensor

/-! ### The linear layer -/

variable {K : Type} [CommRing K]

/-- `linear`. A missing bias is the empty tensor. -/
def linear (x weight bias : Tensor K) : Except Error (Tensor K) := do
  if x.ndim ≠ 2 ∨ weight.ndim ≠ 2 then
    throw (.invalidArgument "linear: x and weight must be 2D")
  let s := x.dim 0
  let width := x.dim 1
  let out := weight.dim 0
  if weight.dim 1 ≠ width then
    throw (.invalidArgument "linear: weight inner dimension does not match x")
  let y := Tensor.matrix s out fun r o =>
    (List.range width).foldl (fun sum j => sum + x.cell (r * width + j) * weight.cell (o * width + j)) 0
  if 0 < bias.numel then
    if bias.numel ≠ out then
      throw (.invalidArgument "linear: bias size does not match output")
    return Tensor.matrix s out fun r o => y.cell (r * out + o) + bias.cell o
  return y

theorem linear_matrix (s width out : Nat) (f g : Nat → Nat → K) :
    linear (Tensor.matrix s width f) (Tensor.matrix out width g) Tensor.empty =
      .ok (Tensor.matrix s out fun r o => ∑ j ∈ Finset.range width, f r j * g o j) := by
  have hentries : (Tensor.matrix s out fun r o => (List.range width).foldl (fun sum j =>
      sum + (Tensor.matrix s width f).cell (r * width + j) * (Tensor.matrix out width g).cell (o * width + j)) 0) =
      Tensor.matrix s out fun r o => ∑ j ∈ Finset.range width, f r j * g o j := by
    apply Tensor.matrix_congr
    intro r hr o ho
    rw [Loop.foldl_add]
    apply Finset.sum_congr rfl
    intro j hj
    rw [Tensor.cell_matrix hr (Finset.mem_range.mp hj), Tensor.cell_matrix ho (Finset.mem_range.mp hj)]
  simp [linear, hentries, pure, Except.pure]

end Nn

end InferenceEngine
