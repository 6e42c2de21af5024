import InferenceEngine.Model.Tensor
import InferenceEngine.Library.Rounding
import Mathlib.Algebra.Order.BigOperators.Group.Finset
import Mathlib.Data.Rat.Floor

/-!
# Row-wise quantisation

A row of a weight becomes bytes and one scale, and the scale maps the largest entry of the row to 127. Every entry
is the nearest point of the row's grid, so the clamp has nothing to do, and an output of the quantised layer is as far
off as its inputs and half a scale allow.
-/

namespace InferenceEngine

open Nn (linear)
open Rounding (lround lround_grid abs_lround_le abs_grid_sub_le)

namespace Quant

/-- `QuantizedMatrix`, with the sizes its two vectors are given. -/
@[ext] structure QuantizedMatrix (K : Type) where
  data : List Int8
  scales : List K
  rows : Nat
  cols : Nat
  data_size : data.length = rows * cols
  scales_size : scales.length = rows
  deriving DecidableEq

namespace QuantizedMatrix

variable {K : Type}

/-- The value behind `data.data() + i`. -/
def cell (q : QuantizedMatrix K) (i : Nat) : Int := (q.data.getD i 0).toInt

/-- `scales[o]`. -/
def scale [Zero K] (q : QuantizedMatrix K) (o : Nat) : K := q.scales.getD o 0

/-- The matrix that two loops over its rows and columns fill in. -/
def ofRows (rows cols : Nat) (scale : Nat → K) (value : Nat → Nat → Int8) : QuantizedMatrix K where
  data := (List.range (rows * cols)).map fun i => value (i / cols) (i % cols)
  scales := (List.range rows).map scale
  rows := rows
  cols := cols
  data_size := by rw [List.length_map, List.length_range]
  scales_size := by rw [List.length_map, List.length_range]

theorem ofRows_congr {rows cols : Nat} {scale scale' : Nat → K} {value value' : Nat → Nat → Int8}
    (hscale : ∀ o < rows, scale o = scale' o) (hvalue : ∀ o < rows, ∀ i < cols, value o i = value' o i) :
    ofRows rows cols scale value = ofRows rows cols scale' value' := by
  apply QuantizedMatrix.ext
  · apply List.map_congr_left
    intro i hi
    have hlt := List.mem_range.mp hi
    apply hvalue
    · exact Nat.div_lt_of_lt_mul (by rwa [Nat.mul_comm])
    · exact Nat.mod_lt i (Nat.pos_of_mul_pos_left (Nat.zero_lt_of_lt hlt))
  · exact List.map_congr_left fun o ho => hscale o (List.mem_range.mp ho)
  · rfl
  · rfl

theorem cell_ofRows {rows cols o i : Nat} (ho : o < rows) (hi : i < cols) (scale : Nat → K)
    (value : Nat → Nat → Int8) : (ofRows rows cols scale value).cell (o * cols + i) = (value o i).toInt := by
  have hlt := Loop.lt_work ho hi
  rw [cell, ofRows, List.getD_eq_getElem _ _ (by simpa using hlt), List.getElem_map, List.getElem_range,
    Loop.index_div hi, Loop.index_mod hi]

theorem scale_ofRows [Zero K] {rows o : Nat} (ho : o < rows) (cols : Nat) (scale : Nat → K)
    (value : Nat → Nat → Int8) : (ofRows rows cols scale value).scale o = scale o := by
  rw [QuantizedMatrix.scale, ofRows, List.getD_eq_getElem _ _ (by simpa using ho), List.getElem_map, List.getElem_range]

end QuantizedMatrix

variable {K : Type} [Field K] [LinearOrder K] [FloorRing K]

/-! ### `quantize_rowwise_int8` -/

def rowAmax (row : Nat → K) (cols : Nat) : K := (List.range cols).foldl (fun amax i => max amax |row i|) 0

/-- `scales[o]` of a row with largest absolute value `amax`. -/
def scaleOf (amax : K) : K := if 0 < amax then amax / 127 else 1

/-- The cast to `int8_t`, behind the clamp. -/
def clampInt8 (r : Int) : Int8 := Int8.ofInt (if r > 127 then 127 else if r < -127 then -127 else r)

def quantizeRowwiseInt8 (weight : Nn.Tensor K) : Except Error (QuantizedMatrix K) := do
  if weight.ndim ≠ 2 then
    throw (.invalidArgument "quantize_rowwise_int8: weight must be 2D")
  let rows := weight.dim 0
  let cols := weight.dim 1
  let row (o i : Nat) := weight.cell (o * cols + i)
  let scale (o : Nat) := scaleOf (rowAmax (row o) cols)
  return QuantizedMatrix.ofRows rows cols scale fun o i =>
    let inv := 1 / scale o
    clampInt8 (lround (row o i * inv))

/-- `linear_int8`. A missing bias is the empty tensor. -/
def linearInt8 (x : Nn.Tensor K) (weight : QuantizedMatrix K) (bias : Nn.Tensor K) : Except Error (Nn.Tensor K) := do
  if x.ndim ≠ 2 then
    throw (.invalidArgument "linear_int8: x must be 2D")
  let s := x.dim 0
  let width := x.dim 1
  if width ≠ weight.cols then
    throw (.invalidArgument "linear_int8: inner dimension does not match weight")
  let out := weight.rows
  if 0 < bias.numel ∧ bias.numel ≠ out then
    throw (.invalidArgument "linear_int8: bias size does not match output")
  return Nn.Tensor.matrix s out fun r o =>
    let acc := (List.range width).foldl (fun acc i => acc + x.cell (r * width + i) * weight.cell (o * width + i)) 0
    let value := acc * weight.scale o
    if 0 < bias.numel then value + bias.cell o else value

/-- The weight that a quantised matrix stands for. -/
def dequantize (q : QuantizedMatrix K) : Nn.Tensor K :=
  Nn.Tensor.matrix q.rows q.cols fun o i => q.cell (o * q.cols + i) * q.scale o

/-! ### One row -/

/-- The largest absolute value of a row, and zero of an empty one. -/
structure IsAmax (row : Nat → K) (cols : Nat) (amax : K) : Prop where
  bound : ∀ i < cols, |row i| ≤ amax
  attained : amax = 0 ∨ ∃ i < cols, |row i| = amax

section

omit [FloorRing K]

variable [IsStrictOrderedRing K] {row : Nat → K} {cols : Nat} {amax amax' : K}

theorem IsAmax.nonneg (h : IsAmax row cols amax) : 0 ≤ amax := by
  rcases h.attained with h | ⟨i, _, h⟩
  · exact h.ge
  · exact h ▸ abs_nonneg (row i)

theorem IsAmax.le (h : IsAmax row cols amax) (h' : IsAmax row cols amax') : amax ≤ amax' := by
  rcases h.attained with h | ⟨i, hi, h⟩
  · exact h ▸ h'.nonneg
  · exact h ▸ h'.bound i hi

theorem IsAmax.unique (h : IsAmax row cols amax) (h' : IsAmax row cols amax') : amax = amax' :=
  le_antisymm (h.le h') (h'.le h)

omit [IsStrictOrderedRing K] in
theorem IsAmax.congr {row' : Nat → K} (h : IsAmax row cols amax) (hrow : ∀ i < cols, row i = row' i) :
    IsAmax row' cols amax where
  bound i hi := hrow i hi ▸ h.bound i hi
  attained := h.attained.imp_right fun ⟨i, hi, heq⟩ => ⟨i, hi, hrow i hi ▸ heq⟩

omit [IsStrictOrderedRing K] in
theorem rowAmax_isAmax (row : Nat → K) (cols : Nat) : IsAmax row cols (rowAmax row cols) := by
  apply Loop.foldl_range (I := fun k amax => IsAmax row k amax)
  · constructor
    · intro i hi
      exact absurd hi (Nat.not_lt_zero i)
    · exact Or.inl rfl
  · intro k _ amax h
    constructor
    · intro i hi
      rcases Nat.lt_succ_iff_lt_or_eq.mp hi with hi | rfl
      · exact (h.bound i hi).trans (le_max_left _ _)
      · exact le_max_right _ _
    · rcases le_total |row k| amax with hle | hle
      · rw [max_eq_left hle]
        exact h.attained.imp_right fun ⟨i, hi, heq⟩ => ⟨i, Nat.lt_succ_of_lt hi, heq⟩
      · rw [max_eq_right hle]
        exact Or.inr ⟨k, Nat.lt_succ_self k, rfl⟩

theorem scaleOf_pos (amax : K) : 0 < scaleOf amax := by
  unfold scaleOf
  split
  · next hpos => exact div_pos hpos (by norm_num)
  · exact one_pos

theorem abs_scaled_le {v : K} (hv : |v| ≤ amax) : |v * (1 / scaleOf amax)| ≤ ((127 : Int) : K) := by
  have hpos := scaleOf_pos amax
  rw [abs_mul, abs_of_pos (one_div_pos.mpr hpos), mul_one_div, div_le_iff₀ hpos]
  unfold scaleOf
  split
  · rw [Int.cast_ofNat, mul_div_cancel₀ amax (by norm_num)]
    exact hv
  · next hzero => exact (hv.trans (not_lt.mp hzero)).trans (by norm_num)

end

variable [IsStrictOrderedRing K] {row : Nat → K} {cols : Nat} {amax : K}

/-- What an entry is rounded to is within the clamp. -/
theorem abs_lround_scaled_le {v : K} (hv : |v| ≤ amax) : |lround (v * (1 / scaleOf amax))| ≤ 127 :=
  abs_lround_le (abs_scaled_le hv)

/-- The largest entry is mapped to 127 or to its negative, and back to itself. -/
theorem abs_grid_amax {v : K} (hv : |v| = amax) :
    |(lround (v * (1 / scaleOf amax)) : K) * scaleOf amax| = amax := by
  by_cases hpos : 0 < amax
  · have hscale : scaleOf amax = amax / 127 := if_pos hpos
    have hmul : (127 : K) * scaleOf amax = amax := by rw [hscale, mul_div_cancel₀ amax (by norm_num)]
    obtain ⟨n, hn, habs⟩ : ∃ n : Int, v = n * scaleOf amax ∧ |n| = 127 := by
      rcases abs_choice v with h | h
      · exact ⟨127, by rw [Int.cast_ofNat, hmul, ← hv, h], rfl⟩
      · exact ⟨-127, by rw [Int.cast_neg, neg_mul, Int.cast_ofNat, hmul, ← hv, h, neg_neg], rfl⟩
    rw [hn, lround_grid (scaleOf_pos amax), abs_mul, abs_of_pos (scaleOf_pos amax), ← Int.cast_abs, habs]
    exact_mod_cast hmul
  · have hzero : amax = 0 := le_antisymm (not_lt.mp hpos) (hv ▸ abs_nonneg v)
    have hv0 : v = 0 := abs_eq_zero.mp (hv.trans hzero)
    have hround : lround (0 : K) = 0 := by exact_mod_cast Rounding.lround_intCast (K := K) 0
    rw [hv0, zero_mul, hround, Int.cast_zero, zero_mul, abs_zero, hzero]

theorem abs_grid_le {v : K} (hamax : 0 ≤ amax) (hv : |v| ≤ amax) :
    |(lround (v * (1 / scaleOf amax)) : K) * scaleOf amax| ≤ amax := by
  rcases hamax.eq_or_lt with rfl | hpos
  · exact (abs_grid_amax (le_antisymm hv (abs_nonneg v))).le
  · have hscale : scaleOf amax = amax / 127 := if_pos hpos
    have hround : |(lround (v * (1 / scaleOf amax)) : K)| ≤ 127 := by exact_mod_cast abs_lround_scaled_le hv
    calc _ = |(lround (v * (1 / scaleOf amax)) : K)| * scaleOf amax := by rw [abs_mul, abs_of_pos (scaleOf_pos amax)]
      _ ≤ 127 * scaleOf amax := mul_le_mul_of_nonneg_right hround (scaleOf_pos amax).le
      _ = amax := by rw [hscale, mul_div_cancel₀ amax (by norm_num)]

theorem IsAmax.grid (h : IsAmax row cols amax) :
    IsAmax (fun i => (lround (row i * (1 / scaleOf amax)) : K) * scaleOf amax) cols amax where
  bound i hi := abs_grid_le h.nonneg (h.bound i hi)
  attained := h.attained.imp_right fun ⟨i, hi, heq⟩ => ⟨i, hi, abs_grid_amax heq⟩

theorem clampInt8_toInt {r : Int} (hr : |r| ≤ 127) : (clampInt8 r).toInt = r := by
  obtain ⟨hlow, hhigh⟩ := abs_le.mp hr
  rw [clampInt8, if_neg (by omega), if_neg (by omega), Int8.toInt_ofInt]
  apply Int.bmod_eq_of_le
  · change -(256 / 2) ≤ r
    omega
  · change r < (256 + 1) / 2
    omega

/-! ### The quantised weight -/

theorem quantized_toInt (row : Nat → K) {cols i : Nat} (hi : i < cols) :
    (clampInt8 (lround (row i * (1 / scaleOf (rowAmax row cols))))).toInt =
      lround (row i * (1 / scaleOf (rowAmax row cols))) :=
  clampInt8_toInt (abs_lround_scaled_le ((rowAmax_isAmax row cols).bound i hi))

omit [IsStrictOrderedRing K] in
theorem quantizeRowwiseInt8_matrix (rows cols : Nat) (f : Nat → Nat → K) :
    quantizeRowwiseInt8 (Nn.Tensor.matrix rows cols f) =
      .ok (QuantizedMatrix.ofRows rows cols (fun o => scaleOf (rowAmax (f o) cols)) fun o i =>
        clampInt8 (lround (f o i * (1 / scaleOf (rowAmax (f o) cols))))) := by
  have hamax : ∀ o < rows, rowAmax (fun i => (Nn.Tensor.matrix rows cols f).cell (o * cols + i)) cols =
      rowAmax (f o) cols := by
    intro o ho
    apply List.foldl_ext
    intro amax i hi
    exact congrArg (fun v => max amax |v|) (Nn.Tensor.cell_matrix ho (List.mem_range.mp hi) f)
  rw [quantizeRowwiseInt8]
  simp only [Nn.Tensor.ndim_matrix, Nn.Tensor.dim_matrix_zero, Nn.Tensor.dim_matrix_one, ne_eq, not_true_eq_false,
    if_false]
  apply congrArg Except.ok
  apply QuantizedMatrix.ofRows_congr
  · intro o ho
    rw [hamax o ho]
  · intro o ho i hi
    rw [hamax o ho, Nn.Tensor.cell_matrix ho hi]

omit [LinearOrder K] [FloorRing K] [IsStrictOrderedRing K] in
theorem dequantize_ofRows (rows cols : Nat) (scale : Nat → K) (value : Nat → Nat → Int8) :
    dequantize (QuantizedMatrix.ofRows rows cols scale value) =
      Nn.Tensor.matrix rows cols fun o i => (value o i).toInt * scale o := by
  apply Nn.Tensor.matrix_congr
  intro o (ho : o < rows) i (hi : i < cols)
  change ((QuantizedMatrix.ofRows rows cols scale value).cell (o * cols + i) : K) * _ = _
  rw [QuantizedMatrix.cell_ofRows ho hi, QuantizedMatrix.scale_ofRows ho]

/-- A quantised matrix is found again from the weight it stands for. -/
theorem quantizeRowwiseInt8_dequantize {rows cols : Nat} {f : Nat → Nat → K} {q : QuantizedMatrix K}
    (h : quantizeRowwiseInt8 (Nn.Tensor.matrix rows cols f) = .ok q) : quantizeRowwiseInt8 (dequantize q) = .ok q := by
  rw [quantizeRowwiseInt8_matrix] at h
  obtain rfl := Except.ok.inj h
  rw [dequantize_ofRows, quantizeRowwiseInt8_matrix]
  have hamax : ∀ o, rowAmax (fun i => ((clampInt8 (lround (f o i *
      (1 / scaleOf (rowAmax (f o) cols))))).toInt : K) * scaleOf (rowAmax (f o) cols)) cols =
      rowAmax (f o) cols := by
    intro o
    apply (rowAmax_isAmax _ cols).unique
    apply (rowAmax_isAmax (f o) cols).grid.congr
    intro i hi
    rw [quantized_toInt (f o) hi]
  apply congrArg Except.ok
  apply QuantizedMatrix.ofRows_congr
  · intro o _
    rw [hamax o]
  · intro o _ i hi
    rw [hamax o, quantized_toInt (f o) hi, lround_grid (scaleOf_pos _)]

/-! ### The two layers -/

/-- Both layers throw, or both return `rows` rows of `cols` entries, and two entries are within a bound. -/
def Within (rows cols : Nat) (bound : Nat → Nat → K) :
    Except Error (Nn.Tensor K) → Except Error (Nn.Tensor K) → Prop
  | .ok y, .ok z => y.shape = [rows, cols] ∧ z.shape = [rows, cols] ∧
    ∀ r < rows, ∀ o < cols, |y.cell (r * cols + o) - z.cell (r * cols + o)| ≤ bound r o
  | .error _, .error _ => True
  | _, _ => False

omit [FloorRing K] in
theorem abs_deferred_le {n : Nat} {x v f : Nat → K} {scale bound : K} (h : ∀ i < n, |v i * scale - f i| ≤ bound) :
    |(∑ i ∈ Finset.range n, x i * v i) * scale - ∑ i ∈ Finset.range n, x i * f i| ≤
      bound * ∑ i ∈ Finset.range n, |x i| := by
  have hsum : (∑ i ∈ Finset.range n, x i * v i) * scale - ∑ i ∈ Finset.range n, x i * f i =
      ∑ i ∈ Finset.range n, x i * (v i * scale - f i) := by
    rw [Finset.sum_mul, ← Finset.sum_sub_distrib]
    apply Finset.sum_congr rfl
    intro i _
    rw [mul_sub, mul_assoc]
  rw [hsum, Finset.mul_sum]
  apply (Finset.abs_sum_le_sum_abs _ _).trans
  apply Finset.sum_le_sum
  intro i hi
  rw [abs_mul, mul_comm bound]
  exact mul_le_mul_of_nonneg_left (h i (Finset.mem_range.mp hi)) (abs_nonneg (x i))

omit [FloorRing K] [IsStrictOrderedRing K] in
theorem within_matrix {rows cols : Nat} {f g bound : Nat → Nat → K}
    (h : ∀ r < rows, ∀ o < cols, |f r o - g r o| ≤ bound r o) :
    Within rows cols bound (.ok (Nn.Tensor.matrix rows cols f)) (.ok (Nn.Tensor.matrix rows cols g)) := by
  refine ⟨rfl, rfl, ?_⟩
  intro r hr o ho
  rw [Nn.Tensor.cell_matrix hr ho, Nn.Tensor.cell_matrix hr ho]
  exact h r hr o ho

omit [FloorRing K] in
/-- A matrix of bytes and scales close to a weight is used like the weight. -/
theorem linearInt8_within {q : QuantizedMatrix K} {f : Nat → Nat → K} {bound : Nat → K}
    (h : ∀ o < q.rows, ∀ i < q.cols, |q.cell (o * q.cols + i) * q.scale o - f o i| ≤ bound o)
    (x bias : Nn.Tensor K) :
    Within (x.dim 0) q.rows (fun r o => bound o * ∑ i ∈ Finset.range q.cols, |x.cell (r * q.cols + i)|)
      (linearInt8 x q bias) (linear x (Nn.Tensor.matrix q.rows q.cols f) bias) := by
  have hacc : ∀ r, ∀ o < q.rows,
      |(List.range q.cols).foldl (fun acc i => acc + x.cell (r * q.cols + i) * q.cell (o * q.cols + i)) 0 *
          q.scale o -
        (List.range q.cols).foldl (fun sum i => sum + x.cell (r * q.cols + i) *
          (Nn.Tensor.matrix q.rows q.cols f).cell (o * q.cols + i)) 0| ≤
      bound o * ∑ i ∈ Finset.range q.cols, |x.cell (r * q.cols + i)| := by
    intro r o ho
    rw [Loop.foldl_add, Loop.foldl_add]
    apply abs_deferred_le
    intro i hi
    rw [Nn.Tensor.cell_matrix ho hi]
    exact h o ho i hi
  rw [linearInt8, linear]
  by_cases hx : x.ndim = 2
  case neg => simp [hx, Within, throw, throwThe, MonadExceptOf.throw, bind, Except.bind]
  by_cases hwidth : x.dim 1 = q.cols
  case neg => simp [hx, hwidth, Ne.symm hwidth, Within, throw, throwThe, MonadExceptOf.throw, bind, Except.bind]
  by_cases hbias : 0 < bias.numel
  · by_cases hsize : bias.numel = q.rows
    · rw [hsize] at hbias
      simp only [hx, hwidth, hbias, hsize, Nn.Tensor.ndim_matrix, Nn.Tensor.dim_matrix_zero,
        Nn.Tensor.dim_matrix_one, ne_eq, not_true_eq_false, and_false, or_self, if_false, if_true]
      apply within_matrix
      intro r hr o ho
      rw [Nn.Tensor.cell_matrix hr ho, add_sub_add_right_eq_sub]
      exact hacc r o ho
    · simp [hx, hwidth, hbias, hsize, Within, throw, throwThe, MonadExceptOf.throw, bind, Except.bind]
  · simp only [hx, hwidth, hbias, Nn.Tensor.ndim_matrix, Nn.Tensor.dim_matrix_zero, Nn.Tensor.dim_matrix_one, ne_eq,
      not_true_eq_false, false_and, or_self, if_false]
    apply within_matrix
    intro r _ o ho
    exact hacc r o ho

/-- **Quantisation errors.** Every stored value is the rounded one without a clamp, and is within half a scale; a
quantised matrix is its own quantisation; and an output is off by at most half a scale times the sum of the inputs'
absolute values. -/
theorem quantization_bound (w : Nn.Tensor K) (hw : w.ndim = 2) :
    ∃ q, quantizeRowwiseInt8 w = .ok q ∧ q.rows = w.dim 0 ∧ q.cols = w.dim 1 ∧
      (∀ o < q.rows, ∀ i < q.cols,
        (-127 ≤ q.cell (o * q.cols + i) ∧ q.cell (o * q.cols + i) ≤ 127) ∧
        q.cell (o * q.cols + i) = lround (w.cell (o * q.cols + i) * (1 / q.scale o)) ∧
        |q.cell (o * q.cols + i) * q.scale o - w.cell (o * q.cols + i)| ≤ q.scale o / 2) ∧
      quantizeRowwiseInt8 (dequantize q) = .ok q ∧
      ∀ x bias, Within (x.dim 0) q.rows
        (fun r o => q.scale o / 2 * ∑ i ∈ Finset.range q.cols, |x.cell (r * q.cols + i)|)
        (linearInt8 x q bias) (linear x w bias) := by
  obtain ⟨rows, cols, hshape⟩ : ∃ rows cols, w.shape = [rows, cols] := List.length_eq_two.mp hw
  have hrows : w.dim 0 = rows := by rw [Nn.Tensor.dim, hshape, List.getD_cons_zero]
  have hcols : w.dim 1 = cols := by rw [Nn.Tensor.dim, hshape, List.getD_cons_succ, List.getD_cons_zero]
  let f (o i : Nat) := w.cell (o * cols + i)
  have hmatrix : w = Nn.Tensor.matrix rows cols f := Nn.Tensor.eq_matrix hshape
  let q := QuantizedMatrix.ofRows rows cols (fun o => scaleOf (rowAmax (f o) cols)) fun o i =>
    clampInt8 (lround (f o i * (1 / scaleOf (rowAmax (f o) cols))))
  have hq : quantizeRowwiseInt8 (Nn.Tensor.matrix rows cols f) = .ok q := quantizeRowwiseInt8_matrix rows cols f
  have hscale : ∀ o < rows, q.scale o = scaleOf (rowAmax (f o) cols) := fun o ho =>
    QuantizedMatrix.scale_ofRows ho cols _ _
  have hcell : ∀ o < rows, ∀ i < cols, q.cell (o * cols + i) = lround (f o i * (1 / q.scale o)) := by
    intro o ho i hi
    rw [hscale o ho, QuantizedMatrix.cell_ofRows ho hi, quantized_toInt (f o) hi]
  have herror : ∀ o < rows, ∀ i < cols, |q.cell (o * cols + i) * q.scale o - f o i| ≤ q.scale o / 2 := by
    intro o ho i hi
    rw [hcell o ho i hi, hscale o ho]
    exact abs_grid_sub_le (scaleOf_pos _) (f o i)
  refine ⟨q, hmatrix ▸ hq, hrows.symm, hcols.symm, ?_, quantizeRowwiseInt8_dequantize hq, ?_⟩
  · intro o ho i hi
    refine ⟨?_, hcell o ho i hi, herror o ho i hi⟩
    apply abs_le.mp
    change |q.cell (o * cols + i)| ≤ 127
    rw [hcell o ho i hi, hscale o ho]
    exact abs_lround_scaled_le ((rowAmax_isAmax (f o) cols).bound i hi)
  · intro x bias
    have hlinear := linearInt8_within (q := q) herror x bias
    rw [hmatrix]
    exact hlinear

theorem quantization_bound_tiny :
    let w : Nn.Tensor ℚ := Nn.Tensor.matrix 2 2 fun o i => o * (3 - 5 * i)
    (∃ q, quantizeRowwiseInt8 w = .ok q ∧ quantizeRowwiseInt8 (dequantize q) = .ok q) ∧
      ∃ q, quantizeRowwiseInt8 w = .ok q ∧ q.data = [0, 0, 127, -85] ∧ q.scales = [1, 3 / 127] := by
  intro w
  obtain ⟨q, hq, _, _, _, hstable, _⟩ := quantization_bound w rfl
  exact ⟨⟨q, hq, hstable⟩, ⟨[0, 0, 127, -85], [1, 3 / 127], 2, 2, rfl, rfl⟩, by decide +kernel⟩

end Quant

end InferenceEngine
