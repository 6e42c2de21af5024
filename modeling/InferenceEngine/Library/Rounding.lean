import Mathlib.Algebra.Order.Round
import Mathlib.Tactic.Linarith
import Mathlib.Tactic.Ring

/-!
# Rounding half away from zero

A number is rounded to the nearest integer, and to the nearest point of a grid of a given step. A point of the grid
is its own nearest point.
-/

namespace Rounding

variable {K : Type} [Field K] [LinearOrder K] [IsStrictOrderedRing K] [FloorRing K]

/-- The nearest integer. Between two of them it is the one farther from zero. -/
def lround (x : K) : Int := if 0 ≤ x then round x else -round (-x)

omit [IsStrictOrderedRing K] in
theorem lround_eq_or (x : K) : lround x = round x ∨ lround x = -round (-x) := by
  unfold lround
  split
  · exact Or.inl rfl
  · exact Or.inr rfl

theorem lround_intCast (n : Int) : lround (n : K) = n := by
  rcases lround_eq_or (n : K) with h | h
  · rw [h, round_intCast]
  · rw [h, ← Int.cast_neg, round_intCast, neg_neg]

theorem abs_lround_sub_le (x : K) : |(lround x : K) - x| ≤ 1 / 2 := by
  rcases lround_eq_or x with h | h
  · rw [h, abs_sub_comm]
    exact abs_sub_round x
  · have hneg : ((-round (-x) : Int) : K) - x = -x - round (-x) := by
      rw [Int.cast_neg]
      ring
    rw [h, hneg]
    exact abs_sub_round (-x)

theorem abs_lround_le {x : K} {n : Int} (h : |x| ≤ n) : |lround x| ≤ n := by
  apply Int.lt_add_one_iff.mp
  apply (Int.cast_lt (R := K)).mp
  have herror := abs_lround_sub_le x
  calc ((|lround x| : Int) : K) = |(lround x - x) + x| := by rw [Int.cast_abs, sub_add_cancel]
    _ ≤ |lround x - x| + |x| := abs_add_le _ _
    _ < n + 1 := by linarith
    _ = ((n + 1 : Int) : K) := by rw [Int.cast_add, Int.cast_one]

/-! ### A grid -/

variable {step : K}

/-- The nearest point of a grid is within half a step. -/
theorem abs_grid_sub_le (hstep : 0 < step) (x : K) : |lround (x * (1 / step)) * step - x| ≤ step / 2 := by
  have hscale : (lround (x * (1 / step)) : K) * step - x =
      (lround (x * (1 / step)) - x * (1 / step)) * step := by
    rw [sub_mul, mul_assoc, one_div_mul_cancel hstep.ne', mul_one]
  rw [hscale, abs_mul, abs_of_pos hstep]
  calc _ ≤ 1 / 2 * step := mul_le_mul_of_nonneg_right (abs_lround_sub_le _) hstep.le
    _ = step / 2 := by ring

theorem lround_grid (hstep : 0 < step) (n : Int) : lround ((n : K) * step * (1 / step)) = n := by
  rw [mul_assoc, mul_one_div_cancel hstep.ne', mul_one, lround_intCast]

end Rounding
