import Mathlib.Algebra.BigOperators.Field
import Mathlib.Algebra.BigOperators.Intervals
import Mathlib.Order.Defs.LinearOrder

/-!
# Softmax averages

The softmax-weighted average of some values, in exact arithmetic. Every weight may be scaled down by the
exponential of a common shift, whichever shift that is. So a pass that subtracts the largest score first and one
that keeps rescaling what it has, whenever it meets a larger score, come to the same average; and the latter may
start from any shift.
-/

namespace Softmax

/-- A positive function that turns sums into products. -/
structure Exponential (K : Type) [Field K] [LinearOrder K] where
  exp : K → K
  pos : ∀ x, 0 < exp x
  add : ∀ a b, exp (a + b) = exp a * exp b

variable {K : Type} [Field K] [LinearOrder K] (E : Exponential K)

/-- The total of `n` values, each by the weight of its score after a shift. -/
def total (shift : K) (score value : Nat → K) (n : Nat) : K :=
  ∑ j ∈ Finset.range n, E.exp (score j - shift) * value j

/-- The average of `n` values by the softmax of their scores. -/
def average (score value : Nat → K) (n : Nat) : K := total E 0 score value n / total E 0 score (fun _ => 1) n

variable {E} {score value : Nat → K} {n : Nat}

theorem total_succ (shift : K) :
    total E shift score value (n + 1) = total E shift score value n + E.exp (score n - shift) * value n :=
  Finset.sum_range_succ _ n

theorem total_shift (shift shift' : K) :
    total E shift' score value n = total E shift score value n * E.exp (shift - shift') := by
  rw [total, total, Finset.sum_mul]
  apply Finset.sum_congr rfl
  intro j _
  have hsplit : score j - shift' = score j - shift + (shift - shift') := by rw [sub_add_sub_cancel]
  rw [hsplit, E.add, mul_right_comm]

/-- The average, by weights after any shift. -/
theorem average_eq (shift : K) :
    average E score value n = total E shift score value n / total E shift score (fun _ => 1) n := by
  have hne : E.exp (0 - shift) ≠ 0 := (E.pos _).ne'
  rw [average, total_shift 0 shift, total_shift 0 shift, mul_div_mul_right _ _ hne]

theorem average_congr {score' value' : Nat → K} (hscore : ∀ j < n, score j = score' j)
    (hvalue : ∀ j < n, value j = value' j) : average E score value n = average E score' value' n := by
  have htotal : ∀ {u u' : Nat → K}, (∀ j < n, u j = u' j) → total E 0 score u n = total E 0 score' u' n := by
    intro u u' hu
    apply Finset.sum_congr rfl
    intro j hj
    rw [hscore j (Finset.mem_range.mp hj), hu j (Finset.mem_range.mp hj)]
  rw [average, average, htotal hvalue, htotal fun _ _ => rfl]

/-! ### One pass -/

/-- What the one-pass loop keeps: the shift so far, the sum of the weights, and for every column the total of
the values. -/
structure Online (K : Type) where
  max : K
  sum : K
  acc : Nat → K

/-- The state holds the totals of the first `n` scores in the first `width` columns. -/
structure Online.Holds (E : Exponential K) (score : Nat → K) (value : Nat → Nat → K) (width n : Nat)
    (o : Online K) : Prop where
  sum : o.sum = total E o.max score (fun _ => 1) n
  acc : ∀ d < width, o.acc d = total E o.max score (fun j => value j d) n

variable {values : Nat → Nat → K} {width : Nat} {o : Online K}

theorem Online.holds_zero (hacc : ∀ d < width, o.acc d = 0) (hsum : o.sum = 0) :
    o.Holds E score values width 0 := ⟨hsum, hacc⟩

/-- One more score: what was kept is rescaled to the new shift. -/
theorem Online.Holds.step (h : o.Holds E score values width n) {o' : Online K}
    (hsum : o'.sum = o.sum * E.exp (o.max - o'.max) + E.exp (score n - o'.max))
    (hacc : ∀ d < width,
      o'.acc d = o.acc d * E.exp (o.max - o'.max) + E.exp (score n - o'.max) * values n d) :
    o'.Holds E score values width (n + 1) where
  sum := by rw [hsum, total_succ, h.sum, total_shift o.max o'.max, mul_one]
  acc d hd := by rw [hacc d hd, total_succ, h.acc d hd, total_shift o.max o'.max]

theorem Online.Holds.average (h : o.Holds E score values width n) {d : Nat} (hd : d < width) :
    o.acc d * (1 / o.sum) = average E score (fun j => values j d) n := by
  rw [average_eq o.max, h.acc d hd, h.sum, mul_one_div]

/-! ### Two passes -/

theorem average_of_normalised (shift : K) :
    ∑ j ∈ Finset.range n, E.exp (score j - shift) * (1 / total E shift score (fun _ => 1) n) * value j =
      average E score value n := by
  have hscale : total E shift score value n / total E shift score (fun _ => 1) n =
      total E shift score value n * (1 / total E shift score (fun _ => 1) n) := div_eq_mul_one_div _ _
  rw [average_eq shift, hscale]
  generalize 1 / total E shift score (fun _ => 1) n = scale
  rw [total, Finset.sum_mul]
  apply Finset.sum_congr rfl
  intro j _
  rw [mul_right_comm]

end Softmax
