import Mathlib.Algebra.Group.Int.Defs
import Mathlib.Algebra.Group.Nat.Defs
import Mathlib.Data.Int.Init

/-!
# Sizes and offsets in 64 bits

`int64_t` arithmetic wraps around, and so does the size of a buffer that was computed in it. An offset may come out
negative, so that a range of elements lies in its buffer under two conditions. A loop over rows of one width
leaves a buffer exactly when the rows together are larger than it, however its offsets wrap.
-/

namespace Wrap

/-- What an integer is as `int64_t`. -/
@[irreducible] def int64 (n : Int) : Int := n.bmod (2 ^ 64)

/-- What an integer is as `size_t`. -/
@[irreducible] def sizeT (n : Int) : Nat := (n % (2 ^ 64 : Nat)).toNat

theorem int64_natCast {n : Nat} (h : n < 2 ^ 63) : int64 n = n := by
  rw [int64]
  exact Int.bmod_eq_of_le (by omega) (by omega)

theorem int64_lt (n : Int) : int64 n < 2 ^ 63 := by
  have hlt : n.bmod (2 ^ 64) < _ := Int.bmod_lt (by omega)
  rw [int64]
  omega

theorem sizeT_int64 (n : Int) : sizeT (int64 n) = sizeT n := by rw [sizeT, sizeT, int64, Int.bmod_emod]

theorem sizeT_natCast (n : Nat) : sizeT n = n % 2 ^ 64 := by
  rw [sizeT, ← Int.natCast_emod]
  rfl

theorem int64_int64_mul (m n : Int) : int64 (int64 m * n) = int64 (m * n) := by
  rw [int64, int64, int64]
  exact Int.bmod_mul_bmod

/-- The range of `n` elements from `off` on lies in a buffer of `size` elements. -/
def InBuffer (size : Nat) (off : Int) (n : Nat) : Prop := n = 0 ∨ 0 ≤ off ∧ off + n ≤ size

instance (size : Nat) (off : Int) (n : Nat) : Decidable (InBuffer size off n) :=
  inferInstanceAs (Decidable (n = 0 ∨ 0 ≤ off ∧ off + n ≤ size))

theorem inBuffer_natCast {size off n : Nat} : InBuffer size off n ↔ n = 0 ∨ off + n ≤ size := by
  rw [InBuffer]
  omega

theorem inBuffer_one {size off : Nat} : InBuffer size off 1 ↔ off < size := by
  rw [inBuffer_natCast]
  omega

theorem row_le {n w i : Nat} (hi : i < n) : i * w + w ≤ n * w := by
  rw [← Nat.succ_mul]
  exact Nat.mul_le_mul_right w hi

/-- **A loop over rows** stays in its buffer exactly when they fit into it together. -/
theorem rows_inBuffer_iff {size n w : Nat} (hsize : size < 2 ^ 63) :
    (∀ i < n, InBuffer size (int64 (i * w : Nat)) w) ↔ n * w ≤ size := by
  constructor
  · intro hrows
    refine Nat.le_of_not_lt fun hlt => ?_
    have hw : 0 < w := Nat.pos_of_mul_pos_left (Nat.zero_lt_of_lt hlt)
    -- the first row that does not fit still has an exact offset
    have hi : size / w < n := (Nat.div_lt_iff_lt_mul hw).mpr hlt
    have hoff : size / w * w ≤ size := Nat.div_mul_le_self size w
    have hnext : size < size / w * w + w := Nat.lt_div_mul_add hw
    have hrow := hrows _ hi
    rw [int64_natCast (by omega), inBuffer_natCast] at hrow
    omega
  · intro hle i hi
    have hrow := row_le (w := w) hi
    by_cases hw : w = 0
    · exact .inl hw
    · rw [int64_natCast (by omega), inBuffer_natCast]
      omega

end Wrap
