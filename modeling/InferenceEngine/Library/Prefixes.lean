import Mathlib.Algebra.BigOperators.Group.List.Basic
import Mathlib.Algebra.Order.Ring.Defs
import Mathlib.Algebra.Order.Group.Defs

/-!
# Prefix sums

The shortest non-empty prefix of a list of numbers whose sum reaches a threshold. Positive numbers have growing
prefix sums, so that a prefix belongs to an interval of thresholds.
-/

namespace Prefixes

variable {K : Type} [AddCommGroup K] [LinearOrder K] [IsOrderedAddMonoid K]

/-- The first `n` numbers reach `t`, and no shorter prefix does. -/
structure Reaches (ps : List K) (t : K) (n : Nat) : Prop where
  pos : 0 < n
  le_length : n ≤ ps.length
  reach : t ≤ (ps.take n).sum
  short : ∀ m, 0 < m → m < n → (ps.take m).sum < t

variable {ps : List K} {t p : K} {n m : Nat}

omit [IsOrderedAddMonoid K] in
theorem Reaches.unique (h : Reaches ps t n) (h' : Reaches ps t m) : n = m := by
  obtain hlt | heq | hgt := Nat.lt_trichotomy n m
  · exact absurd h.reach (not_le.mpr (h'.short n h.pos hlt))
  · exact heq
  · exact absurd h'.reach (not_le.mpr (h.short m h'.pos hgt))

omit [IsOrderedAddMonoid K] in
theorem reaches_one (h : t ≤ p) : Reaches (p :: ps) t 1 where
  pos := Nat.one_pos
  le_length := Nat.succ_le_succ (Nat.zero_le _)
  reach := by simpa using h
  short m hm hlt := absurd hlt (by omega)

/-- The first number does not reach `t`, and the others reach what is left of it. -/
theorem Reaches.cons (h : Reaches ps (t - p) n) (hlt : p < t) : Reaches (p :: ps) t (n + 1) where
  pos := Nat.succ_pos n
  le_length := Nat.succ_le_succ h.le_length
  reach := by
    rw [List.take_succ_cons, List.sum_cons]
    exact sub_le_iff_le_add'.mp h.reach
  short m hm hlt' := by
    cases m with
    | zero => exact absurd hm (Nat.lt_irrefl 0)
    | succ m =>
      rw [List.take_succ_cons, List.sum_cons]
      by_cases hzero : m = 0
      · subst hzero
        simpa using hlt
      · exact lt_sub_iff_add_lt'.mp (h.short m (Nat.pos_of_ne_zero hzero) (Nat.lt_of_succ_lt_succ hlt'))

/-- What is left of `t` behind the first number is still reached. -/
theorem rest_of_lt (h : t ≤ (p :: ps).sum) (hlt : p < t) : ps ≠ [] ∧ t - p ≤ ps.sum := by
  have hrest : t - p ≤ ps.sum := sub_le_iff_le_add'.mpr (by rwa [List.sum_cons] at h)
  refine ⟨fun hnil => ?_, hrest⟩
  rw [hnil, List.sum_nil, sub_nonpos] at hrest
  exact absurd hrest (not_le.mpr hlt)

theorem sum_take_lt (hpos : ∀ p ∈ ps, 0 < p) (hlt : m < n) (hn : n ≤ ps.length) :
    (ps.take m).sum < (ps.take n).sum := by
  induction n with
  | zero => exact absurd hlt (Nat.not_lt_zero m)
  | succ n ih =>
    have hstep : (ps.take (n + 1)).sum = (ps.take n).sum + ps[n] := by
      rw [List.take_add_one, List.getElem?_eq_getElem hn, List.sum_append]
      simp
    have hgrow : (ps.take n).sum < (ps.take (n + 1)).sum := by
      rw [hstep]
      exact lt_add_of_pos_right _ (hpos _ (List.getElem_mem hn))
    obtain hlt | rfl := Nat.lt_succ_iff_lt_or_eq.mp hlt
    · exact (ih hlt (Nat.le_of_succ_le hn)).trans hgrow
    · exact hgrow

/-- **The thresholds of a prefix**: those above the sum of the next shorter one, or all of them when there is no
shorter one, up to its own sum. -/
theorem reaches_succ_iff (hpos : ∀ p ∈ ps, 0 < p) :
    Reaches ps t (n + 1) ↔ n < ps.length ∧ (n = 0 ∨ (ps.take n).sum < t) ∧ t ≤ (ps.take (n + 1)).sum := by
  constructor
  · intro h
    refine ⟨h.le_length, ?_, h.reach⟩
    obtain hzero | hn := Nat.eq_zero_or_pos n
    · exact .inl hzero
    · exact .inr (h.short n hn (Nat.lt_succ_self n))
  · intro ⟨hn, hlow, hreach⟩
    refine ⟨Nat.succ_pos n, hn, hreach, fun m hm hmn => ?_⟩
    obtain rfl | hlow := hlow
    · exact absurd hmn (by omega)
    · obtain hlt | rfl := Nat.lt_succ_iff_lt_or_eq.mp hmn
      · exact (sum_take_lt hpos hlt hn.le).trans hlow
      · exact hlow

end Prefixes
