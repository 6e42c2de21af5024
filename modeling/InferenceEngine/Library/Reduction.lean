import InferenceEngine.Library.Kernel
import Mathlib.Algebra.BigOperators.Group.Finset.Basic
import Mathlib.Order.Lattice
import Mathlib.Tactic.Ring

/-!
# Reductions in a block of threads

The threads of a block first go through an array in strides, each with a result of its own, and then combine
these results in shared memory, in rounds: in a round of stride `s`, thread `t < s` takes in the value of
thread `t + s`. When their number is a power of two and the operation is associative and commutative, cell `0`
ends up with the combination of all results, whatever order the threads of a round act in.
-/

namespace Kernel

variable {V : Type}

/-! ### Rounds -/

/-- The strides `s`, `s / 2`, ... down to one, at most `fuel` of them. -/
def strides : Nat → Nat → List Nat
  | 0, _ => []
  | fuel + 1, s => if s = 0 then [] else s :: strides fuel (s / 2)

/-- A thread in a round. -/
def reduceThread (op : V → V → V) (stride t : Nat) (shared : Nat → V) : Nat → V :=
  if t < stride then Function.update shared t (op (shared t) (shared (t + stride))) else shared

/-- One round after another; `round` is the number of the first one in the schedule. -/
def reduceRounds (op : V → V → V) (sched : Schedule) (threads : Nat) : List Nat → Nat → (Nat → V) → Nat → V
  | [], _, shared => shared
  | stride :: rest, round, shared =>
    reduceRounds op sched threads rest (round + 1)
      (launch (reduceThread op stride) (sched.order round threads) shared)

/-- The reduction of a block, from half the number of threads down. -/
def reduceBlock (op : V → V → V) (sched : Schedule) (threads round : Nat) (shared : Nat → V) : Nat → V :=
  reduceRounds op sched threads (strides threads (threads / 2)) round shared

/-- `f 0`, ..., `f n` combined. -/
def combine (op : V → V → V) (f : Nat → V) : Nat → V
  | 0 => f 0
  | n + 1 => op (combine op f n) (f (n + 1))

variable {op : V → V → V}

theorem combine_congr {f g : Nat → V} {n : Nat} (h : ∀ t ≤ n, f t = g t) : combine op f n = combine op g n := by
  induction n with
  | zero => exact h 0 le_rfl
  | succ n ih => rw [combine, combine, ih fun t ht => h t (Nat.le_succ_of_le ht), h (n + 1) le_rfl]

theorem combine_append [Std.Associative op] (f : Nat → V) (m n : Nat) :
    combine op f (m + 1 + n) = op (combine op f m) (combine op (fun t => f (m + 1 + t)) n) := by
  induction n with
  | zero => rfl
  | succ n ih =>
    have hassoc : ∀ a b c, op (op a b) c = op a (op b c) := Std.Associative.assoc
    change op (combine op f (m + 1 + n)) (f (m + 1 + n + 1)) = _
    rw [ih, hassoc]
    rfl

theorem combine_distrib [Std.Associative op] [Std.Commutative op] (f g : Nat → V) (n : Nat) :
    combine op (fun t => op (f t) (g t)) n = op (combine op f n) (combine op g n) := by
  induction n with
  | zero => rfl
  | succ n ih =>
    have hassoc : ∀ a b c, op (op a b) c = op a (op b c) := Std.Associative.assoc
    have hcomm : ∀ a b, op a b = op b a := Std.Commutative.comm
    calc op (combine op (fun t => op (f t) (g t)) n) (op (f (n + 1)) (g (n + 1)))
        = op (op (combine op f n) (combine op g n)) (op (f (n + 1)) (g (n + 1))) := by rw [ih]
      _ = op (combine op f n) (op (combine op g n) (op (f (n + 1)) (g (n + 1)))) := hassoc _ _ _
      _ = op (combine op f n) (op (op (f (n + 1)) (combine op g n)) (g (n + 1))) := by
        rw [← hassoc (combine op g n), hcomm (combine op g n)]
      _ = op (op (combine op f n) (f (n + 1))) (op (combine op g n) (g (n + 1))) := by
        rw [hassoc (f (n + 1)), ← hassoc (combine op f n)]

theorem combine_add {K : Type} [AddCommMonoid K] (f : Nat → K) (n : Nat) :
    combine (· + ·) f n = ∑ t ∈ Finset.range (n + 1), f t := by
  induction n with
  | zero => exact (Finset.sum_range_one f).symm
  | succ n ih => rw [Finset.sum_range_succ, combine, ih]

/-- The threads of a round write their own cells and read cells that no thread of the round writes. -/
theorem independent_reduceThread (op : V → V → V) (stride : Nat) :
    Independent (reduceThread op stride) fun t c => t < stride ∧ c = t where
  frame t shared c hc := by
    rw [reduceThread]
    split
    · rename_i ht
      exact Function.update_of_ne (fun heq => hc ⟨ht, heq⟩) _ _
    · rfl
  disjoint t t' c h h' := h.2.symm.trans h'.2
  own t shared shared' hagree c hc := by
    obtain ⟨ht, rfl⟩ := hc
    rw [reduceThread, reduceThread, if_pos ht, if_pos ht, Function.update_self, Function.update_self,
      hagree c fun j hj => hj.2.symm, hagree (c + stride) fun j hj => absurd hj.1 (by omega)]

theorem launch_reduceThread (sched : Schedule) {threads stride t : Nat} (hthreads : stride ≤ threads)
    (ht : t < stride) (round : Nat) (shared : Nat → V) :
    launch (reduceThread op stride) (sched.order round threads) shared t =
      op (shared t) (shared (t + stride)) := by
  rw [(independent_reduceThread op stride).launch_of_writes (sched.nodup round threads)
    (sched.mem_order.mpr (ht.trans_le hthreads)) ⟨ht, rfl⟩, reduceThread, if_pos ht, Function.update_self]

theorem strides_zero (fuel : Nat) : strides fuel 0 = [] := by
  cases fuel <;> rfl

/-- The rounds from stride `2 ^ k` on combine twice as many values. -/
theorem reduceRounds_pow [Std.Associative op] [Std.Commutative op] (sched : Schedule) {threads k fuel : Nat}
    (hthreads : 2 ^ k ≤ threads) (hfuel : k < fuel) (round : Nat) (shared : Nat → V) :
    reduceRounds op sched threads (strides fuel (2 ^ k)) round shared 0 =
      combine op shared (2 ^ (k + 1) - 1) := by
  induction k generalizing fuel round shared with
  | zero =>
    obtain ⟨fuel, rfl⟩ := Nat.exists_eq_succ_of_ne_zero (Nat.ne_of_gt hfuel)
    have hhalf : 2 ^ 0 / 2 = 0 := rfl
    rw [strides, if_neg (by decide), hhalf, strides_zero, reduceRounds, reduceRounds]
    exact launch_reduceThread sched hthreads (by decide) round shared
  | succ k ih =>
    obtain ⟨fuel, rfl⟩ := Nat.exists_eq_succ_of_ne_zero (Nat.ne_of_gt (Nat.zero_lt_of_lt hfuel))
    have hpos : 0 < 2 ^ (k + 1) := Nat.two_pow_pos (k + 1)
    have hhalf : 2 ^ (k + 1) / 2 = 2 ^ k := by rw [Nat.pow_succ, Nat.mul_div_cancel _ (by decide)]
    have hle : 2 ^ k ≤ 2 ^ (k + 1) := Nat.pow_le_pow_right (by decide) (Nat.le_succ k)
    rw [strides, if_neg (Nat.ne_of_gt hpos), hhalf, reduceRounds, ih (hle.trans hthreads) (by omega)]
    -- the values below the stride have taken in the values above it
    have hround : ∀ t ≤ 2 ^ (k + 1) - 1,
        launch (reduceThread op (2 ^ (k + 1))) (sched.order round threads) shared t =
          op (shared t) (shared (2 ^ (k + 1) - 1 + 1 + t)) := by
      intro t ht
      rw [launch_reduceThread sched hthreads (by omega) round shared, Nat.sub_add_cancel hpos, Nat.add_comm t]
    have hcount : 2 ^ (k + 1) - 1 + 1 + (2 ^ (k + 1) - 1) = 2 ^ (k + 1 + 1) - 1 := by
      rw [Nat.pow_succ 2 (k + 1)]
      omega
    rw [combine_congr hround, combine_distrib, ← hcount]
    exact (combine_append shared _ _).symm

/-- **Reduction.** Cell `0` combines the values of all threads. -/
theorem reduceBlock_zero [Std.Associative op] [Std.Commutative op] (sched : Schedule) (k round : Nat)
    (shared : Nat → V) : reduceBlock op sched (2 ^ k) round shared 0 = combine op shared (2 ^ k - 1) := by
  cases k with
  | zero =>
    rw [reduceBlock]
    rfl
  | succ k =>
    have hhalf : 2 ^ (k + 1) / 2 = 2 ^ k := by rw [Nat.pow_succ, Nat.mul_div_cancel _ (by decide)]
    have hle : 2 ^ k ≤ 2 ^ (k + 1) := Nat.pow_le_pow_right (by decide) (Nat.le_succ k)
    rw [reduceBlock, hhalf]
    exact reduceRounds_pow sched hle ((Nat.lt_two_pow_self).trans_le hle) round shared

/-! ### Choosing the greatest -/

section Select

variable {L : Type} [LinearOrder L] {rank : V → L}

theorem associative_of_rank (hinj : Function.Injective rank) (hop : ∀ a b, rank (op a b) = max (rank a) (rank b)) :
    Std.Associative op :=
  ⟨fun a b c => hinj (by simp only [hop, max_assoc])⟩

theorem commutative_of_rank (hinj : Function.Injective rank) (hop : ∀ a b, rank (op a b) = max (rank a) (rank b)) :
    Std.Commutative op :=
  ⟨fun a b => hinj (by simp only [hop, max_comm])⟩

/-- An operation that chooses by rank leaves a value of the highest rank. -/
theorem combine_of_rank (hinj : Function.Injective rank) (hop : ∀ a b, rank (op a b) = max (rank a) (rank b))
    (f : Nat → V) (n : Nat) :
    (∃ t ≤ n, combine op f n = f t) ∧ ∀ t ≤ n, rank (f t) ≤ rank (combine op f n) := by
  induction n with
  | zero =>
    refine ⟨⟨0, le_rfl, rfl⟩, fun t ht => ?_⟩
    rw [Nat.le_zero.mp ht]
    exact le_rfl
  | succ n ih =>
    obtain ⟨⟨t, ht, heq⟩, hle⟩ := ih
    have hrank : rank (combine op f (n + 1)) = max (rank (combine op f n)) (rank (f (n + 1))) := hop _ _
    constructor
    · obtain h | h := max_choice (rank (combine op f n)) (rank (f (n + 1)))
      · exact ⟨t, Nat.le_succ_of_le ht, (hinj (hrank.trans h)).trans heq⟩
      · exact ⟨n + 1, le_rfl, hinj (hrank.trans h)⟩
    · intro t ht
      rw [hrank]
      obtain ht | rfl := Nat.le_succ_iff.mp ht
      · exact (hle t ht).trans (le_max_left _ _)
      · exact le_max_right _ _

end Select

/-! ### Strides through an array -/

/-- The indices below `n` that thread `t` goes through. -/
def strided (threads n t : Nat) : List Nat :=
  (List.range ((n - t + threads - 1) / threads)).map fun i => t + i * threads

theorem mem_strided {threads n t j : Nat} (ht : t < threads) :
    j ∈ strided threads n t ↔ j < n ∧ j % threads = t := by
  have hpos : 0 < threads := Nat.zero_lt_of_lt ht
  have hcount : ∀ i, i < (n - t + threads - 1) / threads ↔ t + i * threads < n := by
    intro i
    rw [← Nat.succ_le_iff, Nat.le_div_iff_mul_le hpos, Nat.succ_mul]
    omega
  rw [strided, List.mem_map]
  constructor
  · rintro ⟨i, hi, rfl⟩
    rw [List.mem_range, hcount] at hi
    exact ⟨hi, by rw [Nat.add_mul_mod_self_right, Nat.mod_eq_of_lt ht]⟩
  · rintro ⟨hj, rfl⟩
    have heq : j % threads + j / threads * threads = j := by
      rw [Nat.mul_comm]
      exact Nat.mod_add_div j threads
    exact ⟨j / threads, List.mem_range.mpr ((hcount _).mpr (by rwa [heq])), heq⟩

theorem pairwise_strided {threads : Nat} (hpos : 0 < threads) (n t : Nat) :
    (strided threads n t).Pairwise (· < ·) := by
  apply List.pairwise_map.mpr
  apply List.pairwise_lt_range.imp
  intro a b hab
  have := Nat.mul_lt_mul_of_pos_right hab hpos
  omega

/-- The threads of a block go through every index once. -/
theorem sum_strided {K : Type} [AddCommMonoid K] {threads : Nat} (hpos : 0 < threads) (g : Nat → K) (n : Nat) :
    ∑ t ∈ Finset.range threads, ((strided threads n t).map g).sum = ∑ j ∈ Finset.range n, g j := by
  have hthread : ∀ t ∈ Finset.range threads,
      ((strided threads n t).map g).sum = ∑ j ∈ Finset.range n with j % threads = t, g j := by
    intro t ht
    have hnodup : (strided threads n t).Nodup := (pairwise_strided hpos n t).imp Nat.ne_of_lt
    rw [← List.sum_toFinset g hnodup]
    apply Finset.sum_congr
    · ext j
      rw [List.mem_toFinset, mem_strided (Finset.mem_range.mp ht), Finset.mem_filter, Finset.mem_range]
    · exact fun _ _ => rfl
  rw [Finset.sum_congr rfl hthread]
  apply Finset.sum_fiberwise_of_maps_to
  intro j _
  exact Finset.mem_range.mpr (Nat.mod_lt j hpos)

end Kernel
