import Mathlib.Data.List.Basic
import Mathlib.Data.List.Range
import Mathlib.Algebra.BigOperators.Fin

/-!
# Counted loops

A loop `for k in 0..n` is a fold over `List.range n`. An invariant of the number of turns carries over to the
end, a loop that adds up is a sum, and a loop inside a loop is one loop over all pairs.
-/

namespace Loop

variable {A V : Type}

/-- A counted loop, with an invariant of the number of turns made. -/
theorem foldl_range {I : Nat → A → Prop} {f : A → Nat → A} {n : Nat} {a : A} (start : I 0 a)
    (body : ∀ k < n, ∀ a, I k a → I (k + 1) (f a k)) : I n ((List.range n).foldl f a) := by
  induction n with
  | zero => exact start
  | succ n ih =>
    rw [List.range_succ, List.foldl_append, List.foldl_cons, List.foldl_nil]
    exact body n (Nat.lt_succ_self n) _ (ih fun k hk => body k (Nat.lt_succ_of_lt hk))

theorem foldl_range_succ (f : A → Nat → A) (n : Nat) (a : A) :
    (List.range (n + 1)).foldl f a = f ((List.range n).foldl f a) n := by
  rw [List.range_succ, List.foldl_append, List.foldl_cons, List.foldl_nil]

theorem foldl_add {K : Type} [AddCommMonoid K] (g : Nat → K) (n : Nat) :
    (List.range n).foldl (fun sum k => sum + g k) 0 = ∑ k ∈ Finset.range n, g k := by
  induction n with
  | zero => rfl
  | succ n ih => rw [foldl_range_succ, ih, Finset.sum_range_succ]

theorem foldl_range_mul (f : A → Nat → Nat → A) (m n : Nat) (a : A) :
    (List.range m).foldl (fun a i => (List.range n).foldl (fun a j => f a i j) a) a =
      (List.range (m * n)).foldl (fun a k => f a (k / n) (k % n)) a := by
  induction m with
  | zero => rw [Nat.zero_mul]; rfl
  | succ m ih =>
    rw [foldl_range_succ, ih, Nat.succ_mul, List.range_add, List.foldl_append, List.foldl_map]
    apply List.foldl_ext
    intro a j hj
    have hj : j < n := List.mem_range.mp hj
    have hpos : 0 < n := Nat.zero_lt_of_lt hj
    rw [Nat.mul_comm m n, Nat.mul_add_div hpos, Nat.mul_add_mod, Nat.div_eq_of_lt hj, Nat.mod_eq_of_lt hj,
      Nat.add_zero]

/-! ### Ranges of cells -/

/-- Every one of the first `n` cells gets a new value from its old one. -/
def mapRange (n : Nat) (f : Nat → V → V) (cells : Nat → V) : Nat → V :=
  fun d => if d < n then f d (cells d) else cells d

/-- The first `n` of `values`, stored from cell `base` on. -/
def storeRange (base n : Nat) (values cells : Nat → V) : Nat → V :=
  fun c => if base ≤ c ∧ c < base + n then values (c - base) else cells c

theorem mapRange_of_lt {n d : Nat} (hd : d < n) (f : Nat → V → V) (cells : Nat → V) :
    mapRange n f cells d = f d (cells d) := if_pos hd

theorem storeRange_apply {n d : Nat} (hd : d < n) (base : Nat) (values cells : Nat → V) :
    storeRange base n values cells (base + d) = values d := by
  rw [storeRange, if_pos ⟨Nat.le_add_right base d, Nat.add_lt_add_left hd base⟩, Nat.add_sub_cancel_left]

theorem storeRange_congr {n : Nat} {values values' : Nat → V} (h : ∀ d < n, values d = values' d) (base : Nat) :
    storeRange base n values = storeRange base n values' := by
  funext cells c
  unfold storeRange
  split
  · exact h (c - base) (by omega)
  · rfl

theorem storeRange_append (base m n : Nat) (values cells : Nat → V) :
    storeRange (base + m) n (fun i => values (m + i)) (storeRange base m values cells) =
      storeRange base (m + n) values cells := by
  funext c
  unfold storeRange
  by_cases hnew : base + m ≤ c ∧ c < base + m + n
  · have hcell : m + (c - (base + m)) = c - base := by omega
    rw [if_pos hnew, if_pos (by omega)]
    exact congrArg values hcell
  · rw [if_neg hnew]
    by_cases hold : base ≤ c ∧ c < base + m
    · rw [if_pos hold, if_pos (by omega)]
    · rw [if_neg hold, if_neg (by omega)]

theorem foldl_mapRange {n m : Nat} (f : Nat → Nat → V → V) {d : Nat} (hd : d < n) (cells : Nat → V) :
    (List.range m).foldl (fun cells j => mapRange n (f j) cells) cells d =
      (List.range m).foldl (fun v j => f j d v) (cells d) := by
  induction m with
  | zero => rfl
  | succ m ih => rw [foldl_range_succ, foldl_range_succ, mapRange_of_lt hd, ih]

theorem foldl_update (base : Nat) (values : Nat → V) (js : List Nat) (cells : Nat → V) (c : Nat) :
    js.foldl (fun cells j => Function.update cells (base + j) (values j)) cells c =
      if base ≤ c ∧ c - base ∈ js then values (c - base) else cells c := by
  induction js generalizing cells with
  | nil => simp
  | cons j js ih =>
    rw [List.foldl_cons, ih]
    by_cases hmem : base ≤ c ∧ c - base ∈ js
    · rw [if_pos hmem, if_pos ⟨hmem.1, List.mem_cons_of_mem j hmem.2⟩]
    · rw [if_neg hmem]
      by_cases hc : c = base + j
      · subst hc
        rw [Function.update_self, Nat.add_sub_cancel_left, if_pos ⟨Nat.le_add_right base j, List.mem_cons_self⟩]
      · rw [Function.update_of_ne hc, if_neg]
        intro ⟨hle, hcons⟩
        rcases List.mem_cons.mp hcons with heq | hjs
        · omega
        · exact hmem ⟨hle, hjs⟩

/-! ### Rows of cells -/

theorem row_inj {width a b i j : Nat} (hi : i < width) (hj : j < width) (h : a * width + i = b * width + j) :
    a = b ∧ i = j := by
  have hdiv := congrArg (· / width) h
  have hmod := congrArg (· % width) h
  simp only [Nat.mul_comm _ width, Nat.mul_add_div (Nat.zero_lt_of_lt hi), Nat.div_eq_of_lt hi,
    Nat.div_eq_of_lt hj, Nat.add_zero] at hdiv
  simp only [Nat.mul_comm _ width, Nat.mul_add_mod, Nat.mod_eq_of_lt hi, Nat.mod_eq_of_lt hj] at hmod
  exact ⟨hdiv, hmod⟩

theorem lt_work {width n r e : Nat} (hr : r < n) (he : e < width) : r * width + e < n * width := by
  have hle := Nat.mul_le_mul_right width (Nat.succ_le_of_lt hr)
  rw [Nat.succ_mul] at hle
  omega

/-- A loop that stores one row after another. -/
theorem foldl_storeRange {n width : Nat} (values : Nat → Nat → V) {r e : Nat} (hr : r < n) (he : e < width)
    (cells : Nat → V) :
    (List.range n).foldl (fun cells r => storeRange (r * width) width (values r) cells) cells (r * width + e) =
      values r e := by
  have hloop := foldl_range (n := n) (a := cells)
    (f := fun cells r => storeRange (r * width) width (values r) cells)
    (I := fun k cells => ∀ r < k, cells (r * width + e) = values r e) ?_ ?_
  · exact hloop r hr
  · exact fun r hr => absurd hr (Nat.not_lt_zero r)
  · intro k _ cells hcells r hr
    obtain hlt | rfl := Nat.lt_succ_iff_lt_or_eq.mp hr
    · have hbelow := lt_work hlt he
      rw [storeRange, if_neg (by omega)]
      exact hcells r hlt
    · exact storeRange_apply he _ _ _

theorem foldl_zipIdx_storeRange {A : Type} {width : Nat} (values : A → Nat → V) (as : List A) {r e : Nat} {a : A}
    (ha : as[r]? = some a) (he : e < width) (cells : Nat → V) :
    as.zipIdx.foldl (fun cells p => storeRange (p.2 * width) width (values p.1) cells) cells (r * width + e) =
      values a e := by
  induction as using List.reverseRecOn with
  | nil => exact absurd ha (by simp)
  | append_singleton as b ih =>
    rw [List.zipIdx_append, List.foldl_append, List.zipIdx_singleton, List.foldl_cons, List.foldl_nil, Nat.zero_add]
    dsimp only
    by_cases hr : r < as.length
    · rw [List.getElem?_append_left hr] at ha
      have hbelow := lt_work hr he
      rw [storeRange, if_neg (by omega)]
      exact ih ha
    · have hlast : r = as.length := by
        have hlt := (List.getElem?_eq_some_iff.mp ha).1
        rw [List.length_append, List.length_singleton] at hlt
        omega
      rw [hlast, List.getElem?_concat_length] at ha
      rw [hlast, storeRange_apply he, Option.some.inj ha]

theorem index_div {width r e : Nat} (he : e < width) : (r * width + e) / width = r := by
  rw [Nat.mul_comm, Nat.mul_add_div (Nat.zero_lt_of_lt he), Nat.div_eq_of_lt he, Nat.add_zero]

theorem index_mod {width r e : Nat} (he : e < width) : (r * width + e) % width = e := by
  rw [Nat.mul_comm, Nat.mul_add_mod, Nat.mod_eq_of_lt he]

theorem exists_cell {l m n c : Nat} (hc : c < l * (m * n)) :
    ∃ i < l, ∃ h < m, ∃ d < n, c = i * m * n + h * n + d := by
  have hn : 0 < n := Nat.pos_of_mul_pos_left (Nat.pos_of_mul_pos_left (Nat.zero_lt_of_lt hc))
  have hm : 0 < m := Nat.pos_of_mul_pos_right (Nat.pos_of_mul_pos_left (Nat.zero_lt_of_lt hc))
  have hrow : c / n < l * m := Nat.div_lt_of_lt_mul (by rwa [Nat.mul_comm n, Nat.mul_assoc])
  refine ⟨c / n / m, Nat.div_lt_of_lt_mul (by rwa [Nat.mul_comm]), c / n % m, Nat.mod_lt _ hm, c % n,
    Nat.mod_lt _ hn, ?_⟩
  rw [← Nat.add_mul, Nat.div_add_mod', Nat.div_add_mod']

theorem length_flatten_of_width {width : Nat} {rows : List (List V)} (h : ∀ row ∈ rows, row.length = width) :
    rows.flatten.length = rows.length * width := by
  induction rows with
  | nil => exact (Nat.zero_mul width).symm
  | cons row rows ih =>
    rw [List.flatten_cons, List.length_append, h row List.mem_cons_self,
      ih fun row hrow => h row (List.mem_cons_of_mem _ hrow), List.length_cons, Nat.succ_mul, Nat.add_comm]

/-- In a list of runs of length `m`, element `r` is element `r % m` of run `r / m`. -/
theorem flatMap_getElem?_of_length {A B : Type} {g : A → List B} {m : Nat} {as : List A}
    (hlen : ∀ a ∈ as, (g a).length = m) {r : Nat} {a : A} (ha : as[r / m]? = some a) :
    (as.flatMap g)[r]? = (g a)[r % m]? := by
  induction as generalizing r with
  | nil => simp at ha
  | cons x xs ih =>
    have hx := hlen x List.mem_cons_self
    rw [List.flatMap_cons]
    by_cases hr : r < m
    · rw [Nat.div_eq_of_lt hr, List.getElem?_cons_zero, Option.some.injEq] at ha
      rw [List.getElem?_append_left (by omega), Nat.mod_eq_of_lt hr, ha]
    · rcases Nat.eq_zero_or_pos m with rfl | hm
      · simp only [Nat.div_zero, List.getElem?_cons_zero, Option.some.injEq] at ha
        have hnil : xs.flatMap g = [] := by
          rw [List.flatMap_eq_nil_iff]
          exact fun y hy => List.eq_nil_of_length_eq_zero (hlen y (List.mem_cons_of_mem _ hy))
        rw [hnil, List.append_nil, ← ha, List.getElem?_eq_none (by omega), List.getElem?_eq_none (by omega)]
      · have hdiv : r / m = (r - m) / m + 1 := by
          rw [← Nat.sub_add_cancel (Nat.not_lt.mp hr), Nat.add_div_right _ hm, Nat.add_sub_cancel]
        rw [hdiv, List.getElem?_cons_succ] at ha
        rw [List.getElem?_append_right (by omega), hx,
          ih (fun y hy => hlen y (List.mem_cons_of_mem _ hy)) ha, ← Nat.mod_eq_sub_mod (Nat.not_lt.mp hr)]

end Loop
