import InferenceEngine.Model.Tensor

/-!
# Tensor-parallel sharding

A weight is split along its rows or, together with the input, along its columns; the shards go through `linear` on
their own, and their outputs are put side by side or added up. Every loop copies rows of cells, and read by entries
it places each entry where it belongs.
-/

namespace InferenceEngine

open Nn (linear linear_matrix)

namespace Tp

variable {K : Type} [CommRing K]

def splitRows (m : Nn.Tensor K) (shards : Int) : Except Error (List (Nn.Tensor K)) := do
  if m.ndim ≠ 2 then
    throw (.invalidArgument "split_rows: expects a 2D tensor")
  let rows := m.dim 0
  let cols := m.dim 1
  if shards ≤ 0 ∨ (rows : Int) % shards ≠ 0 then
    throw (.invalidArgument "split_rows: rows must be divisible by shards")
  let per := rows / shards.toNat
  return (List.range shards.toNat).map fun s =>
    Nn.Tensor.ofCells [per, cols] (Loop.storeRange 0 (per * cols) (fun i => m.cell (s * per * cols + i)) fun _ => 0)

def splitColumns (m : Nn.Tensor K) (shards : Int) : Except Error (List (Nn.Tensor K)) := do
  if m.ndim ≠ 2 then
    throw (.invalidArgument "split_columns: expects a 2D tensor")
  let rows := m.dim 0
  let cols := m.dim 1
  if shards ≤ 0 ∨ (cols : Int) % shards ≠ 0 then
    throw (.invalidArgument "split_columns: cols must be divisible by shards")
  let per := cols / shards.toNat
  return (List.range shards.toNat).map fun s =>
    Nn.Tensor.ofCells [rows, per] ((List.range rows).foldl (fun cells r =>
      Loop.storeRange (r * per) per (fun i => m.cell (r * cols + s * per + i)) cells) fun _ => 0)

/-- The number of columns of all parts, which share their number of rows. -/
def totalColumns (rows : Nat) (parts : List (Nn.Tensor K)) : Except Error Nat :=
  parts.foldlM (fun total p =>
    if p.ndim ≠ 2 ∨ p.dim 0 ≠ rows then
      .error (.invalidArgument "concat_columns: parts must share the row count")
    else .ok (total + p.dim 1)) 0

/-- Row `r` of all parts, one part after another, with the column behind the last one. -/
def concatRow (parts : List (Nn.Tensor K)) (total r : Nat) (cells : Nat → K) : (Nat → K) × Nat :=
  parts.foldl (fun (cells, col) p =>
    let pc := p.dim 1
    (Loop.storeRange (r * total + col) pc (fun i => p.cell (r * pc + i)) cells, col + pc)) (cells, 0)

def concatColumns (parts : List (Nn.Tensor K)) : Except Error (Nn.Tensor K) :=
  match parts with
  | [] => .error (.invalidArgument "concat_columns: no parts")
  | front :: _ => do
    if front.ndim = 0 then
      throw (.outOfRange "vector::_M_range_check")
    let rows := front.dim 0
    let total ← totalColumns rows parts
    return Nn.Tensor.ofCells [rows, total]
      ((List.range rows).foldl (fun cells r => (concatRow parts total r cells).1) fun _ => 0)

def sum (parts : List (Nn.Tensor K)) : Except Error (Nn.Tensor K) :=
  match parts with
  | [] => .error (.invalidArgument "sum: no parts")
  | front :: rest => do
    let n := front.numel
    let cells ← rest.foldlM (fun cells p =>
      if p.numel ≠ n then .error (.invalidArgument "sum: parts must share shape")
      else .ok (Loop.mapRange n (fun j a => a + p.cell j) cells)) (Loop.storeRange 0 n front.cell fun _ => 0)
    return Nn.Tensor.ofCells front.shape cells

/-! ### Shards by entries -/

/-- Shards with the entries `g s`. -/
def shardsOf (n rows cols : Nat) (g : Nat → Nat → Nat → K) : List (Nn.Tensor K) :=
  (List.range n).map fun s => Nn.Tensor.matrix rows cols (g s)

omit [CommRing K] in
theorem shardsOf_succ (n rows cols : Nat) (g : Nat → Nat → Nat → K) :
    shardsOf (n + 1) rows cols g =
      Nn.Tensor.matrix rows cols (g 0) :: shardsOf n rows cols fun s => g (s + 1) := by
  rw [shardsOf, List.range_succ_eq_map, List.map_cons, List.map_map]
  rfl

theorem divides {n : Nat} (hn : 0 < n) (per : Nat) : ¬((n : Int) ≤ 0 ∨ ((n * per : Nat) : Int) % n ≠ 0) := by
  rw [not_or]
  constructor
  · omega
  · simp

theorem splitRows_matrix {n : Nat} (hn : 0 < n) (per cols : Nat) (f : Nat → Nat → K) :
    splitRows (Nn.Tensor.matrix (n * per) cols f) n = .ok (shardsOf n per cols fun s r c => f (s * per + r) c) := by
  rw [splitRows]
  simp only [Nn.Tensor.ndim_matrix, Nn.Tensor.dim_matrix_zero, Nn.Tensor.dim_matrix_one, ne_eq, not_true_eq_false,
    if_false, if_neg (divides hn per), Int.toNat_natCast, Nat.mul_div_cancel_left per hn]
  apply congrArg Except.ok
  apply List.map_congr_left
  intro s hs
  apply Nn.Tensor.ofCells_eq_matrix
  intro r hr c hc
  have hcell : s * per * cols + (r * cols + c) = (s * per + r) * cols + c := by rw [Nat.add_mul, Nat.add_assoc]
  have hstore := Loop.storeRange_apply (Loop.lt_work hr hc) 0
    (fun i => (Nn.Tensor.matrix (n * per) cols f).cell (s * per * cols + i)) fun _ => 0
  rw [Nat.zero_add] at hstore
  rw [hstore, hcell, Nn.Tensor.cell_matrix (Loop.lt_work (List.mem_range.mp hs) hr) hc]

theorem splitColumns_matrix {n : Nat} (hn : 0 < n) (rows per : Nat) (f : Nat → Nat → K) :
    splitColumns (Nn.Tensor.matrix rows (n * per) f) n = .ok (shardsOf n rows per fun s r c => f r (s * per + c)) := by
  rw [splitColumns]
  simp only [Nn.Tensor.ndim_matrix, Nn.Tensor.dim_matrix_zero, Nn.Tensor.dim_matrix_one, ne_eq, not_true_eq_false,
    if_false, if_neg (divides hn per), Int.toNat_natCast, Nat.mul_div_cancel_left per hn]
  apply congrArg Except.ok
  apply List.map_congr_left
  intro s hs
  apply Nn.Tensor.ofCells_eq_matrix
  intro r hr c hc
  rw [Loop.foldl_storeRange (fun r i => (Nn.Tensor.matrix rows (n * per) f).cell (r * (n * per) + s * per + i)) hr hc,
    Nat.add_assoc, Nn.Tensor.cell_matrix hr (Loop.lt_work (List.mem_range.mp hs) hc)]

omit [CommRing K] in
theorem totalColumns_shardsOf (n rows per : Nat) (g : Nat → Nat → Nat → K) :
    totalColumns rows (shardsOf n rows per g) = .ok (n * per) := by
  have hloop : ∀ total, (shardsOf n rows per g).foldlM (fun total p =>
      if p.ndim ≠ 2 ∨ p.dim 0 ≠ rows then
        .error (.invalidArgument "concat_columns: parts must share the row count")
      else .ok (total + p.dim 1)) total = (.ok (total + n * per) : Except Error Nat) := by
    rw [shardsOf]
    induction n with
    | zero =>
      intro total
      rw [Nat.zero_mul]
      rfl
    | succ n ih =>
      intro total
      rw [List.range_succ, List.map_append, List.foldlM_append, ih total, ok_bind, Nat.succ_mul, ← Nat.add_assoc]
      simp only [List.map_cons, List.map_nil, List.foldlM_cons, Nn.Tensor.ndim_matrix, Nn.Tensor.dim_matrix_zero,
        Nn.Tensor.dim_matrix_one, ne_eq, not_true_eq_false, or_self, if_false]
      rfl
  rw [totalColumns, hloop, Nat.zero_add]

theorem concatRow_shardsOf (n : Nat) {rows r : Nat} (hr : r < rows) (per total : Nat) (g : Nat → Nat → Nat → K)
    (cells : Nat → K) :
    concatRow (shardsOf n rows per g) total r cells =
      (Loop.storeRange (r * total) (n * per) (fun c => g (c / per) r (c % per)) cells, n * per) := by
  induction n with
  | zero =>
    have hnone : Loop.storeRange (r * total) (0 * per) (fun c => g (c / per) r (c % per)) cells = cells := by
      funext c
      rw [Loop.storeRange, if_neg (by omega)]
    rw [hnone, Nat.zero_mul]
    rfl
  | succ n ih =>
    have hpart : Loop.storeRange (r * total + n * per) per
        (fun i => (Nn.Tensor.matrix rows per (g n)).cell (r * per + i)) =
        Loop.storeRange (r * total + n * per) per fun i => g ((n * per + i) / per) r ((n * per + i) % per) := by
      apply Loop.storeRange_congr
      intro i hi
      rw [Nn.Tensor.cell_matrix hr hi, Loop.index_div hi, Loop.index_mod hi]
    rw [concatRow, shardsOf, List.range_succ, List.map_append, List.foldl_append]
    change List.foldl _ (concatRow (shardsOf n rows per g) total r cells) _ = _
    rw [ih, Nat.succ_mul, ← Loop.storeRange_append, ← hpart]
    rfl

theorem concatColumns_shardsOf {n : Nat} (hn : 0 < n) (rows per : Nat) (g : Nat → Nat → Nat → K) :
    concatColumns (shardsOf n rows per g) =
      .ok (Nn.Tensor.matrix rows (n * per) fun r c => g (c / per) r (c % per)) := by
  have hcells : Nn.Tensor.ofCells [rows, n * per] ((List.range rows).foldl (fun cells r =>
      (concatRow (shardsOf n rows per g) (n * per) r cells).1) fun _ => 0) =
      Nn.Tensor.matrix rows (n * per) fun r c => g (c / per) r (c % per) := by
    apply Nn.Tensor.ofCells_eq_matrix
    intro r hr c hc
    have hrows : (List.range rows).foldl (fun cells r =>
        (concatRow (shardsOf n rows per g) (n * per) r cells).1) (fun _ => 0) =
        (List.range rows).foldl (fun cells r =>
          Loop.storeRange (r * (n * per)) (n * per) (fun c => g (c / per) r (c % per)) cells) fun _ => 0 := by
      apply List.foldl_ext
      intro cells r hr
      rw [concatRow_shardsOf n (List.mem_range.mp hr)]
    rw [hrows]
    exact Loop.foldl_storeRange (fun r c => g (c / per) r (c % per)) hr hc _
  obtain ⟨n, rfl⟩ := Nat.exists_eq_succ_of_ne_zero (Nat.ne_of_gt hn)
  have htotal := totalColumns_shardsOf (n + 1) rows per g
  rw [← hcells]
  rw [shardsOf_succ] at htotal ⊢
  rw [concatColumns]
  simp only [Nn.Tensor.ndim_matrix, Nn.Tensor.dim_matrix_zero, htotal]
  rfl

theorem addShards (n rows cols : Nat) (g : Nat → Nat → Nat → K) (start : Nat → K) :
    ∃ cells, (shardsOf n rows cols g).foldlM (fun cells p =>
        if p.numel ≠ rows * cols then .error (.invalidArgument "sum: parts must share shape")
        else .ok (Loop.mapRange (rows * cols) (fun j a => a + p.cell j) cells)) start =
          (.ok cells : Except Error (Nat → K)) ∧
      ∀ r < rows, ∀ c < cols, cells (r * cols + c) = start (r * cols + c) + ∑ s ∈ Finset.range n, g s r c := by
  induction n with
  | zero => exact ⟨start, rfl, fun r _ c _ => by rw [Finset.sum_range_zero, add_zero]⟩
  | succ n ih =>
    obtain ⟨cells, hloop, hcells⟩ := ih
    have hnumel : (Nn.Tensor.matrix rows cols (g n)).numel = rows * cols := Dims.numel_matrix rows cols
    refine ⟨Loop.mapRange (rows * cols) (fun j a => a + (Nn.Tensor.matrix rows cols (g n)).cell j) cells, ?_, ?_⟩
    · rw [shardsOf] at hloop ⊢
      rw [List.range_succ, List.map_append, List.foldlM_append, hloop, ok_bind]
      simp only [List.map_cons, List.map_nil, List.foldlM_cons, hnumel, ne_eq, not_true_eq_false, if_false]
      rfl
    · intro r hr c hc
      rw [Loop.mapRange_of_lt (Loop.lt_work hr hc), hcells r hr c hc, Nn.Tensor.cell_matrix hr hc, add_assoc,
        Finset.sum_range_succ]

theorem sum_shardsOf {n : Nat} (hn : 0 < n) (rows cols : Nat) (g : Nat → Nat → Nat → K) :
    sum (shardsOf n rows cols g) = .ok (Nn.Tensor.matrix rows cols fun r c => ∑ s ∈ Finset.range n, g s r c) := by
  obtain ⟨n, rfl⟩ := Nat.exists_eq_succ_of_ne_zero (Nat.ne_of_gt hn)
  have hnumel : (Nn.Tensor.matrix rows cols (g 0)).numel = rows * cols := Dims.numel_matrix rows cols
  obtain ⟨cells, hloop, hcells⟩ := addShards n rows cols (fun s => g (s + 1))
    (Loop.storeRange 0 (rows * cols) (Nn.Tensor.matrix rows cols (g 0)).cell fun _ => 0)
  rw [shardsOf_succ, sum]
  simp only [hnumel, hloop]
  apply congrArg Except.ok
  apply Nn.Tensor.ofCells_eq_matrix
  intro r hr c hc
  have hstore := Loop.storeRange_apply (Loop.lt_work hr hc) 0 (Nn.Tensor.matrix rows cols (g 0)).cell fun _ => 0
  rw [Nat.zero_add] at hstore
  rw [hcells r hr c hc, hstore, Nn.Tensor.cell_matrix hr hc, Finset.sum_range_succ', add_comm]

/-! ### Sharded products -/

theorem sum_shards (n per : Nat) (h : Nat → K) :
    ∑ s ∈ Finset.range n, ∑ j ∈ Finset.range per, h (s * per + j) = ∑ j ∈ Finset.range (n * per), h j := by
  induction n with
  | zero => rw [Nat.zero_mul, Finset.sum_range_zero, Finset.sum_range_zero]
  | succ n ih => rw [Finset.sum_range_succ, ih, Nat.succ_mul, Finset.sum_range_add]

omit [CommRing K] in
theorem mapM_shardsOf {A : Type} {n rows cols : Nat} {g : Nat → Nat → Nat → K} (parts : Nat → A)
    {f : A → Except Error (Nn.Tensor K)} (h : ∀ s, f (parts s) = .ok (Nn.Tensor.matrix rows cols (g s))) :
    ((List.range n).map parts).mapM f = .ok (shardsOf n rows cols g) := by
  rw [shardsOf]
  induction List.range n with
  | nil => rfl
  | cons s shards ih =>
    rw [List.map_cons, List.mapM_cons, h, ok_bind, ih, ok_bind]
    rfl

/-- Column-parallel: the weight is split along its rows. -/
theorem columnParallel {n : Nat} (hn : 0 < n) (s width per : Nat) (f g : Nat → Nat → K) :
    (do
      let parts ← splitRows (Nn.Tensor.matrix (n * per) width g) n
      let ys ← parts.mapM fun part => linear (Nn.Tensor.matrix s width f) part Nn.Tensor.empty
      concatColumns ys) =
      linear (Nn.Tensor.matrix s width f) (Nn.Tensor.matrix (n * per) width g) Nn.Tensor.empty := by
  have hparts := mapM_shardsOf (n := n) (f := fun part => linear (Nn.Tensor.matrix s width f) part Nn.Tensor.empty)
    (fun k => Nn.Tensor.matrix per width fun r c => g (k * per + r) c)
    fun k => linear_matrix s width per f fun r c => g (k * per + r) c
  rw [splitRows_matrix hn, ok_bind, shardsOf, hparts, ok_bind, concatColumns_shardsOf hn, linear_matrix]
  apply congrArg Except.ok
  apply Nn.Tensor.matrix_congr
  intro r hr o ho
  rw [Nat.div_add_mod']

/-- Row-parallel: input and weight are split along their columns. -/
theorem rowParallel {n : Nat} (hn : 0 < n) (s per out : Nat) (f g : Nat → Nat → K) :
    (do
      let ws ← splitColumns (Nn.Tensor.matrix out (n * per) g) n
      let xs ← splitColumns (Nn.Tensor.matrix s (n * per) f) n
      let ys ← (xs.zip ws).mapM fun part => linear part.1 part.2 Nn.Tensor.empty
      sum ys) =
      linear (Nn.Tensor.matrix s (n * per) f) (Nn.Tensor.matrix out (n * per) g) Nn.Tensor.empty := by
  have hparts := mapM_shardsOf (n := n)
    (f := fun part : Nn.Tensor K × Nn.Tensor K => linear part.1 part.2 Nn.Tensor.empty)
    (fun k => (Nn.Tensor.matrix s per fun r c => f r (k * per + c),
      Nn.Tensor.matrix out per fun r c => g r (k * per + c)))
    fun k => linear_matrix s per out (fun r c => f r (k * per + c)) fun r c => g r (k * per + c)
  rw [splitColumns_matrix hn, ok_bind, splitColumns_matrix hn, ok_bind, shardsOf, shardsOf, List.zip_map', hparts,
    ok_bind, sum_shardsOf hn, linear_matrix]
  apply congrArg Except.ok
  apply Nn.Tensor.matrix_congr
  intro r hr o ho
  exact sum_shards n per fun j => f r j * g o j

theorem concatColumns_splitColumns {n : Nat} (hn : 0 < n) (rows per : Nat) (f : Nat → Nat → K) :
    (do
      let parts ← splitColumns (Nn.Tensor.matrix rows (n * per) f) n
      concatColumns parts) = .ok (Nn.Tensor.matrix rows (n * per) f) := by
  rw [splitColumns_matrix hn, ok_bind, concatColumns_shardsOf hn]
  apply congrArg Except.ok
  apply Nn.Tensor.matrix_congr
  intro r hr c hc
  rw [Nat.div_add_mod']

/-- **Sharding is exact.** -/
theorem sharding_exact (x w : Nn.Tensor K) {s width out : Nat} (hx : x.shape = [s, width]) (hw : w.shape = [out, width])
    {shards : Int} (hpos : 0 < shards) :
    (∃ y, linear x w Nn.Tensor.empty = .ok y) ∧
    (shards ∣ out → (do
        let parts ← splitRows w shards
        let ys ← parts.mapM fun part => linear x part Nn.Tensor.empty
        concatColumns ys) = linear x w Nn.Tensor.empty) ∧
    (shards ∣ width → (do
        let ws ← splitColumns w shards
        let xs ← splitColumns x shards
        let ys ← (xs.zip ws).mapM fun part => linear part.1 part.2 Nn.Tensor.empty
        sum ys) = linear x w Nn.Tensor.empty) ∧
    ∀ (m : Nn.Tensor K) (rows cols : Nat), m.shape = [rows, cols] → shards ∣ cols →
      (do
        let parts ← splitColumns m shards
        concatColumns parts) = .ok m := by
  obtain ⟨n, rfl⟩ := Int.eq_ofNat_of_zero_le hpos.le
  have hn : 0 < n := Int.natCast_pos.mp hpos
  rw [Nn.Tensor.eq_matrix hx, Nn.Tensor.eq_matrix hw]
  refine ⟨⟨_, linear_matrix _ _ _ _ _⟩, ?_, ?_, ?_⟩
  · intro hdvd
    obtain ⟨per, rfl⟩ := Int.natCast_dvd_natCast.mp hdvd
    exact columnParallel hn s width per _ _
  · intro hdvd
    obtain ⟨per, rfl⟩ := Int.natCast_dvd_natCast.mp hdvd
    exact rowParallel hn s per out _ _
  · intro m rows cols hm hdvd
    obtain ⟨per, rfl⟩ := Int.natCast_dvd_natCast.mp hdvd
    rw [Nn.Tensor.eq_matrix hm]
    exact concatColumns_splitColumns hn rows per _

theorem sharding_exact_tiny :
    let x : Nn.Tensor Int := Nn.Tensor.matrix 2 4 fun r c => r + c
    let w : Nn.Tensor Int := Nn.Tensor.matrix 2 4 fun r c => r * c - 1
    (do
      let ws ← splitColumns w 2
      let xs ← splitColumns x 2
      let ys ← (xs.zip ws).mapM fun part => linear part.1 part.2 Nn.Tensor.empty
      sum ys) = linear x w Nn.Tensor.empty ∧
      linear x w Nn.Tensor.empty = .ok ⟨[2, 2], [-6, 8, -10, 10], rfl⟩ := by
  intro x w
  have hx : x.shape = [2, 4] := rfl
  have hw : w.shape = [2, 4] := rfl
  exact ⟨(sharding_exact x w hx hw (by decide)).2.2.1 (by decide), by decide⟩

end Tp

end InferenceEngine
